import PatternAutomata.Proofs.Balance
import PatternAutomata.Proofs.Reordering

/-!
# A pattern in place of a literal

A yard never looks at what it has emitted, and what waits below an open parenthesis neither changes
nor matters until that parenthesis is closed. So a group puts out what its inside puts out on its
own and leaves the waiting operators as it found them, which is what a literal does. It also begins
and ends an operand like a literal, so the marks around it are the same. Whatever stands around it,
and whether that is well formed or not, a literal can be replaced by a group.
-/

namespace PatternAutomata

theorem while_append_of_stop {p : Token → Bool} {stop : Token} (h : p stop = false)
    (inner outer : List Token) :
    (inner ++ stop :: outer).takeWhile p = inner.takeWhile p ∧
      (inner ++ stop :: outer).dropWhile p = inner.dropWhile p ++ stop :: outer := by
  induction inner with
  | nil => simp [h]
  | cons t inner ih =>
    by_cases ht : p t = true
    · simp [ht, ih]
    · simp [ht]

def literals (ts : List Token) : List Token := ts.filter Token.isLiteral

theorem literals_append (ts us : List Token) : literals (ts ++ us) = literals ts ++ literals us :=
  List.filter_append ts us

theorem literals_cons (t : Token) (ts : List Token) :
    literals (t :: ts) = literals [t] ++ literals ts :=
  literals_append [t] ts

theorem literals_of_precedence {ts : List Token} (h : ∀ t ∈ ts, ∃ n, t.precedence = some n) :
    literals ts = [] := by
  refine List.filter_eq_nil_iff.2 fun t ht => ?_
  obtain ⟨n, hn⟩ := h t ht
  cases t with
  | literal c => cases hn
  | _ => simp [Token.isLiteral]

namespace Yard

variable {y y' : Yard} {t : Token} {ts : List Token}

def behind (before : Array Token) (y : Yard) : Yard := ⟨before ++ y.emitted, y.waiting⟩

theorem append_appendList (before emitted : Array Token) (out : List Token) :
    before ++ emitted ++ out = before ++ (emitted ++ out) := by
  apply Array.ext'
  simp

theorem push_behind (before : Array Token) (y : Yard) (t : Token) :
    push (y.behind before) t = (push y t).map (behind before) := by
  induction y, t using push_cases with
  | operator emitted waiting op n hop =>
    rw [behind, push_operator hop, push_operator hop, append_appendList]
    rfl
  | literal emitted waiting c =>
    have hpush : (before ++ emitted).push (.literal c) = before ++ emitted.push (.literal c) :=
      Array.append_push.symm
    exact congrArg (fun emitted => Except.ok (⟨emitted, waiting⟩ : Yard)) hpush
  | openParen emitted waiting => rfl
  | closeParen emitted inner outer hinner =>
    rw [behind, push_closeParen hinner, push_closeParen hinner, append_appendList]
    rfl
  | unopened emitted waiting hnone =>
    rw [behind, push_closeParen_of_unopened hnone, push_closeParen_of_unopened hnone]
    rfl

theorem foldlM_push_behind (before : Array Token) (y : Yard) (ts : List Token) :
    ts.foldlM push (y.behind before) = (ts.foldlM push y).map (behind before) := by
  induction ts generalizing y with
  | nil => rfl
  | cons t ts ih =>
    rw [List.foldlM_cons, List.foldlM_cons, push_behind]
    cases push y t with
    | error cause => rfl
    | ok y' => exact ih y'

theorem finish_behind (before : Array Token) (y : Yard) :
    finish (y.behind before) = (finish y).map (before.toList ++ ·) := by
  by_cases h : y.waiting.any isBarrier = true
  · simp [behind, finish, h, Except.map]
  · simp [behind, finish, h, Except.map]

def within (outer : List Token) (y : Yard) : Yard := ⟨y.emitted, y.waiting ++ .openParen :: outer⟩

theorem push_within (h : push y t = .ok y') (outer : List Token) :
    push (y.within outer) t = .ok (y'.within outer) := by
  induction y, t using push_cases with
  | operator emitted waiting op n hop =>
    rw [push_operator hop] at h
    obtain rfl := Except.ok.inj h
    -- no operator releases the parenthesis, nor anything below it
    have hstay : yields op .openParen = false := rfl
    obtain ⟨htake, hdrop⟩ := while_append_of_stop hstay waiting outer
    rw [within, push_operator hop, htake, hdrop]
    rfl
  | literal | openParen =>
    obtain rfl := Except.ok.inj h
    rfl
  | closeParen emitted inner rest hinner =>
    rw [push_closeParen hinner] at h
    obtain rfl := Except.ok.inj h
    rw [within, List.append_assoc, List.cons_append]
    exact push_closeParen hinner emitted _
  | unopened emitted waiting hnone =>
    rw [push_closeParen_of_unopened hnone] at h
    cases h

theorem foldlM_push_within (h : ts.foldlM push y = .ok y') (outer : List Token) :
    ts.foldlM push (y.within outer) = .ok (y'.within outer) := by
  induction ts generalizing y with
  | nil =>
    obtain rfl := Except.ok.inj h
    rfl
  | cons t ts ih =>
    obtain ⟨y₁, hpush, hrun⟩ := exists_push_of_foldlM h
    rw [List.foldlM_cons, push_within hpush]
    exact ih hrun

theorem WellFormed.literals_push (hy : y.WellFormed) (h : Yard.push y t = .ok y') :
    literals y'.emitted.toList = literals y.emitted.toList ++ literals [t] := by
  have hwaiting := hy.waiting
  induction y, t using push_cases with
  | operator emitted waiting op n hop =>
    rw [push_operator hop] at h
    obtain rfl := Except.ok.inj h
    have hreleased : literals (waiting.takeWhile (yields op)) = [] :=
      literals_of_precedence fun u hu => exists_precedence_of_yields (List.mem_takeWhile_imp hu)
    have hop' : literals [op] = [] := literals_of_precedence (by simp [hop])
    rw [Array.toList_appendList, literals_append, hreleased, hop']
  | literal emitted waiting c =>
    obtain rfl := Except.ok.inj h
    rw [Array.toList_push, literals_append]
  | openParen emitted waiting =>
    obtain rfl := Except.ok.inj h
    exact (List.append_nil _).symm
  | closeParen emitted inner outer hinner =>
    rw [push_closeParen hinner] at h
    obtain rfl := Except.ok.inj h
    have hreleased : literals inner = [] := by
      refine literals_of_precedence fun u hu => ?_
      rcases hwaiting u (List.mem_append_left _ hu) with rfl | hu'
      · have hb := hinner _ hu
        cases hb
      · exact hu'
    rw [Array.toList_appendList, literals_append, hreleased]
    rfl
  | unopened emitted waiting hnone =>
    rw [push_closeParen_of_unopened hnone] at h
    cases h

theorem WellFormed.literals_foldlM_push (hy : y.WellFormed)
    (h : ts.foldlM Yard.push y = .ok y') :
    literals y'.emitted.toList = literals y.emitted.toList ++ literals ts := by
  induction ts generalizing y with
  | nil =>
    obtain rfl := Except.ok.inj h
    exact (List.append_nil _).symm
  | cons t ts ih =>
    obtain ⟨y₁, hpush, hrun⟩ := exists_push_of_foldlM h
    rw [ih (hy.push hpush) hrun, hy.literals_push hpush, List.append_assoc, ← literals_append]
    rfl

end Yard

/-- Reading `block` puts out `out` and leaves what waits as it was. -/
def Emits (block out : List Token) : Prop :=
  ∀ emitted waiting, block.foldlM Yard.push ⟨emitted, waiting⟩ = .ok ⟨emitted ++ out, waiting⟩

theorem emits_literal (c : Char) : Emits [.literal c] [.literal c] := by
  intro emitted waiting
  rfl

theorem emits_group {ts out : List Token} (h : toPostorder ts = .ok out) :
    Emits (.openParen :: ts ++ [.closeParen]) out := by
  intro emitted waiting
  obtain ⟨y, hrun, hdepth, hout⟩ := exists_yard_of_toPostorder h
  have hnone : ∀ t ∈ y.waiting, Yard.isBarrier t = false := by
    simpa using List.countP_eq_zero.1 hdepth
  have hinside : ts.foldlM Yard.push ⟨emitted, .openParen :: waiting⟩ =
      .ok ⟨emitted ++ y.emitted, y.waiting ++ .openParen :: waiting⟩ := by
    have hbehind := Yard.foldlM_push_behind emitted (Yard.within waiting .empty) ts
    rw [Yard.foldlM_push_within hrun waiting] at hbehind
    simpa [Yard.behind, Yard.within, Yard.empty, Except.map] using hbehind
  have hclose := Yard.push_closeParen hnone (emitted ++ y.emitted) waiting
  have hall : emitted ++ y.emitted ++ y.waiting = emitted ++ out := by
    rw [← hout]
    apply Array.ext'
    simp
  rw [List.cons_append, Yard.foldlM_push_cons rfl, Yard.foldlM_push_append hinside,
    Yard.foldlM_push_cons hclose, hall]
  rfl

def outputFrom (waiting ts : List Token) : Except CompileError (List Token) := do
  (← ts.foldlM Yard.push ⟨#[], waiting⟩).finish

theorem toPostorder_around {block out : List Token} (h : Emits block out)
    (before after : List Token) :
    toPostorder (before ++ block ++ after) = do
      let y ← before.foldlM Yard.push .empty
      return y.emitted.toList ++ out ++ (← outputFrom y.waiting after) := by
  rw [toPostorder, List.append_assoc, List.foldlM_append]
  cases before.foldlM Yard.push .empty with
  | error cause => rfl
  | ok y =>
    obtain ⟨emitted, waiting⟩ := y
    have hbehind := Yard.foldlM_push_behind (emitted ++ out) ⟨#[], waiting⟩ after
    have hstart : Yard.behind (emitted ++ out) ⟨#[], waiting⟩ = ⟨emitted ++ out, waiting⟩ := by
      simp [Yard.behind]
    rw [hstart] at hbehind
    change ((block ++ after).foldlM Yard.push ⟨emitted, waiting⟩ >>= Yard.finish) = _
    rw [Yard.foldlM_push_append (h emitted waiting), hbehind]
    change _ = (outputFrom waiting after).map (emitted.toList ++ out ++ ·)
    rw [outputFrom]
    cases after.foldlM Yard.push ⟨#[], waiting⟩ with
    | error cause => rfl
    | ok y =>
      have hfinish := Yard.finish_behind (emitted ++ out) y
      rw [Array.toList_appendList] at hfinish
      exact hfinish

structure Operand (block : List Token) : Prop where
  begins : block.head?.any Token.beginsOperand = true
  ends : block.getLast?.any Token.endsOperand = true

theorem Operand.literal (c : Char) : Operand [.literal c] := ⟨rfl, rfl⟩

theorem Operand.group (ts : List Token) : Operand (.openParen :: ts ++ [.closeParen]) := by
  refine ⟨rfl, ?_⟩
  rw [List.getLast?_concat]
  rfl

theorem Operand.ne_nil {block : List Token} (h : Operand block) : block ≠ [] := by
  rintro rfl
  have hbegins := h.begins
  cases hbegins

theorem markConcat_around {block : List Token} (h : Operand block) (ts us : List Token) :
    markConcat (ts ++ block ++ us) =
      markConcat ts ++ seam ts [.openParen] ++ markConcat block ++
        (seam [.closeParen] us ++ markConcat us) := by
  have hopen : seam ts block = seam ts [.openParen] := by
    simp only [seam, h.begins]
    rfl
  have hclose : seam (ts ++ block) us = seam [.closeParen] us := by
    simp only [seam, List.getLast?_append_of_ne_nil _ h.ne_nil, h.ends]
    rfl
  rw [markConcat_append, markConcat_append, hopen, hclose, List.append_assoc]

theorem literals_seam (ts us : List Token) : literals (seam ts us) = [] := by
  rw [seam]
  split
  · rfl
  · rfl

theorem literals_markConcat (ts : List Token) : literals (markConcat ts) = literals ts := by
  induction ts with
  | nil => rfl
  | cons t ts ih =>
    rw [markConcat_cons, juxtapose_eq, literals_cons, literals_append, literals_seam, ih]
    exact (literals_cons t ts).symm

theorem tokenize_append (s t : String) : tokenize (s ++ t) = tokenize s ++ tokenize t := by
  simp [tokenize]

/-- The pattern `text` is an operand of its own and puts out `out`, wherever it stands. -/
structure Block (text : String) (out : List Token) : Prop where
  operand : Operand (tokenize text)
  emits : Emits (markConcat (tokenize text)) out

theorem Block.literal {c : Char} (hc : c ∉ reservedChars) : Block c.toString [.literal c] := by
  have htokens : tokenize c.toString = [.literal c] := by
    simp [tokenize, Token.ofChar_of_not_reserved hc]
  constructor
  · rw [htokens]
    exact .literal c
  · rw [htokens]
    exact emits_literal c

theorem Block.group {text : String} {out : List Token} (h : parse text = .ok out) :
    Block ("(" ++ text ++ ")") out := by
  have htokens : tokenize ("(" ++ text ++ ")") = .openParen :: tokenize text ++ [.closeParen] := by
    simp [tokenize, Token.ofChar]
  constructor
  · rw [htokens]
    exact .group _
  · rw [htokens, markConcat_group]
    exact emits_group h

/-- Two texts around a block either fail in the same way whatever the block, or put out what they
have to put out around what the block does. -/
theorem parse_around (before after : String) :
    (∃ cause, ∀ text out, Block text out → parse (before ++ text ++ after) = .error cause) ∨
      ∃ o₁ o₂, literals o₁ = literals (tokenize before) ∧
        ∀ text out, Block text out → parse (before ++ text ++ after) = .ok (o₁ ++ out ++ o₂) := by
  have hparse : ∀ text out, Block text out → parse (before ++ text ++ after) = do
      let y ← (markConcat (tokenize before) ++ seam (tokenize before) [.openParen]).foldlM
        Yard.push .empty
      return y.emitted.toList ++ out ++ (← outputFrom y.waiting
        (seam [.closeParen] (tokenize after) ++ markConcat (tokenize after))) := by
    intro text out h
    rw [parse, tokenize_append, tokenize_append, markConcat_around h.operand,
      toPostorder_around h.emits]
  cases hrun : (markConcat (tokenize before) ++ seam (tokenize before) [.openParen]).foldlM
      Yard.push .empty with
  | error cause =>
    refine Or.inl ⟨cause, fun text out h => ?_⟩
    rw [hparse text out h, hrun]
    rfl
  | ok y =>
    cases hrest : outputFrom y.waiting
        (seam [.closeParen] (tokenize after) ++ markConcat (tokenize after)) with
    | error cause =>
      refine Or.inl ⟨cause, fun text out h => ?_⟩
      rw [hparse text out h, hrun]
      change (outputFrom y.waiting _ >>= fun rest => pure (y.emitted.toList ++ out ++ rest)) = _
      rw [hrest]
      rfl
    | ok rest =>
      refine Or.inr ⟨y.emitted.toList, rest, ?_, fun text out h => ?_⟩
      · rw [Yard.WellFormed.empty.literals_foldlM_push hrun, literals_append, literals_markConcat,
          literals_seam, List.append_nil]
        rfl
      · rw [hparse text out h, hrun]
        change (outputFrom y.waiting _ >>= fun rest => pure (y.emitted.toList ++ out ++ rest)) = _
        rw [hrest]
        rfl

theorem eq_of_length_literals {c d : Char} {ts us ts' us' : List Token}
    (h : ts ++ .literal c :: us = ts' ++ .literal d :: us')
    (hcount : (literals ts).length = (literals ts').length) : ts = ts' ∧ us = us' := by
  induction ts generalizing ts' with
  | nil =>
    cases ts' with
    | nil => exact ⟨rfl, (List.cons.inj h).2⟩
    | cons t ts' =>
      obtain ⟨rfl, -⟩ := List.cons.inj h
      cases hcount
  | cons t ts ih =>
    cases ts' with
    | nil =>
      obtain ⟨rfl, -⟩ := List.cons.inj h
      cases hcount
    | cons t' ts' =>
      obtain ⟨rfl, htail⟩ := List.cons.inj h
      rw [literals_cons t ts, literals_cons t ts', List.length_append, List.length_append] at hcount
      obtain ⟨rfl, rfl⟩ := ih htail (Nat.add_left_cancel hcount)
      exact ⟨rfl, rfl⟩

/-- A pattern that parses can take the place of a literal when it is put in parentheses: what is put
out for it stands where the literal stood, and an error stays the same. The literal is told by the
number of literals before it. -/
theorem parse_group_for_literal {c : Char} (hc : c ∉ reservedChars) {q : String}
    {out : List Token} (hq : parse q = .ok out) (before after : String) :
    (∀ o₁ o₂, parse (before ++ c.toString ++ after) = .ok (o₁ ++ .literal c :: o₂) →
      (literals o₁).length = (literals (tokenize before)).length →
      (∀ d ∉ reservedChars,
        parse (before ++ d.toString ++ after) = .ok (o₁ ++ .literal d :: o₂)) ∧
      parse (before ++ ("(" ++ q ++ ")") ++ after) = .ok (o₁ ++ out ++ o₂)) ∧
    (∀ all, parse (before ++ c.toString ++ after) = .ok all →
      ∃ o₁ o₂, all = o₁ ++ .literal c :: o₂ ∧ literals o₁ = literals (tokenize before)) ∧
    ∀ cause, parse (before ++ c.toString ++ after) = .error cause →
      parse (before ++ ("(" ++ q ++ ")") ++ after) = .error cause := by
  rcases parse_around before after with ⟨cause, herror⟩ | ⟨a, b, hbefore, hok⟩
  · have hliteral := herror _ _ (.literal hc)
    refine ⟨fun o₁ o₂ h => ?_, fun all h => ?_, fun cause' h => ?_⟩
    · rw [hliteral] at h
      cases h
    · rw [hliteral] at h
      cases h
    · rw [hliteral] at h
      rw [← h]
      exact herror _ _ (.group hq)
  · have hliteral := hok _ _ (.literal hc)
    rw [List.append_assoc] at hliteral
    refine ⟨fun o₁ o₂ h hcount => ?_, fun all h => ?_, fun cause' h => ?_⟩
    · rw [hliteral] at h
      obtain ⟨rfl, rfl⟩ := eq_of_length_literals (Except.ok.inj h) (by rw [hbefore, hcount])
      refine ⟨fun d hd => ?_, hok _ _ (.group hq)⟩
      rw [hok _ _ (.literal hd), List.append_assoc]
      rfl
    · rw [hliteral] at h
      exact ⟨a, b, (Except.ok.inj h).symm, hbefore⟩
    · rw [hliteral] at h
      cases h

theorem parse_group_for_literal_dangling :
    parse "*c|(|b.)c|a" = .ok [.star, .literal 'c', .concat, .literal 'b', .concat, .union,
      .literal 'c', .concat, .union, .literal 'a', .union] ∧
    parse ")(|b.)" = .error (.unbalancedParentheses .unopened) := by
  have hc : 'a' ∉ reservedChars := by decide
  have hq : parse "|b." = .ok [.literal 'b', .concat, .union] := rfl
  constructor
  · have hgroup := (parse_group_for_literal hc hq "*c|" "c|a").1
    exact (hgroup [.star, .literal 'c', .concat] [.literal 'c', .concat, .union, .literal 'a',
      .union] rfl rfl).2
  · exact (parse_group_for_literal hc hq ")" "").2.2 _ rfl

end PatternAutomata
