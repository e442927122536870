import Mathlib.Data.List.TakeWhile
import PatternAutomata.Height
import PatternAutomata.Postorder

/-!
# What a yard keeps

A yard knows how many parentheses are open: as many as it holds barriers. Only a closing parenthesis
with no partner stops it, and at the end it asks for depth zero. It neither loses nor makes up
tokens. The tokens emitted and those that wait are, in some order, the tokens read without the
parentheses that have been closed, so height is the same before and after reordering.
-/

namespace PatternAutomata

/-- The number of open parentheses after `t`, unless it closes one that is not there. -/
def depthAfter : Nat → Token → Option Nat
  | depth, .openParen => some (depth + 1)
  | depth + 1, .closeParen => some depth
  | 0, .closeParen => none
  | depth, _ => some depth

def withoutParens (ts : List Token) : List Token := ts.filter (! Token.isParen ·)

theorem Token.isParen_of_precedence {t : Token} {n : Nat} (h : t.precedence = some n) :
    t.isParen = false := by
  cases t with
  | openParen | closeParen => cases h
  | _ => rfl

theorem depthAfter_of_precedence {t : Token} {n : Nat} (h : t.precedence = some n) (depth : Nat) :
    depthAfter depth t = some depth := by
  cases t with
  | literal c | openParen | closeParen => cases h
  | concat | union | star | optional | plus => rfl

namespace Yard

def depth (y : Yard) : Nat := y.waiting.countP isBarrier

def AtDepth (read : Except CompileError Yard) : Option Nat → Prop
  | some depth => ∃ y : Yard, read = .ok y ∧ y.depth = depth
  | none => read = .error (.unbalancedParentheses .unopened)

theorem countP_dropWhile_yields (op : Token) (waiting : List Token) :
    (waiting.dropWhile (yields op)).countP isBarrier = waiting.countP isBarrier := by
  induction waiting with
  | nil => rfl
  | cons t waiting ih =>
    cases hy : yields op t with
    | false => simp [hy]
    | true =>
      obtain ⟨n, hn⟩ := exists_precedence_of_yields hy
      simp [hy, isBarrier_of_precedence hn, ih]

theorem atDepth_push (y : Yard) (t : Token) : AtDepth (push y t) (depthAfter y.depth t) := by
  induction y, t using push_cases with
  | operator emitted waiting op n hop =>
    rw [push_operator hop, depthAfter_of_precedence hop]
    refine ⟨_, rfl, ?_⟩
    simp [depth, isBarrier_of_precedence hop, countP_dropWhile_yields]
  | literal emitted waiting c => exact ⟨_, rfl, rfl⟩
  | openParen emitted waiting => exact ⟨_, rfl, by simp [depth, isBarrier]⟩
  | closeParen emitted inner outer hinner =>
    have hi : inner.countP isBarrier = 0 := List.countP_eq_zero.2 (by simpa using hinner)
    have hd : depth ⟨emitted, inner ++ .openParen :: outer⟩ = outer.countP isBarrier + 1 := by
      simp [depth, hi, isBarrier]
    rw [hd]
    exact ⟨_, push_closeParen hinner emitted outer, rfl⟩
  | unopened emitted waiting hnone =>
    have hd : depth ⟨emitted, waiting⟩ = 0 := List.countP_eq_zero.2 (by simpa using hnone)
    rw [hd]
    exact push_closeParen_of_unopened hnone emitted

theorem atDepth_foldlM_push (ts : List Token) (y : Yard) :
    AtDepth (ts.foldlM push y) (ts.foldlM depthAfter y.depth) := by
  induction ts generalizing y with
  | nil => exact ⟨y, rfl, rfl⟩
  | cons t ts ih =>
    have hstep := atDepth_push y t
    rw [List.foldlM_cons, List.foldlM_cons]
    cases hd : depthAfter y.depth t with
    | none =>
      rw [hd] at hstep
      rw [hstep]
      rfl
    | some d =>
      rw [hd] at hstep
      obtain ⟨y', hpush, hy'⟩ := hstep
      rw [hpush, ← hy']
      exact ih y'

theorem any_isBarrier_iff (emitted : Array Token) (waiting : List Token) :
    waiting.any isBarrier = true ↔ depth ⟨emitted, waiting⟩ ≠ 0 := by
  rw [depth, ← Nat.pos_iff_ne_zero, List.countP_pos_iff, List.any_eq_true]

theorem finish_eq_ok_iff {y : Yard} {out : List Token} :
    y.finish = .ok out ↔ y.depth = 0 ∧ (y.emitted ++ y.waiting).toList = out := by
  obtain ⟨emitted, waiting⟩ := y
  have hany := any_isBarrier_iff emitted waiting
  by_cases hb : waiting.any isBarrier = true
  · simp [finish, hb, hany.1 hb]
  · have hd : depth ⟨emitted, waiting⟩ = 0 := Decidable.of_not_not fun hne => hb (hany.2 hne)
    simp [finish, hb, hd]

def EndsAtDepth (result : Except CompileError (List Token)) : Option Nat → Prop
  | none => result = .error (.unbalancedParentheses .unopened)
  | some 0 => ∃ out, result = .ok out
  | some (_ + 1) => result = .error (.unbalancedParentheses .unclosed)

theorem endsAtDepth_finish (y : Yard) : EndsAtDepth y.finish (some y.depth) := by
  obtain ⟨emitted, waiting⟩ := y
  cases hd : depth ⟨emitted, waiting⟩ with
  | zero => exact ⟨_, finish_eq_ok_iff.2 ⟨hd, rfl⟩⟩
  | succ depth =>
    have hany := (any_isBarrier_iff emitted waiting).2 (by omega)
    rw [EndsAtDepth, finish, if_pos hany]

def contents (y : Yard) : List Token := withoutParens (y.emitted.toList ++ y.waiting)

theorem perm_while (p : Token → Bool) (out waiting : List Token) (t : Token) :
    (out ++ waiting.takeWhile p ++ t :: waiting.dropWhile p).Perm (out ++ waiting ++ [t]) := by
  have hmid : (out ++ waiting.takeWhile p ++ t :: waiting.dropWhile p).Perm
      (t :: (out ++ waiting.takeWhile p ++ waiting.dropWhile p)) := List.perm_middle
  have hsplit : out ++ waiting.takeWhile p ++ waiting.dropWhile p = out ++ waiting := by
    rw [List.append_assoc, List.takeWhile_append_dropWhile]
  rw [hsplit] at hmid
  exact hmid.trans (List.perm_append_singleton t _).symm

theorem contents_push {y y' : Yard} {t : Token} (h : push y t = .ok y') :
    y'.contents.Perm (y.contents ++ withoutParens [t]) := by
  rw [contents, contents, withoutParens, withoutParens, withoutParens, ← List.filter_append]
  induction y, t using push_cases with
  | operator emitted waiting op n hop =>
    rw [push_operator hop] at h
    obtain rfl := Except.ok.inj h
    rw [Array.toList_appendList]
    exact (perm_while (yields op) emitted.toList waiting op).filter _
  | literal emitted waiting c =>
    obtain rfl := Except.ok.inj h
    have hmid : (emitted.toList ++ .literal c :: waiting).Perm
        (emitted.toList ++ waiting ++ [.literal c]) :=
      List.perm_middle.trans (List.perm_append_singleton _ _).symm
    rw [Array.toList_push, List.append_assoc]
    exact hmid.filter _
  | openParen emitted waiting =>
    obtain rfl := Except.ok.inj h
    simp [Token.isParen]
  | closeParen emitted inner outer hinner =>
    rw [push_closeParen hinner] at h
    obtain rfl := Except.ok.inj h
    simp [Token.isParen]
  | unopened emitted waiting hnone =>
    rw [push_closeParen_of_unopened hnone] at h
    cases h

theorem contents_foldlM_push {ts : List Token} {y y' : Yard} (h : ts.foldlM push y = .ok y') :
    y'.contents.Perm (y.contents ++ withoutParens ts) := by
  induction ts generalizing y with
  | nil =>
    obtain rfl := Except.ok.inj h
    simp [withoutParens]
  | cons t ts ih =>
    obtain ⟨y₁, hpush, hrun⟩ := exists_push_of_foldlM h
    have hstep := (contents_push hpush).append_right (withoutParens ts)
    have hcons : withoutParens [t] ++ withoutParens ts = withoutParens (t :: ts) := by
      rw [withoutParens, withoutParens, ← List.filter_append]
      rfl
    rw [List.append_assoc, hcons] at hstep
    exact (ih hrun).trans hstep

structure WellFormed (y : Yard) : Prop where
  emitted : ∀ t ∈ y.emitted.toList, t.isParen = false
  waiting : ∀ t ∈ y.waiting, t = .openParen ∨ ∃ n, t.precedence = some n

theorem WellFormed.empty : WellFormed .empty :=
  ⟨by simp [Yard.empty], by simp [Yard.empty]⟩

theorem WellFormed.push {y y' : Yard} {t : Token} (hy : y.WellFormed) (h : y.push t = .ok y') :
    y'.WellFormed := by
  obtain ⟨hemitted, hwaiting⟩ := hy
  induction y, t using push_cases with
  | operator emitted waiting op n hop =>
    rw [push_operator hop] at h
    obtain rfl := Except.ok.inj h
    refine ⟨fun u hu => ?_, fun u hu => ?_⟩
    · rw [Array.toList_appendList, List.mem_append] at hu
      rcases hu with hu | hu
      · exact hemitted u hu
      · obtain ⟨k, hk⟩ := exists_precedence_of_yields (List.mem_takeWhile_imp hu)
        exact Token.isParen_of_precedence hk
    · rcases List.mem_cons.1 hu with hu | hu
      · exact Or.inr ⟨n, hu ▸ hop⟩
      · exact hwaiting u ((List.dropWhile_sublist _).subset hu)
  | literal emitted waiting c =>
    obtain rfl := Except.ok.inj h
    refine ⟨fun u hu => ?_, hwaiting⟩
    rw [Array.toList_push, List.mem_append, List.mem_singleton] at hu
    rcases hu with hu | hu
    · exact hemitted u hu
    · rw [hu]
      rfl
  | openParen emitted waiting =>
    obtain rfl := Except.ok.inj h
    refine ⟨hemitted, fun u hu => ?_⟩
    rcases List.mem_cons.1 hu with hu | hu
    · exact Or.inl hu
    · exact hwaiting u hu
  | closeParen emitted inner outer hinner =>
    rw [push_closeParen hinner] at h
    obtain rfl := Except.ok.inj h
    refine ⟨fun u hu => ?_, fun u hu => hwaiting u (by simp [hu])⟩
    rw [Array.toList_appendList, List.mem_append] at hu
    rcases hu with hu | hu
    · exact hemitted u hu
    · rcases hwaiting u (by simp [hu]) with hopen | ⟨n, hn⟩
      · have hb := hinner u hu
        simp [isBarrier, hopen] at hb
      · exact Token.isParen_of_precedence hn
  | unopened emitted waiting hnone =>
    rw [push_closeParen_of_unopened hnone] at h
    cases h

theorem WellFormed.foldlM_push {ts : List Token} {y y' : Yard} (hy : y.WellFormed)
    (h : ts.foldlM Yard.push y = .ok y') : y'.WellFormed := by
  induction ts generalizing y with
  | nil =>
    obtain rfl := Except.ok.inj h
    exact hy
  | cons t ts ih =>
    obtain ⟨y₁, hpush, hrun⟩ := exists_push_of_foldlM h
    exact ih (hy.push hpush) hrun

end Yard

theorem exists_yard_of_toPostorder {ts out : List Token} (h : toPostorder ts = .ok out) :
    ∃ y : Yard, ts.foldlM Yard.push .empty = .ok y ∧ y.depth = 0 ∧
      (y.emitted ++ y.waiting).toList = out := by
  cases hrun : ts.foldlM Yard.push .empty with
  | error cause =>
    rw [toPostorder, hrun] at h
    cases h
  | ok y =>
    rw [toPostorder_of_foldlM hrun, Yard.finish_eq_ok_iff] at h
    exact ⟨y, rfl, h⟩

theorem endsAtDepth_toPostorder (ts : List Token) :
    Yard.EndsAtDepth (toPostorder ts) (ts.foldlM depthAfter 0) := by
  have hread : Yard.AtDepth (ts.foldlM Yard.push .empty) (ts.foldlM depthAfter 0) :=
    Yard.atDepth_foldlM_push ts .empty
  cases hd : ts.foldlM depthAfter 0 with
  | none =>
    rw [hd] at hread
    rw [Yard.EndsAtDepth, toPostorder, hread]
    rfl
  | some depth =>
    rw [hd] at hread
    obtain ⟨y, hrun, rfl⟩ := hread
    rw [toPostorder_of_foldlM hrun]
    exact y.endsAtDepth_finish

theorem Yard.EndsAtDepth.iffs {result : Except CompileError (List Token)} {depth? : Option Nat}
    (h : EndsAtDepth result depth?) :
    (result = .error (.unbalancedParentheses .unopened) ↔ depth? = none) ∧
      (result = .error (.unbalancedParentheses .unclosed) ↔
        ∃ depth, depth? = some (depth + 1)) ∧
      ((∃ out, result = .ok out) ↔ depth? = some 0) := by
  rcases depth? with _ | _ | depth
  · obtain rfl := h
    simp
  · obtain ⟨out, rfl⟩ := h
    simp
  · obtain rfl := h
    simp

theorem foldlM_depthAfter_of_toPostorder {ts out : List Token} (h : toPostorder ts = .ok out) :
    ts.foldlM depthAfter 0 = some 0 :=
  (endsAtDepth_toPostorder ts).iffs.2.2.1 ⟨out, h⟩

theorem isParen_of_mem_toPostorder {ts out : List Token} (h : toPostorder ts = .ok out)
    {t : Token} (ht : t ∈ out) : t.isParen = false := by
  obtain ⟨y, hrun, hy, hout⟩ := exists_yard_of_toPostorder h
  have hwell := Yard.WellFormed.empty.foldlM_push hrun
  rw [← hout, Array.toList_appendList, List.mem_append] at ht
  rcases ht with ht | ht
  · exact hwell.emitted t ht
  · rcases hwell.waiting t ht with hopen | ⟨n, hn⟩
    · subst hopen
      have hb := List.countP_eq_zero.1 hy _ ht
      exact absurd rfl hb
    · exact Token.isParen_of_precedence hn

theorem perm_of_toPostorder {ts out : List Token} (h : toPostorder ts = .ok out) :
    out.Perm (withoutParens ts) := by
  obtain ⟨y, hrun, -, hout⟩ := exists_yard_of_toPostorder h
  have hkept : withoutParens out = out :=
    List.filter_eq_self.2 fun t ht => by simp [isParen_of_mem_toPostorder h ht]
  have hperm := Yard.contents_foldlM_push hrun
  rw [Yard.contents, ← Array.toList_appendList, hout, hkept] at hperm
  exact hperm

theorem height_eq_of_perm {ts us : List Token} (h : ts.Perm us) : height ts = height us := by
  rw [height, height, h.countP_eq, h.countP_eq]

theorem height_withoutParens (ts : List Token) : height (withoutParens ts) = height ts := by
  induction ts with
  | nil => rfl
  | cons t ts ih =>
    have hsplit : withoutParens (t :: ts) = withoutParens [t] ++ withoutParens ts :=
      List.filter_append [t] ts
    have htoken : height (withoutParens [t]) = height [t] := by
      cases t <;> rfl
    rw [hsplit, height_append, htoken, ih, ← height_cons]

theorem height_of_toPostorder {ts out : List Token} (h : toPostorder ts = .ok out) :
    height out = height ts := by
  rw [height_eq_of_perm (perm_of_toPostorder h), height_withoutParens]

end PatternAutomata
