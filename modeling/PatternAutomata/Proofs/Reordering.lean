import PatternAutomata.Postorder
import PatternAutomata.Proofs.Marking

/-!
# Reordering follows the grammar

What waits in a yard is the unfinished left edge of the tree read so far. Reading a whole phrase
adds to the emitted tokens and puts operators before those that already waited, and both together
are the postorder of the phrase. The new operators bind at least as tightly as the level of the
phrase. The next operator of that level releases all of them and none of the older ones: those
belong to an enclosing phrase of a looser level or stand behind an open parenthesis.
-/

namespace PatternAutomata

/-- How tightly the loosest operator of a level binds. -/
def Level.strength : Level → Nat
  | .expr => 0
  | .term => 1
  | .factor => 2

def Tight (n : Nat) (pending : List Token) : Prop :=
  ∀ t ∈ pending, ∃ k, t.precedence = some k ∧ n ≤ k

/-- The first of `waiting` stays where it is when an operator as tight as `n` comes in. -/
def Held (n : Nat) (waiting : List Token) : Prop :=
  ∀ t ∈ waiting.head?, ∀ k, t.precedence = some k → k < n

theorem Tight.mono {n k : Nat} {pending : List Token} (h : Tight n pending) (hk : k ≤ n) :
    Tight k pending := by
  intro t ht
  obtain ⟨p, hp, hn⟩ := h t ht
  exact ⟨p, hp, by omega⟩

theorem Held.mono {n k : Nat} {waiting : List Token} (h : Held n waiting) (hk : n ≤ k) :
    Held k waiting := by
  intro t ht p hp
  have hlt : p < n := h t ht p hp
  omega

namespace Yard

variable {n : Nat} {pending waiting : List Token}

theorem yields_of_tight {op : Token} (hop : op.precedence = some n) (h : Tight n pending) :
    ∀ t ∈ pending, yields op t = true := by
  intro t ht
  obtain ⟨k, hk, hn⟩ := h t ht
  simp [yields, hop, hk, hn]

theorem not_yields_of_held {op : Token} (hop : op.precedence = some n) (h : Held n waiting) :
    ∀ t ∈ waiting.head?, yields op t = false := by
  intro t ht
  cases hk : t.precedence with
  | none => simp [yields, hk]
  | some k =>
    have hlt : k < n := h t ht k hk
    simp [yields, hop, hk, hlt]

end Yard

theorem split_while {p : Token → Bool} {pending waiting : List Token}
    (hp : ∀ t ∈ pending, p t = true) (hw : ∀ t ∈ waiting.head?, p t = false) :
    (pending ++ waiting).takeWhile p = pending ∧ (pending ++ waiting).dropWhile p = waiting := by
  rw [List.takeWhile_append_of_pos hp, List.dropWhile_append_of_pos hp]
  cases waiting with
  | nil => simp
  | cons t waiting =>
    have ht : p t = false := hw t rfl
    simp [ht]

namespace Yard

variable {n : Nat} {pending waiting : List Token}

theorem push_operator_of_tight {op : Token} (hop : op.precedence = some n) (ht : Tight n pending)
    (hh : Held n waiting) (emitted : Array Token) :
    push ⟨emitted, pending ++ waiting⟩ op = .ok ⟨emitted ++ pending, op :: waiting⟩ := by
  obtain ⟨htake, hdrop⟩ := split_while (yields_of_tight hop ht) (not_yields_of_held hop hh)
  rw [push_operator hop, htake, hdrop]

theorem not_isBarrier_of_tight (ht : Tight n pending) : ∀ t ∈ pending, isBarrier t = false := by
  intro t htp
  obtain ⟨k, hk, -⟩ := ht t htp
  exact isBarrier_of_precedence hk

theorem finish_of_tight (ht : Tight n pending) (emitted : Array Token) :
    finish ⟨emitted, pending⟩ = .ok (emitted ++ pending).toList := by
  have hnone : pending.any isBarrier = false := by
    simpa using not_isBarrier_of_tight ht
  rw [finish, hnone]
  rfl

end Yard

theorem appendList_assoc (emitted : Array Token) (out pending : List Token) :
    emitted ++ out ++ pending = emitted ++ (out ++ pending) := by
  apply Array.ext'
  simp

namespace Yard

variable {y y' : Yard} {t : Token} {ts : List Token}

theorem foldlM_push_append (h : ts.foldlM push y = .ok y') (us : List Token) :
    (ts ++ us).foldlM push y = us.foldlM push y' := by
  rw [List.foldlM_append, h]
  rfl

theorem foldlM_push_cons (h : push y t = .ok y') (us : List Token) :
    (t :: us).foldlM push y = us.foldlM push y' := by
  rw [List.foldlM_cons, h]
  rfl

end Yard

/-- Reading `marked` adds the listing `post` to any yard that holds back what waits in it. Of the
listing, only operators as tight as `n` still wait. -/
def Reorders (n : Nat) (marked post : List Token) : Prop :=
  ∀ (emitted : Array Token) (waiting : List Token), Held n waiting →
    ∃ out pending : List Token, Tight n pending ∧ out ++ pending = post ∧
      marked.foldlM Yard.push ⟨emitted, waiting⟩ = .ok ⟨emitted ++ out, pending ++ waiting⟩

namespace Reorders

variable {n k : Nat} {op : Token} {ts us post post' : List Token}

theorem mono (h : Reorders n ts post) (hk : k ≤ n) : Reorders k ts post := by
  intro emitted waiting hw
  obtain ⟨out, pending, ht, hpost, hrun⟩ := h emitted waiting (hw.mono hk)
  exact ⟨out, pending, ht.mono hk, hpost, hrun⟩

theorem nil : Reorders n [] [] := by
  intro emitted waiting _
  exact ⟨[], [], by simp [Tight], rfl, rfl⟩

theorem literal (c : Char) : Reorders n [.literal c] [.literal c] := by
  intro emitted waiting _
  exact ⟨[.literal c], [], by simp [Tight], rfl, rfl⟩

theorem operator (hop : op.precedence = some n) (h : Reorders n ts post) :
    Reorders n (ts ++ [op]) (post ++ [op]) := by
  intro emitted waiting hw
  obtain ⟨out, pending, ht, hpost, hrun⟩ := h emitted waiting hw
  have hpush := Yard.push_operator_of_tight hop ht hw (emitted ++ out)
  refine ⟨out ++ pending, [op], by simp [Tight, hop], by rw [hpost], ?_⟩
  rw [Yard.foldlM_push_append hrun, Yard.foldlM_push_cons hpush, appendList_assoc]
  rfl

theorem binary (hop : op.precedence = some n) (hl : Reorders n ts post)
    (hr : Reorders (n + 1) us post') :
    Reorders n (ts ++ op :: us) (post ++ post' ++ [op]) := by
  intro emitted waiting hw
  obtain ⟨out, pending, ht, hpost, hrun⟩ := hl emitted waiting hw
  have hpush := Yard.push_operator_of_tight hop ht hw (emitted ++ out)
  -- only tighter operators leave this one waiting, so the right side is read a level tighter
  have hw' : Held (n + 1) (op :: waiting) := by simp [Held, hop]
  obtain ⟨out', pending', ht', hpost', hrun'⟩ := hr (emitted ++ out ++ pending) (op :: waiting) hw'
  refine ⟨out ++ pending ++ out', pending' ++ [op], ?_, ?_, ?_⟩
  · intro t htp
    rcases List.mem_append.1 htp with htp | htp
    · exact ht'.mono (Nat.le_succ n) t htp
    · rw [List.mem_singleton.1 htp]
      exact ⟨n, hop, Nat.le_refl n⟩
  · rw [hpost, ← hpost']
    simp
  · rw [Yard.foldlM_push_append hrun, Yard.foldlM_push_cons hpush, hrun', appendList_assoc,
      appendList_assoc]
    simp

theorem group (h : Reorders 0 ts post) :
    Reorders n (.openParen :: ts ++ [.closeParen]) post := by
  intro emitted waiting _
  have hw : Held 0 (.openParen :: waiting) := by simp [Held, Token.precedence]
  obtain ⟨out, pending, ht, hpost, hrun⟩ := h emitted (.openParen :: waiting) hw
  have hclose := Yard.push_closeParen (Yard.not_isBarrier_of_tight ht) (emitted ++ out) waiting
  refine ⟨post, [], by simp [Tight], by simp, ?_⟩
  rw [List.cons_append, Yard.foldlM_push_cons rfl, Yard.foldlM_push_append hrun,
    Yard.foldlM_push_cons hclose, appendList_assoc, hpost]
  rfl

end Reorders

theorem Derives.reorders {level : Level} {ts : List Token} {e : Expr} (h : Derives level ts e) :
    Reorders level.strength (markConcat ts) e.postorder := by
  induction h with
  | literal c => exact .literal c
  | group h ih =>
    rw [markConcat_group]
    exact ih.group
  | star h ih | optional h ih | plus h ih =>
    rw [markConcat_last rfl]
    exact ih.operator rfl
  | factor h ih | term h ih => exact ih.mono (by decide)
  | concat ht hu iht ihu =>
    rw [markConcat_between rfl rfl]
    exact .binary rfl iht ihu
  | juxtaposed ht hu iht ihu =>
    rw [ht.markConcat_juxtaposed hu]
    exact .binary rfl iht ihu
  | union ht hu iht ihu =>
    rw [markConcat_between rfl rfl]
    exact .binary rfl iht ihu

theorem Reorders.toPostorder_eq_ok {ts post : List Token} (h : Reorders 0 ts post) :
    toPostorder ts = .ok post := by
  have hw : Held 0 [] := by simp [Held]
  obtain ⟨out, pending, ht, hpost, hrun⟩ := h #[] [] hw
  have hfin := Yard.finish_of_tight ht ((#[] : Array Token) ++ out)
  have hlist : ((#[] : Array Token) ++ out ++ pending).toList = post := by simp [hpost]
  rw [List.append_nil] at hrun
  rw [toPostorder_of_foldlM hrun, hfin, hlist]

theorem toPostorder_markConcat_of_derives {ts : List Token} {e : Expr}
    (h : Derives .expr ts e) : toPostorder (markConcat ts) = .ok e.postorder :=
  h.reorders.toPostorder_eq_ok

theorem toPostorder_markConcat_grouped :
    toPostorder (markConcat [.openParen, .literal 'a', .union, .literal 'b', .concat, .literal 'c',
        .closeParen, .star, .plus, .literal 'd', .optional]) =
      .ok [.literal 'a', .literal 'b', .literal 'c', .concat, .union, .star, .plus, .literal 'd',
        .optional, .concat] := by
  have hbc := Derives.concat (.factor (.literal 'b')) (.literal 'c')
  have halt := Derives.union (.term (.factor (.literal 'a'))) hbc
  have hall := Derives.juxtaposed (.factor halt.group.star.plus) (Derives.literal 'd').optional
  exact toPostorder_markConcat_of_derives hall.term

end PatternAutomata
