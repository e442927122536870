import PatternAutomata.Proofs.Layout

/-!
# When two automata are the same

How a chain of concatenations is grouped leaves no trace in an automaton, and everything else does.
One direction is an induction on regrouping. For the other the tree is read back from the states,
from the last one to the first. The state before an exit tells the last factor of a chain and where
its operands are entered, and a chain begins where its entry belongs to a factor. Nothing else is
known about the states in front, so these are a list of their own in the statements.
-/

namespace PatternAutomata

namespace State

theorem reading_inj {c d : Char} {t u : StateId} (h : reading c t = reading d u) : c = d := by
  have hnext : (reading d u).next? c = some t := h ▸ next?_reading.2 ⟨rfl, rfl⟩
  exact (next?_reading.1 hnext).1.symm

theorem passing_inj {ts us : List StateId} (h : passing ts = passing us) : ts = us :=
  congrArg State.epsilon h

theorem reading_ne_passing {c : Char} {t u : StateId} {us : List StateId} :
    reading c t ≠ passing (u :: us) := fun h =>
  List.cons_ne_nil u us (congrArg State.epsilon h).symm

theorem append_passing_inj {front front' : List State} {ts us : List StateId}
    (h : front ++ [passing ts] = front' ++ [passing us]) : front = front' ∧ ts = us := by
  obtain ⟨hfront, hlast⟩ := List.append_inj' h rfl
  exact ⟨hfront, passing_inj (List.singleton_inj.1 hlast)⟩

theorem append_reading_ne {front front' : List State} {c : Char} {t u : StateId}
    {us : List StateId} : front ++ [reading c t] ≠ front' ++ [passing (u :: us)] := fun h =>
  reading_ne_passing (List.singleton_inj.1 (List.append_inj' h rfl).2)

end State

namespace Expr

namespace Regroups

variable {e f : Expr}

theorem layout_eq (h : Regroups e f) (base : Nat) :
    e.exit base = f.exit base ∧ e.entry base = f.entry base ∧ e.body base = f.body base := by
  induction h generalizing base with
  | refl e => exact ⟨rfl, rfl, rfl⟩
  | symm _ ih =>
    obtain ⟨hx, hn, hb⟩ := ih base
    exact ⟨hx.symm, hn.symm, hb.symm⟩
  | trans _ _ ih₁ ih₂ =>
    obtain ⟨hx₁, hn₁, hb₁⟩ := ih₁ base
    obtain ⟨hx₂, hn₂, hb₂⟩ := ih₂ base
    exact ⟨hx₁.trans hx₂, hn₁.trans hn₂, hb₁.trans hb₂⟩
  | assoc e f g => simp [exit, entry, body]
  | concat _ _ ih₁ ih₂ | union _ _ ih₁ ih₂ => simp [exit, entry, body, ih₁, ih₂]
  | star _ ih | optional _ ih | plus _ ih => simp [exit, entry, body, ih]

theorem entry_eq (h : Regroups e f) (base : Nat) : e.entry base = f.entry base :=
  (h.layout_eq base).2.1

theorem body_eq (h : Regroups e f) (base : Nat) : e.body base = f.body base :=
  (h.layout_eq base).2.2

theorem constructible_eq (h : Regroups e f) : e.constructible = f.constructible := by
  induction h with
  | refl e => rfl
  | symm _ ih => exact ih.symm
  | trans _ _ ih₁ ih₂ => exact ih₁.trans ih₂
  | assoc e f g => simp [constructible, Bool.and_assoc]
  | concat _ _ ih₁ ih₂ | union _ _ ih₁ ih₂ => simp [constructible, ih₁, ih₂]
  | star _ ih => exact ih
  | optional | plus => rfl

theorem length_eq (h : Regroups e f) : e.postorder.length = f.postorder.length := by
  induction h with
  | refl e => rfl
  | symm _ ih => exact ih.symm
  | trans _ _ ih₁ ih₂ => exact ih₁.trans ih₂
  | assoc e f g =>
    simp only [postorder, List.length_append, List.length_singleton]
    omega
  | concat _ _ ih₁ ih₂ | union _ _ ih₁ ih₂ => simp [postorder, ih₁, ih₂]
  | star _ ih | optional _ ih | plus _ ih => simp [postorder, ih]

end Regroups

def isFactor : Expr → Bool
  | .concat _ _ => false
  | _ => true

theorem exists_last_factor (e : Expr) :
    e.isFactor = true ∨
      ∃ front last, last.isFactor = true ∧ Regroups e (.concat front last) := by
  induction e with
  | concat e f _ ihf =>
    right
    rcases ihf with hf | ⟨front, last, hlast, hf⟩
    · exact ⟨e, f, hf, .refl _⟩
    · have hgrouped := Regroups.trans (.concat (.refl e) hf) (.symm (.assoc e front last))
      exact ⟨.concat e front, last, hlast, hgrouped⟩
  | literal | union | star | optional | plus => exact Or.inl rfl

def upTo (before : List State) (e : Expr) (targets : List StateId) : List State :=
  before ++ e.body before.length ++ [.passing targets]

variable {before before' : List State} {e f : Expr} {targets targets' : List StateId}

theorem length_append_body (before : List State) (e : Expr) :
    (before ++ e.body before.length).length = e.exit before.length := by
  rw [List.length_append, base_add_length_body]

theorem length_upTo : (upTo before e targets).length = e.exit before.length + 1 := by
  rw [upTo, List.length_append, length_append_body, List.length_singleton]

theorem upTo_inj (h : upTo before e targets = upTo before' f targets') :
    before ++ e.body before.length = before' ++ f.body before'.length ∧ targets = targets' :=
  State.append_passing_inj h

theorem append_body_concat (before : List State) (e f : Expr) :
    before ++ (concat e f).body before.length =
      let front := upTo before e [f.entry (e.exit before.length + 1)]
      front ++ f.body front.length := by
  simp only [length_upTo]
  simp [upTo, body]

theorem append_body_union (before : List State) (e f : Expr) :
    before ++ (union e f).body before.length =
      let next := e.exit before.length + 1
      let exit := f.exit next + 2
      upTo (upTo before e [exit]) f [exit] ++
        [.passing [e.entry before.length, f.entry next]] := by
  have hnext : e.exit before.length + 1 = before.length + ((e.body before.length).length + 1) := by
    rw [← base_add_length_body e, Nat.add_assoc]
  simp [upTo, body, ← hnext]

theorem append_body_star (before : List State) (e : Expr) :
    before ++ (star e).body before.length =
      let targets := [e.exit before.length + 2, e.entry before.length]
      upTo before e targets ++ [.passing targets] := by
  simp [upTo, body]

/-- The states of `e` and of any other expression that end in the same list, entered at the same
state, are those of the same chain. -/
def Determined (e : Expr) : Prop :=
  ∀ (f : Expr) (before before' : List State), f.constructible = true →
    before ++ e.body before.length = before' ++ f.body before'.length →
    e.entry before.length = f.entry before'.length → Regroups e f ∧ before = before'

/-- A factor needs no entry to be told: its last states say it. -/
def Recognizable (a : Expr) : Prop :=
  ∀ (b : Expr) (before before' : List State), b.constructible = true →
    b.isFactor = true →
    before ++ a.body before.length = before' ++ b.body before'.length →
    Regroups a b ∧ before = before'

theorem recognizable_literal (c : Char) : Recognizable (.literal c) := by
  intro b before before' hb hfactor h
  cases b with
  | literal d =>
    obtain ⟨hbefore, hlast⟩ := List.append_inj' h rfl
    obtain rfl := State.reading_inj (List.singleton_inj.1 hlast)
    exact ⟨.refl _, hbefore⟩
  | concat => cases hfactor
  | union e f =>
    rw [append_body_union] at h
    exact absurd h State.append_reading_ne
  | star e =>
    rw [append_body_star] at h
    exact absurd h State.append_reading_ne
  | optional | plus => cases hb

/-- A star passes on to its exit first, a union to states in front of it. -/
theorem not_star_and_union {e f g : Expr}
    (h : before ++ (star e).body before.length = before' ++ (union f g).body before'.length) :
    False := by
  have hlen := congrArg List.length h
  rw [length_append_body, length_append_body] at hlen
  rw [append_body_star, append_body_union] at h
  obtain ⟨-, htargets⟩ := State.append_passing_inj h
  simp only [List.cons.injEq, and_true] at htargets
  have hf := f.entry_bounds before'.length
  have hg := g.entry_bounds (f.exit before'.length + 1)
  simp only [exit] at hlen
  omega

theorem recognizable_star (he : Determined e) : Recognizable (.star e) := by
  intro b before before' hb hfactor h
  cases b with
  | literal d =>
    rw [append_body_star] at h
    exact absurd h.symm State.append_reading_ne
  | concat => cases hfactor
  | union f g => exact (not_star_and_union h).elim
  | star f =>
    rw [append_body_star, append_body_star] at h
    obtain ⟨hfront, -⟩ := State.append_passing_inj h
    obtain ⟨hbody, htargets⟩ := upTo_inj hfront
    simp only [List.cons.injEq, and_true] at htargets
    obtain ⟨hreg, hbefore⟩ := he f before before' hb hbody htargets.2
    exact ⟨.star hreg, hbefore⟩
  | optional | plus => cases hb

theorem recognizable_union (he : Determined e) (hf : Determined f) :
    Recognizable (.union e f) := by
  intro b before before' hb hfactor h
  cases b with
  | literal d =>
    rw [append_body_union] at h
    exact absurd h.symm State.append_reading_ne
  | concat => cases hfactor
  | star g => exact (not_star_and_union h.symm).elim
  | union e' f' =>
    simp only [constructible, Bool.and_eq_true] at hb
    rw [append_body_union, append_body_union] at h
    obtain ⟨hfront, htargets⟩ := State.append_passing_inj h
    obtain ⟨hbody, -⟩ := upTo_inj hfront
    simp only [List.cons.injEq, and_true] at htargets
    -- the second operand is read back first, which tells where the first one ends
    obtain ⟨hregf, hfront⟩ := hf f' _ _ hb.2 hbody (by simpa only [length_upTo] using htargets.2)
    obtain ⟨hbody, -⟩ := upTo_inj hfront
    obtain ⟨hrege, hbefore⟩ := he e' before before' hb.1 hbody htargets.1
    exact ⟨.union hrege hregf, hbefore⟩
  | optional | plus => cases hb

theorem recognizable_of_isFactor {a : Expr} (ha : a.constructible = true)
    (hfactor : a.isFactor = true)
    (ih : ∀ e : Expr, e.postorder.length < a.postorder.length → e.constructible = true →
      Determined e) :
    Recognizable a := by
  cases a with
  | literal c => exact recognizable_literal c
  | concat => cases hfactor
  | union e f =>
    simp only [constructible, Bool.and_eq_true] at ha
    simp only [postorder, List.length_append, List.length_singleton] at ih
    exact recognizable_union (ih e (by omega) ha.1) (ih f (by omega) ha.2)
  | star e =>
    simp only [postorder, List.length_append, List.length_singleton] at ih
    exact recognizable_star (ih e (by omega) ha)
  | optional | plus => cases ha

theorem entry_ne_of_chain {a b front : Expr} (hbefore : before = upTo before' front targets) :
    a.entry before.length ≠ (concat front b).entry before'.length := by
  have ha := a.entry_bounds before.length
  have hfront := front.entry_bounds before'.length
  have hlen : before.length = front.exit before'.length + 1 := by rw [hbefore, length_upTo]
  simp only [entry]
  omega

theorem determined (he : e.constructible = true) : Determined e := by
  -- regrouping keeps the length of the postorder, and the front of a chain is shorter
  induction hn : e.postorder.length using Nat.strong_induction_on generalizing e with
  | h n ih =>
    intro f before before' hf hbody hentry
    have hrec : ∀ a : Expr, a.isFactor = true → a.constructible = true →
        a.postorder.length ≤ n → Recognizable a := fun a hfactor ha hle =>
      recognizable_of_isFactor ha hfactor fun e' hlt he' => ih _ (hlt.trans_le hle) he' rfl
    rcases e.exists_last_factor with hfactor | ⟨front, a, ha, hchain⟩
    · rcases f.exists_last_factor with hfactor' | ⟨front', b, hb, hchain'⟩
      · exact hrec e hfactor he hn.le f before before' hf hfactor' hbody
      · rw [hchain'.constructible_eq, constructible, Bool.and_eq_true] at hf
        rw [hchain'.body_eq, append_body_concat] at hbody
        rw [hchain'.entry_eq] at hentry
        obtain ⟨-, hbefore⟩ := hrec e hfactor he hn.le b _ _ hf.2 hb hbody
        exact absurd hentry (entry_ne_of_chain hbefore)
    · have hlen := hchain.length_eq
      simp only [postorder, List.length_append, List.length_singleton] at hlen
      rw [hchain.constructible_eq, constructible, Bool.and_eq_true] at he
      rw [hchain.body_eq, append_body_concat] at hbody
      rw [hchain.entry_eq] at hentry
      have hreca := hrec a ha he.2 (by omega)
      rcases f.exists_last_factor with hfactor' | ⟨front', b, hb, hchain'⟩
      · obtain ⟨-, hbefore⟩ := hreca f _ _ hf hfactor' hbody
        exact absurd hentry.symm (entry_ne_of_chain hbefore.symm)
      · rw [hchain'.constructible_eq, constructible, Bool.and_eq_true] at hf
        rw [hchain'.body_eq, append_body_concat] at hbody
        rw [hchain'.entry_eq] at hentry
        obtain ⟨hreg, hfront⟩ := hreca b _ _ hf.2 hb hbody
        obtain ⟨hbody, -⟩ := upTo_inj hfront
        obtain ⟨hreg', hbefore⟩ :=
          ih front.postorder.length (by omega) he.1 rfl front' _ _ hf.1 hbody hentry
        exact ⟨.trans hchain (.trans (.concat hreg' hreg) hchain'.symm), hbefore⟩

theorem automaton_eq_iff (he : e.constructible = true) (hf : f.constructible = true) :
    e.automaton = f.automaton ↔ Regroups e f := by
  constructor
  · intro h
    have hentry : e.entry 0 = f.entry 0 := congrArg Automaton.start h
    have hblock : e.block 0 = f.block 0 := List.toArray_inj (congrArg Automaton.states h)
    have hbody : e.body 0 = f.body 0 := List.append_cancel_right hblock
    exact (determined he f [] [] hf hbody hentry).1
  · intro h
    rw [automaton, automaton, block, block, h.body_eq, h.entry_eq]

theorem exists_head_body (he : e.constructible = true) (base : Nat) :
    ∃ c t, (e.body base).head? = some (.reading c t) := by
  induction e generalizing base with
  | literal c => exact ⟨c, base + 1, rfl⟩
  | concat e f ihe _ =>
    simp only [constructible, Bool.and_eq_true] at he
    obtain ⟨c, t, h⟩ := ihe he.1 base
    exact ⟨c, t, by simp [body, h]⟩
  | union e f ihe _ =>
    simp only [constructible, Bool.and_eq_true] at he
    obtain ⟨c, t, h⟩ := ihe he.1 base
    exact ⟨c, t, by simp [body, h]⟩
  | star e ih =>
    obtain ⟨c, t, h⟩ := ih he base
    exact ⟨c, t, by simp [body, h]⟩
  | optional e | plus e => cases he

theorem automaton_ne_emptyWord (he : e.constructible = true) :
    e.automaton ≠ Automaton.emptyWord := by
  intro h
  obtain ⟨c, t, hhead⟩ := exists_head_body he 0
  have hblock : e.block 0 = [.passing [1], .new true] :=
    List.toArray_inj (congrArg Automaton.states h)
  have hhead' : (e.block 0).head? = some (.reading c t) := by simp [block, hhead]
  rw [hblock] at hhead'
  exact State.reading_ne_passing (Option.some.inj hhead').symm

def IsTreeOf (e : Expr) (ts : List Token) : Prop := e.constructible = true ∧ e.postorder = ts

theorem IsTreeOf.unique {ts : List Token} (he : e.IsTreeOf ts) (hf : f.IsTreeOf ts) : e = f :=
  postorder_injective he.1 hf.1 (he.2.trans hf.2.symm)

theorem not_isTreeOf_nil : ¬ e.IsTreeOf [] := fun h => e.postorder_ne_nil h.2

end Expr

namespace Automaton

theorem exists_isTreeOf {ts : List Token} (hne : ts ≠ []) {m : Automaton}
    (h : ofPostorder ts = .ok m) : ∃ e : Expr, e.IsTreeOf ts ∧ m = e.automaton := by
  obtain ⟨e, he, hts, hm⟩ := exists_expr_of_ofPostorder hne h
  exact ⟨e, ⟨he, hts⟩, hm⟩

theorem eq_nil_iff_of_ofPostorder {ts : List Token} {m : Automaton}
    (h : ofPostorder ts = .ok m) : ts = [] ↔ m = emptyWord := by
  constructor
  · intro hnil
    rw [hnil, ofPostorder_nil] at h
    exact (Except.ok.inj h).symm
  · intro hm
    by_contra hne
    obtain ⟨e, he, rfl⟩ := exists_isTreeOf hne h
    exact Expr.automaton_ne_emptyWord he.1 hm

/-- What can be built has exactly one tree, and two trees are built to the same automaton when they
regroup each other, and only then. -/
theorem eq_iff_regroups_of_ofPostorder :
    (∀ ts m, ts ≠ [] → ofPostorder ts = .ok m → ∃! e : Expr, e.IsTreeOf ts) ∧
      ∀ ts ts' m m', ofPostorder ts = .ok m → ofPostorder ts' = .ok m' →
        (m = m' ↔ (ts = [] ∧ ts' = []) ∨
          ∃ e e' : Expr, e.IsTreeOf ts ∧ e'.IsTreeOf ts' ∧ Expr.Regroups e e') := by
  refine ⟨fun ts m hne h => ?_, fun ts ts' m m' h h' => ?_⟩
  · obtain ⟨e, he, -⟩ := exists_isTreeOf hne h
    exact ⟨e, he, fun f hf => hf.unique he⟩
  · rcases eq_or_ne ts [] with rfl | hne
    · obtain rfl := Except.ok.inj (ofPostorder_nil.symm.trans h)
      rw [eq_comm, ← eq_nil_iff_of_ofPostorder h']
      simp [Expr.not_isTreeOf_nil]
    · obtain ⟨e, he, rfl⟩ := exists_isTreeOf hne h
      rcases eq_or_ne ts' [] with rfl | hne'
      · obtain rfl := Except.ok.inj (ofPostorder_nil.symm.trans h')
        rw [← eq_nil_iff_of_ofPostorder h]
        simp [hne, Expr.not_isTreeOf_nil]
      · obtain ⟨e', he', rfl⟩ := exists_isTreeOf hne' h'
        rw [Expr.automaton_eq_iff he.1 he'.1]
        constructor
        · intro hreg
          exact Or.inr ⟨e, e', he, he', hreg⟩
        · intro hcases
          rcases hcases with ⟨hnil, -⟩ | ⟨f, f', hf, hf', hreg⟩
          · exact absurd hnil hne
          · rwa [he.unique hf, he'.unique hf']

theorem ofPostorder_grouped_either_way :
    ∃ m, ofPostorder [.literal 'a', .literal 'b', .concat, .literal 'c', .concat, .star] = .ok m ∧
      ofPostorder [.literal 'a', .literal 'b', .literal 'c', .concat, .concat, .star] = .ok m := by
  have hm := ofPostorder_postorder (e := .star (.concat (.concat (.literal 'a') (.literal 'b'))
    (.literal 'c'))) rfl
  have hm' := ofPostorder_postorder (e := .star (.concat (.literal 'a') (.concat (.literal 'b')
    (.literal 'c')))) rfl
  have heq := (eq_iff_regroups_of_ofPostorder.2 _ _ _ _ hm hm').2
    (Or.inr ⟨_, _, ⟨rfl, rfl⟩, ⟨rfl, rfl⟩, .star (.assoc _ _ _)⟩)
  exact ⟨_, hm, heq ▸ hm'⟩

end Automaton

end PatternAutomata
