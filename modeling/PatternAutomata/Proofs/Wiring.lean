import Mathlib.Computability.Language
import Mathlib.Order.CompletePartialOrder
import PatternAutomata.Automaton.Fragment
import PatternAutomata.Proofs.Settling

/-!
# How a fragment is wired

`Wired m L f S` says that the states in `S` make up a fragment for the language `L` inside `m`: who
leads where is told rule by rule. Nothing is said about the exit, which a later rule may extend, nor
about states outside `S`, so whatever happens there leaves the fragment wired as it was. Every word
of `L` is spelled by a path from the entry to the exit.
-/

namespace PatternAutomata

namespace State

def passing (targets : List StateId) : State := ⟨false, ∅, targets⟩

def reading (c : Char) (target : StateId) : State :=
  ⟨false, (∅ : Std.ExtTreeMap Char StateId).insert c target, []⟩

theorem next?_reading {c d : Char} {t u : StateId} :
    (reading c t).next? d = some u ↔ c = d ∧ t = u := by
  simp [reading, next?, Std.ExtTreeMap.getElem?_insert]

/-- Neither accepts nor leaves `S`, and does not both read and pass on. -/
structure IsInner (s : State) (S : Set StateId) : Prop where
  not_accepting : s.accepting = false
  edges_eq : s.epsilon ≠ [] → s.edges = ∅
  target_mem : ∀ t ∈ s.targets, t ∈ S

theorem IsInner.mono {s : State} {S T : Set StateId} (h : s.IsInner S) (hST : S ⊆ T) :
    s.IsInner T :=
  ⟨h.not_accepting, h.edges_eq, fun t ht => hST (h.target_mem t ht)⟩

theorem isInner_passing {targets : List StateId} {S : Set StateId} (h : ∀ t ∈ targets, t ∈ S) :
    (passing targets).IsInner S := by
  refine ⟨rfl, fun _ => rfl, fun t ht => ?_⟩
  rcases mem_targets.1 ht with ⟨c, hc⟩ | ht
  · simp [passing, next?] at hc
  · exact h t ht

theorem isInner_reading {c : Char} {target : StateId} {S : Set StateId} (h : target ∈ S) :
    (reading c target).IsInner S := by
  refine ⟨rfl, fun he => absurd rfl he, fun t ht => ?_⟩
  rcases mem_targets.1 ht with ⟨d, hd⟩ | ht
  · exact (next?_reading.1 hd).2 ▸ h
  · simp [reading] at ht

end State

namespace Automaton

namespace Path

variable {m : Automaton} {consumes : StateId → Prop}

theorem passing {p q t : StateId} {targets : List StateId} {word : List Char}
    (hs : m.states[p]? = some (.passing targets)) (ht : t ∈ targets)
    (h : m.Path consumes t word q) : m.Path consumes p word q := by
  refine .epsilon ?_ h
  rw [epsilonTargets_of_some hs]
  exact ht

theorem onward {p q t : StateId} {targets : List StateId} {word : List Char}
    (h : m.Path consumes p word q) (hs : m.states[q]? = some (.passing targets))
    (ht : t ∈ targets) : m.Path consumes p word t := by
  have hpath := h.append (.passing hs ht (.nil t))
  rwa [List.append_nil] at hpath

/-- Both ends of the inner fragment offer the same choice: to leave, or to read one more word. -/
theorem rounds {p q entry exit : StateId} {words : List (List Char)}
    (h : ∀ u ∈ words, m.Path consumes entry u exit)
    (hexit : m.states[exit]? = some (.passing [q, entry]))
    (hp : m.states[p]? = some (.passing [q, entry])) : m.Path consumes p words.flatten q := by
  induction words generalizing p with
  | nil => exact .passing hp (by simp) (.nil q)
  | cons u words ih =>
    have hrest := ih (fun v hv => h v (by simp [hv])) hexit
    rw [List.flatten_cons]
    exact .passing hp (by simp) ((h u (by simp)).append hrest)

end Path

inductive Wired (m : Automaton) : Language Char → Fragment → Set StateId → Prop
  | epsilon {entry exit : StateId} :
      entry ≠ exit → m.states[entry]? = some (.passing [exit]) →
      Wired m 1 ⟨entry, exit⟩ {entry, exit}
  | symbol {entry exit : StateId} {c : Char} :
      entry ≠ exit → m.states[entry]? = some (.reading c exit) →
      Wired m {[c]} ⟨entry, exit⟩ {entry, exit}
  | concat {L M : Language Char} {f g : Fragment} {A B : Set StateId} :
      Wired m L f A → Wired m M g B → Disjoint A B →
      m.states[f.exit]? = some (.passing [g.entry]) →
      Wired m (L * M) ⟨f.entry, g.exit⟩ (A ∪ B)
  | union {L M : Language Char} {f g : Fragment} {A B : Set StateId} {entry exit : StateId} :
      Wired m L f A → Wired m M g B → Disjoint A B →
      entry ≠ exit → entry ∉ A ∪ B → exit ∉ A ∪ B →
      m.states[entry]? = some (.passing [f.entry, g.entry]) →
      m.states[f.exit]? = some (.passing [exit]) → m.states[g.exit]? = some (.passing [exit]) →
      Wired m (L + M) ⟨entry, exit⟩ ({entry, exit} ∪ (A ∪ B))
  | closure {L : Language Char} {f : Fragment} {A : Set StateId} {entry exit : StateId} :
      Wired m L f A → entry ≠ exit → entry ∉ A → exit ∉ A →
      m.states[entry]? = some (.passing [exit, f.entry]) →
      m.states[f.exit]? = some (.passing [exit, f.entry]) →
      Wired m (KStar.kstar L) ⟨entry, exit⟩ ({entry, exit} ∪ A)

namespace Wired

variable {m m' : Automaton} {L : Language Char} {f : Fragment} {S : Set StateId}

theorem entry_mem (h : m.Wired L f S) : f.entry ∈ S := by
  induction h with
  | epsilon | symbol => simp
  | concat _ _ _ _ ihf _ => exact Or.inl ihf
  | union | closure => simp

theorem exit_mem (h : m.Wired L f S) : f.exit ∈ S := by
  induction h with
  | epsilon | symbol => simp
  | concat _ _ _ _ _ ihg => exact Or.inr ihg
  | union | closure => simp

theorem frame (h : m.Wired L f S)
    (hm : ∀ i ∈ S, i ≠ f.exit → m'.states[i]? = m.states[i]?) : m'.Wired L f S := by
  induction h with
  | epsilon hne he => exact .epsilon hne ((hm _ (by simp) hne).trans he)
  | symbol hne he => exact .symbol hne ((hm _ (by simp) hne).trans he)
  | concat hf hg hd hx ihf ihg =>
    refine .concat (ihf fun i hi _ => hm i (Or.inl hi) ?_) (ihg fun i hi => hm i (Or.inr hi)) hd ?_
    · exact hd.ne_of_mem hi hg.exit_mem
    · exact (hm _ (Or.inl hf.exit_mem) (hd.ne_of_mem hf.exit_mem hg.exit_mem)).trans hx
  | union hf hg hd hne hen hex he hfx hgx ihf ihg =>
    have hin : ∀ i ∈ _ ∪ _, m'.states[i]? = m.states[i]? := fun i hi =>
      hm i (Or.inr hi) (ne_of_mem_of_not_mem hi hex)
    exact .union (ihf fun i hi _ => hin i (Or.inl hi)) (ihg fun i hi _ => hin i (Or.inr hi)) hd
      hne hen hex ((hm _ (by simp) hne).trans he)
      ((hin _ (Or.inl hf.exit_mem)).trans hfx) ((hin _ (Or.inr hg.exit_mem)).trans hgx)
  | closure hf hne hen hex he hfx ihf =>
    have hin : ∀ i ∈ _, m'.states[i]? = m.states[i]? := fun i hi =>
      hm i (Or.inr hi) (ne_of_mem_of_not_mem hi hex)
    exact .closure (ihf fun i hi _ => hin i hi) hne hen hex ((hm _ (by simp) hne).trans he)
      ((hin _ hf.exit_mem).trans hfx)

/-- A state of an operand is an inner state of the whole: its exit passes on to `targets` now, and
the others were inner states of the operand. -/
theorem exists_inner_of_operand {A : Set StateId} {i exit : StateId} {targets : List StateId}
    (hx : m.states[exit]? = some (.passing targets)) (ht : ∀ t ∈ targets, t ∈ S) (hA : A ⊆ S)
    (hi : i ≠ exit → ∃ s, m.states[i]? = some s ∧ s.IsInner A) :
    ∃ s, m.states[i]? = some s ∧ s.IsInner S := by
  by_cases hix : i = exit
  · subst hix
    exact ⟨_, hx, State.isInner_passing ht⟩
  · obtain ⟨s, hs, hin⟩ := hi hix
    exact ⟨s, hs, hin.mono hA⟩

theorem exists_inner (h : m.Wired L f S) {i : StateId} (hi : i ∈ S) (hne : i ≠ f.exit) :
    ∃ s, m.states[i]? = some s ∧ s.IsInner S := by
  induction h with
  | epsilon _ he =>
    rcases hi with rfl | rfl
    · exact ⟨_, he, State.isInner_passing (by simp)⟩
    · exact absurd rfl hne
  | symbol _ he =>
    rcases hi with rfl | rfl
    · exact ⟨_, he, State.isInner_reading (by simp)⟩
    · exact absurd rfl hne
  | concat hf hg hd hx ihf ihg =>
    rcases hi with hi | hi
    · exact exists_inner_of_operand hx (by simp [hg.entry_mem]) Set.subset_union_left (ihf hi)
    · obtain ⟨s, hs, hin⟩ := ihg hi hne
      exact ⟨s, hs, hin.mono Set.subset_union_right⟩
  | union hf hg hd _ _ _ he hfx hgx ihf ihg =>
    rcases hi with (rfl | rfl) | hi | hi
    · exact ⟨_, he, State.isInner_passing (by simp [hf.entry_mem, hg.entry_mem])⟩
    · exact absurd rfl hne
    · exact exists_inner_of_operand hfx (by simp)
        (Set.subset_union_left.trans Set.subset_union_right) (ihf hi)
    · exact exists_inner_of_operand hgx (by simp)
        (Set.subset_union_right.trans Set.subset_union_right) (ihg hi)
  | closure hf _ _ _ he hfx ihf =>
    rcases hi with (rfl | rfl) | hi
    · exact ⟨_, he, State.isInner_passing (by simp [hf.entry_mem])⟩
    · exact absurd rfl hne
    · exact exists_inner_of_operand hfx (by simp [hf.entry_mem]) Set.subset_union_right (ihf hi)

theorem epsilon_mem (h : m.Wired L f S) {i t : StateId} (hi : i ∈ S) (hne : i ≠ f.exit)
    (ht : t ∈ m.epsilonTargets i) : t ∈ S := by
  obtain ⟨s, hs, hin⟩ := h.exists_inner hi hne
  rw [epsilonTargets_of_some hs] at ht
  exact hin.target_mem t (State.mem_targets.2 (Or.inr ht))

theorem next_mem (h : m.Wired L f S) {i t : StateId} {c : Char} (hi : i ∈ S) (hne : i ≠ f.exit)
    (ht : m.next? i c = some t) : t ∈ S := by
  obtain ⟨s, hs, hin⟩ := h.exists_inner hi hne
  rw [next?_of_some hs] at ht
  exact hin.target_mem t (State.mem_targets.2 (Or.inl ⟨c, ht⟩))

theorem path_of_mem (h : m.Wired L f S) {word : List Char} (hw : word ∈ L) :
    m.Path (fun _ => True) f.entry word f.exit := by
  induction h generalizing word with
  | epsilon _ he =>
    rw [Language.mem_one] at hw
    subst hw
    exact .passing he (by simp) (.nil _)
  | @symbol _ _ c _ he =>
    have hword : word = [c] := hw
    subst hword
    refine .edge trivial ?_ (.nil _)
    rw [next?_of_some he, State.next?_reading]
    exact ⟨rfl, rfl⟩
  | concat _ _ _ hx ihf ihg =>
    obtain ⟨u, hu, v, hv, rfl⟩ := Language.mem_mul.1 hw
    exact (ihf hu).append (.passing hx (by simp) (ihg hv))
  | union _ _ _ _ _ _ he hfx hgx ihf ihg =>
    rcases (Language.mem_add _ _ _).1 hw with hw | hw
    · exact .passing he (by simp) ((ihf hw).onward hfx (by simp))
    · exact .passing he (by simp) ((ihg hw).onward hgx (by simp))
  | closure _ _ _ _ he hfx ihf =>
    obtain ⟨words, rfl, hwords⟩ := Language.mem_kstar.1 hw
    exact .rounds (fun u hu => ihf (hwords u hu)) hfx he

end Wired

end Automaton

end PatternAutomata
