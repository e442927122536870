import PatternAutomata.Proofs.Building

/-!
# Matching and textbook acceptance

A run forgets the states that have epsilon edges. On an automaton whose edges lead to existing
states this only ever loses words, and where such states neither accept nor read it loses none.
Automata built from tokens are of the latter kind, because a rule clears the flag of an exit when it
continues from it, and an exit never reads.
-/

namespace PatternAutomata.Automaton

variable {m : Automaton}

theorem Recognizes.closed {L : Language Char} (h : m.Recognizes L) : m.Closed := by
  obtain ⟨p, hm, hstart, -⟩ := h
  have hr := hm.realizes p (by simp)
  exact hm.closed (hstart ▸ hr.lt_size hr.wired.entry_mem)

theorem Recognizes.separated {L : Language Char} (h : m.Recognizes L) : m.Separated := by
  obtain ⟨p, hm, -, -⟩ := h
  exact hm.separated

theorem Closed.accepts_of_isMatch (hm : m.Closed) (input : String) :
    ∃ b, m.isMatch input = .ok b ∧ (b = true → m.Accepts input.toList) := by
  obtain ⟨b, hb, hiff⟩ := hm.isMatch_eq_ok input
  refine ⟨b, hb, fun htrue => ?_⟩
  obtain ⟨q, -, hpath, hacc⟩ := hiff.1 htrue
  exact ⟨q, hpath.mono fun _ _ => trivial, hacc⟩

/-- Matching implies acceptance; it is the same where states with epsilon edges neither accept nor
read, and so on every automaton that is built from tokens. -/
theorem isMatch_agrees_with_accepts :
    (∀ m : Automaton, m.Closed → ∀ input, ∃ b, m.isMatch input = .ok b ∧
      (b = true → m.Accepts input.toList) ∧
      (m.Separated → (b = true ↔ m.Accepts input.toList))) ∧
    ∀ ts m, ofPostorder ts = .ok m → m.Closed ∧ m.Separated ∧ ∀ input,
      ∃ b, m.isMatch input = .ok b ∧ (b = true ↔ m.Accepts input.toList) := by
  constructor
  · intro m hm input
    obtain ⟨b, hb, himp⟩ := hm.accepts_of_isMatch input
    refine ⟨b, hb, himp, fun hs => ?_⟩
    obtain ⟨b', hb', hiff⟩ := hs.isMatch_eq_ok hm input
    rw [hb] at hb'
    rwa [Except.ok.inj hb']
  · intro ts m h
    obtain ⟨L, -, hrec⟩ := exists_recognizes_of_ofPostorder h
    exact ⟨hrec.closed, hrec.separated, hrec.separated.isMatch_eq_ok hrec.closed⟩

theorem isMatch_agrees_with_accepts_looped :
    ∃ m, ofPostorder [.literal 'a', .literal 'b', .union, .star] = .ok m ∧ m.Closed ∧ m.Separated ∧
      ∀ input, ∃ b, m.isMatch input = .ok b ∧ (b = true ↔ m.Accepts input.toList) := by
  have hL : Denotation.ofPostorder? [.literal 'a', .literal 'b', .union, .star] =
      some (KStar.kstar ({['a']} + {['b']})) := rfl
  obtain ⟨m, hm, -⟩ := ofPostorder_eq_ok hL
  obtain ⟨hclosed, hseparated, -⟩ := isMatch_agrees_with_accepts.2 _ m hm
  refine ⟨m, hm, hclosed, hseparated, fun input => ?_⟩
  obtain ⟨b, hb, -, hiff⟩ := isMatch_agrees_with_accepts.1 m hclosed input
  exact ⟨b, hb, hiff hseparated⟩

end PatternAutomata.Automaton
