import PatternAutomata.Automaton.Simulation
import PatternAutomata.Proofs.Settling

/-!
# What a run computes

On an automaton whose start and edges name existing states no access fails. The live states after a
word are then the settled ends of the paths that spell it and consume at settled states only, and
the early exit of a run does not change its answer. Where states with epsilon edges neither accept
nor have other edges, every accepting path is of that kind, so a run decides acceptance.
-/

namespace PatternAutomata.Automaton

variable {m : Automaton}

theorem closed_iff :
    m.Closed ↔ m.start < m.size ∧ ∀ s ∈ m.states.toList, ∀ t ∈ s.targets, t < m.size := by
  constructor
  · intro hm
    refine ⟨hm.start_lt, fun s hs => ?_⟩
    obtain ⟨id, hid⟩ := Array.getElem?_of_mem (Array.mem_toList_iff.1 hs)
    exact hm.target_lt id s hid
  · intro h
    refine ⟨h.1, fun id s hs => ?_⟩
    exact h.2 s (Array.mem_toList_iff.2 (Array.mem_of_getElem? hs))

instance : Decidable m.Closed := decidable_of_iff' _ closed_iff

theorem AcceptingAt.lt_size {id : StateId} (h : m.AcceptingAt id) : id < m.size := by
  obtain ⟨s, hs, -⟩ := h
  exact (Array.getElem?_eq_some_iff.1 hs).1

theorem foldlM_step {ids : List StateId} (h : ∀ p ∈ ids, p < m.size) (c : Char)
    (found : StateSet) :
    ∃ all, ids.foldlM (fun (found : StateSet) id => do
        let s ← m.lookup id
        return (s.next? c).elim found found.insert) found = .ok all ∧
      ∀ q, q ∈ all ↔ q ∈ found ∨ ∃ p ∈ ids, m.next? p c = some q := by
  induction ids generalizing found with
  | nil => exact ⟨found, rfl, by simp⟩
  | cons p ids ih =>
    obtain ⟨s, hs⟩ := exists_state (h p (by simp))
    obtain ⟨all, hall, hmem⟩ :=
      ih (fun q hq => h q (by simp [hq])) ((s.next? c).elim found found.insert)
    refine ⟨all, ?_, fun q => ?_⟩
    · rw [List.foldlM_cons, lookup_eq_ok.2 hs]
      exact hall
    · rw [hmem]
      cases hn : s.next? c <;> simp [next?_of_some hs, hn, or_assoc, or_left_comm]

theorem step_eq_ok {ids : List StateId} (h : ∀ p ∈ ids, p < m.size) (c : Char) :
    ∃ found, m.step ids c = .ok found ∧ ∀ q, q ∈ found ↔ ∃ p ∈ ids, m.next? p c = some q := by
  obtain ⟨found, hf, hmem⟩ := foldlM_step h c ∅
  exact ⟨found, hf, fun q => by simp [hmem]⟩

theorem anyM_lookup {ids : List StateId} (h : ∀ p ∈ ids, p < m.size) :
    ∃ b, ids.anyM (fun id => State.accepting <$> m.lookup id) = .ok b ∧
      (b = true ↔ ∃ q ∈ ids, m.AcceptingAt q) := by
  induction ids with
  | nil => exact ⟨false, rfl, by simp⟩
  | cons p ids ih =>
    obtain ⟨s, hs⟩ := exists_state (h p (by simp))
    obtain ⟨b, hb, hacc⟩ := ih fun q hq => h q (by simp [hq])
    have hp : m.AcceptingAt p ↔ s.accepting = true := by simp [AcceptingAt, hs]
    have hl : State.accepting <$> m.lookup p = .ok s.accepting := by
      rw [lookup_eq_ok.2 hs]
      rfl
    rw [List.anyM_cons, hl]
    cases ha : s.accepting with
    | true => exact ⟨true, rfl, by simp [hp, ha]⟩
    | false => exact ⟨b, hb, by simp [hp, ha, hacc]⟩

theorem isAccepting_eq_ok {live : StateSet} (h : ∀ p ∈ live, p < m.size) :
    ∃ b, m.isAccepting live = .ok b ∧ (b = true ↔ ∃ q ∈ live, m.AcceptingAt q) := by
  have hlt : ∀ p ∈ live.toList, p < m.size := by simpa using h
  simpa [isAccepting] using anyM_lookup hlt

namespace Closed

theorem epsilon_lt (hm : m.Closed) {p t : StateId} (h : t ∈ m.epsilonTargets p) : t < m.size := by
  by_cases hp : p < m.size
  · obtain ⟨s, hs⟩ := exists_state hp
    rw [epsilonTargets_of_some hs] at h
    exact hm.target_lt p s hs t (State.mem_targets.2 (Or.inr h))
  · have hnone : m.states[p]? = none := Array.getElem?_eq_none_iff.2 (Nat.not_lt.1 hp)
    simp [epsilonTargets, hnone] at h

theorem next_lt (hm : m.Closed) {p t : StateId} {c : Char} (h : m.next? p c = some t) :
    t < m.size := by
  obtain ⟨s, hs, hn⟩ := Option.bind_eq_some_iff.1 h
  exact hm.target_lt p s hs t (State.mem_targets.2 (Or.inl ⟨c, hn⟩))

theorem reaches_lt (hm : m.Closed) {p q : StateId} (h : m.Reaches p q) (hp : p < m.size) :
    q < m.size := by
  cases h with
  | refl => exact hp
  | tail _ hq => exact hm.epsilon_lt hq

theorem settle_eq_ok (hm : m.Closed) {seeds : List StateId} (h : ∀ p ∈ seeds, p < m.size) :
    ∃ found, m.settle seeds = .ok found ∧
      ∀ q, q ∈ found ↔ m.IsSettled q ∧ m.ReachedFrom seeds q :=
  Automaton.settle_eq_ok fun _ ⟨p, hp, hq⟩ => hm.reaches_lt hq (h p hp)

theorem startStates_eq_ok (hm : m.Closed) :
    ∃ live, m.startStates = .ok live ∧
      ∀ q, q ∈ live ↔ m.IsSettled q ∧ m.Reaches m.start q := by
  have hlt : ∀ p ∈ [m.start], p < m.size := by simp [hm.start_lt]
  obtain ⟨live, hlive, hmem⟩ := hm.settle_eq_ok hlt
  exact ⟨live, hlive, by simpa [ReachedFrom] using hmem⟩

theorem advance_eq_ok (hm : m.Closed) {live : StateSet} (h : ∀ p ∈ live, p < m.size) (c : Char) :
    ∃ next, m.advance live c = .ok next ∧
      ∀ q, q ∈ next ↔
        m.IsSettled q ∧ ∃ p ∈ live, ∃ r, m.next? p c = some r ∧ m.Reaches r q := by
  have hlive : ∀ p ∈ live.toList, p < m.size := by simpa using h
  obtain ⟨targets, hstep, ht⟩ := step_eq_ok hlive c
  have hlt : ∀ r ∈ targets.toList, r < m.size := by
    intro r hr
    obtain ⟨p, -, hn⟩ := (ht r).1 (by simpa using hr)
    exact hm.next_lt hn
  obtain ⟨next, hsettle, hmem⟩ := hm.settle_eq_ok hlt
  refine ⟨next, ?_, fun q => ?_⟩
  · rw [advance, hstep]
    exact hsettle
  · rw [hmem, ReachedFrom]
    apply and_congr_right
    intro _
    constructor
    · intro h
      obtain ⟨r, hr, hq⟩ := h
      obtain ⟨p, hp, hn⟩ := (ht r).1 (by simpa using hr)
      exact ⟨p, by simpa using hp, r, hn, hq⟩
    · intro h
      obtain ⟨p, hp, r, hn, hq⟩ := h
      exact ⟨r, by simpa using (ht r).2 ⟨p, by simpa using hp, hn⟩, hq⟩

end Closed

namespace Path

variable {consumes : StateId → Prop}

theorem settles {p q : StateId} {word : List Char} (h : m.Path m.IsSettled p word q)
    (hq : m.IsSettled q) :
    ∃ t, m.IsSettled t ∧ m.Reaches p t ∧ m.Path m.IsSettled t word q := by
  induction h with
  | nil p => exact ⟨p, hq, .refl, .nil p⟩
  | epsilon he _ ih =>
    obtain ⟨t, ht, hreach, hpath⟩ := ih hq
    exact ⟨t, ht, .head he hreach, hpath⟩
  | edge hc hn htail ih => exact ⟨_, hc, .refl, .edge hc hn htail⟩

theorem of_reaches {p q r : StateId} {word : List Char} (h : m.Reaches p q)
    (hpath : m.Path consumes q word r) : m.Path consumes p word r :=
  (nil_iff_reaches.2 h).append hpath

theorem nil_iff_of_settled {p q : StateId} (hp : m.IsSettled p) :
    m.Path consumes p [] q ↔ p = q := by
  rw [nil_iff_reaches, reaches_iff, hp.epsilonTargets_eq]
  simp

theorem cons_iff_of_settled {p q : StateId} {c : Char} {word : List Char} (hp : m.IsSettled p) :
    m.Path m.IsSettled p (c :: word) q ↔
      ∃ r, m.next? p c = some r ∧ m.Path m.IsSettled r word q := by
  constructor
  · intro h
    cases h with
    | epsilon he => simp [hp.epsilonTargets_eq] at he
    | edge _ hn htail => exact ⟨_, hn, htail⟩
  · intro h
    obtain ⟨r, hn, htail⟩ := h
    exact .edge hp hn htail

end Path

theorem Closed.foldlM_advance (hm : m.Closed) {live : StateSet} (h : ∀ p ∈ live, m.IsSettled p)
    (word : List Char) :
    ∃ after, word.foldlM m.advance live = .ok after ∧
      ∀ q, q ∈ after ↔ m.IsSettled q ∧ ∃ p ∈ live, m.Path m.IsSettled p word q := by
  induction word generalizing live with
  | nil =>
    refine ⟨live, rfl, fun q => ⟨fun hq => ⟨h q hq, q, hq, .nil q⟩, ?_⟩⟩
    intro h
    obtain ⟨-, p, hp, hpath⟩ := h
    exact (Path.nil_iff_of_settled (h p hp)).1 hpath ▸ hp
  | cons c word ih =>
    obtain ⟨next, hnext, hmem⟩ := hm.advance_eq_ok (fun p hp => (h p hp).lt_size) c
    obtain ⟨after, hafter, hall⟩ := ih fun p hp => ((hmem p).1 hp).1
    refine ⟨after, ?_, fun q => ?_⟩
    · rw [List.foldlM_cons, hnext]
      exact hafter
    · rw [hall]
      apply and_congr_right
      intro hq
      constructor
      · intro h
        obtain ⟨t, ht, hpath⟩ := h
        obtain ⟨-, p, hp, r, hn, hr⟩ := (hmem t).1 ht
        exact ⟨p, hp, (Path.cons_iff_of_settled (h p hp)).2 ⟨r, hn, .of_reaches hr hpath⟩⟩
      · intro h
        obtain ⟨p, hp, hpath⟩ := h
        obtain ⟨r, hn, htail⟩ := (Path.cons_iff_of_settled (h p hp)).1 hpath
        obtain ⟨t, ht, hr, hrest⟩ := htail.settles hq
        exact ⟨t, (hmem t).2 ⟨ht, p, hp, r, hn, hr⟩, hrest⟩

theorem Closed.liveAfter_eq_ok (hm : m.Closed) (word : List Char) :
    ∃ live, m.liveAfter word = .ok live ∧
      ∀ q, q ∈ live ↔ m.IsSettled q ∧ m.Path m.IsSettled m.start word q := by
  obtain ⟨first, hfirst, hmem⟩ := hm.startStates_eq_ok
  obtain ⟨live, hlive, hall⟩ := hm.foldlM_advance (fun p hp => ((hmem p).1 hp).1) word
  refine ⟨live, ?_, fun q => ?_⟩
  · rw [liveAfter, hfirst]
    exact hlive
  · rw [hall]
    apply and_congr_right
    intro hq
    constructor
    · intro h
      obtain ⟨p, hp, hpath⟩ := h
      exact .of_reaches ((hmem p).1 hp).2 hpath
    · intro hpath
      obtain ⟨t, ht, hr, hrest⟩ := hpath.settles hq
      exact ⟨t, (hmem t).2 ⟨ht, hr⟩, hrest⟩

theorem advance_empty (m : Automaton) (c : Char) : m.advance ∅ c = .ok ∅ := by
  change m.settle [] = .ok ∅
  simp [settle]

theorem foldlM_advance_empty (m : Automaton) (word : List Char) :
    word.foldlM m.advance ∅ = .ok ∅ := by
  induction word with
  | nil => rfl
  | cons c word ih =>
    rw [List.foldlM_cons, advance_empty]
    exact ih

/-- Leaving early gives the answer that reading on would give. -/
theorem runFrom_eq_ok {live after : StateSet} {word : List Char}
    (h : word.foldlM m.advance live = .ok after) {b : Bool} (hb : m.isAccepting after = .ok b)
    (consumed : Array (Char × Nat)) :
    ∃ r, m.runFrom live consumed word = .ok r ∧ r.accepted = b := by
  induction word generalizing live consumed with
  | nil =>
    cases h
    exact ⟨⟨consumed, b⟩, by rw [runFrom, hb]; rfl, rfl⟩
  | cons c word ih =>
    cases hl : live.isEmpty with
    | true =>
      refine ⟨⟨consumed, false⟩, runFrom_dead hl consumed c word, ?_⟩
      rw [Std.ExtTreeSet.isEmpty_iff.1 hl, foldlM_advance_empty] at h
      cases h
      cases hb
      rfl
    | false =>
      rw [List.foldlM_cons] at h
      cases hn : m.advance live c with
      | error e =>
        rw [hn] at h
        cases h
      | ok next =>
        rw [hn] at h
        rw [runFrom_alive hl hn]
        exact ih h _

theorem isMatch_eq_ok {input : String} {after : StateSet} (h : m.liveAfter input.toList = .ok after)
    {b : Bool} (hb : m.isAccepting after = .ok b) : m.isMatch input = .ok b := by
  simp only [liveAfter] at h
  cases hs : m.startStates with
  | error e =>
    rw [hs] at h
    cases h
  | ok first =>
    rw [hs] at h
    obtain ⟨r, hr, hacc⟩ := runFrom_eq_ok h hb #[]
    have hrun : m.run input = .ok r := by
      rw [run, hs]
      exact hr
    rw [isMatch, hrun, ← hacc]
    rfl

theorem Closed.isMatch_eq_ok (hm : m.Closed) (input : String) :
    ∃ b, m.isMatch input = .ok b ∧
      (b = true ↔
        ∃ q, m.IsSettled q ∧ m.Path m.IsSettled m.start input.toList q ∧ m.AcceptingAt q) := by
  obtain ⟨live, hlive, hmem⟩ := hm.liveAfter_eq_ok input.toList
  obtain ⟨b, hb, hacc⟩ := isAccepting_eq_ok fun p hp => ((hmem p).1 hp).1.lt_size
  refine ⟨b, Automaton.isMatch_eq_ok hlive hb, hacc.trans ?_⟩
  simp only [hmem, and_assoc]

/-- On any automaton without dangling edges, what is live after a word are the settled ends of the
paths that consume it at settled states, and a match is an accepting state among them. -/
theorem run_computes_settled_ends (m : Automaton) (hm : m.Closed) (word : String) :
    ∃ live, m.liveAfter word.toList = .ok live ∧
      (∀ q, q ∈ live ↔ m.IsSettled q ∧ m.Path m.IsSettled m.start word.toList q) ∧
      ∃ b, m.isMatch word = .ok b ∧ (b = true ↔ ∃ q ∈ live, m.AcceptingAt q) := by
  obtain ⟨live, hlive, hmem⟩ := hm.liveAfter_eq_ok word.toList
  obtain ⟨b, hb, hacc⟩ := isAccepting_eq_ok fun q hq => ((hmem q).1 hq).1.lt_size
  exact ⟨live, hlive, hmem, b, isMatch_eq_ok hlive hb, hacc⟩

/-- The start accepts and reads `a`, but also has epsilon edges, one of them to itself. -/
def forgetful : Automaton :=
  ⟨#[⟨true, .ofList [('a', 2)], [1, 0]⟩, ⟨false, .ofList [('b', 2)], []⟩, ⟨true, ∅, []⟩], 0⟩

theorem run_computes_settled_ends_forgetful :
    forgetful.Closed ∧ ∃ live, forgetful.liveAfter "a".toList = .ok live ∧
      (∀ q, q ∈ live ↔
        forgetful.IsSettled q ∧ forgetful.Path forgetful.IsSettled 0 "a".toList q) ∧
      ∃ b, forgetful.isMatch "a" = .ok b ∧ (b = true ↔ ∃ q ∈ live, forgetful.AcceptingAt q) :=
  ⟨by decide, run_computes_settled_ends forgetful (by decide) "a"⟩

-- Neither the edge for `a` nor the flag of the start is ever seen.
example : ["", "a", "b"].map forgetful.isMatch = [.ok false, .ok false, .ok true] := by cbv

namespace Separated

theorem settled_of_accepting (hs : m.Separated) {q : StateId} (h : m.AcceptingAt q) :
    m.IsSettled q := by
  obtain ⟨s, hsome, hacc⟩ := h
  by_cases he : s.epsilon = []
  · exact ⟨s, hsome, he⟩
  · simp [(hs q s hsome he).1] at hacc

theorem settled_of_next (hs : m.Separated) {p q : StateId} {c : Char}
    (h : m.next? p c = some q) : m.IsSettled p := by
  obtain ⟨s, hsome, hn⟩ := Option.bind_eq_some_iff.1 h
  by_cases he : s.epsilon = []
  · exact ⟨s, hsome, he⟩
  · simp [State.next?, (hs p s hsome he).2] at hn

theorem path_settled (hs : m.Separated) {consumes : StateId → Prop} {p q : StateId}
    {word : List Char} (h : m.Path consumes p word q) : m.Path m.IsSettled p word q := by
  induction h with
  | nil p => exact .nil p
  | epsilon he _ ih => exact .epsilon he ih
  | edge _ hn _ ih => exact .edge (hs.settled_of_next hn) hn ih

theorem isMatch_eq_ok (hs : m.Separated) (hm : m.Closed) (input : String) :
    ∃ b, m.isMatch input = .ok b ∧ (b = true ↔ m.Accepts input.toList) := by
  obtain ⟨b, hb, hiff⟩ := hm.isMatch_eq_ok input
  refine ⟨b, hb, hiff.trans ⟨?_, ?_⟩⟩
  · intro h
    obtain ⟨q, -, hpath, hacc⟩ := h
    exact ⟨q, hpath.mono fun _ _ => trivial, hacc⟩
  · intro h
    obtain ⟨q, hpath, hacc⟩ := h
    exact ⟨q, hs.settled_of_accepting hacc, hs.path_settled hpath, hacc⟩

end Separated

end PatternAutomata.Automaton
