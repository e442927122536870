import PatternAutomata.Proofs.Wiring

/-!
# What a fragment reads

Each state of a wired fragment gets a bound on the words that can still be read from it. The bound
of a state contains the bounds of the states its epsilon edges lead to, and its edges put their
character before the bound of their target; the bound of an entry is the language of the fragment
followed by the bound of the exit. A path is then read off backwards, and no count of the rounds of
a closure is needed. With the converse from the wiring, a fragment that nobody continues reads
exactly its language.
-/

namespace PatternAutomata.Automaton

/-- `rest` bounds what can be read from `i` when it bounds what can be read from its targets. -/
structure Bounds (m : Automaton) (rest : StateId → Language Char) (i : StateId) : Prop where
  epsilon_le : ∀ t ∈ m.epsilonTargets i, rest t ≤ rest i
  edge_le : ∀ c t, m.next? i c = some t → {[c]} * rest t ≤ rest i

theorem Bounds.congr {m : Automaton} {rest rest' : StateId → Language Char} {i : StateId}
    (h : m.Bounds rest i) (hi : rest' i = rest i)
    (he : ∀ t ∈ m.epsilonTargets i, rest' t = rest t)
    (hn : ∀ c t, m.next? i c = some t → rest' t = rest t) : m.Bounds rest' i := by
  refine ⟨fun t ht => ?_, fun c t ht => ?_⟩
  · rw [hi, he t ht]
    exact h.epsilon_le t ht
  · rw [hi, hn c t ht]
    exact h.edge_le c t ht

theorem bounds_passing {m : Automaton} {rest : StateId → Language Char} {i : StateId}
    {targets : List StateId} (hs : m.states[i]? = some (.passing targets))
    (h : ∀ t ∈ targets, rest t ≤ rest i) : m.Bounds rest i := by
  refine ⟨fun t ht => ?_, fun c t ht => ?_⟩
  · rw [epsilonTargets_of_some hs] at ht
    exact h t ht
  · rw [next?_of_some hs] at ht
    simp [State.passing, State.next?] at ht

theorem bounds_new {m : Automaton} {rest : StateId → Language Char} {i : StateId} {b : Bool}
    (hs : m.states[i]? = some (.new b)) : m.Bounds rest i := by
  refine ⟨fun t ht => ?_, fun c t ht => ?_⟩
  · simp [epsilonTargets_of_some hs, State.new] at ht
  · simp [next?_of_some hs, State.new, State.next?] at ht

theorem bounds_reading {m : Automaton} {rest : StateId → Language Char} {i t : StateId} {c : Char}
    (hs : m.states[i]? = some (.reading c t)) (h : {[c]} * rest t ≤ rest i) : m.Bounds rest i := by
  refine ⟨fun u hu => ?_, fun d u hu => ?_⟩
  · simp [epsilonTargets_of_some hs, State.reading] at hu
  · rw [next?_of_some hs, State.next?_reading] at hu
    obtain ⟨rfl, rfl⟩ := hu
    exact h

theorem bounds_of_exit {m : Automaton} {rest : StateId → Language Char} {i exit : StateId}
    {targets : List StateId} (hs : m.states[exit]? = some (.passing targets))
    (h : ∀ t ∈ targets, rest t ≤ rest exit) (hi : i ≠ exit → m.Bounds rest i) :
    m.Bounds rest i := by
  by_cases hx : i = exit
  · subst hx
    exact bounds_passing hs h
  · exact hi hx

def boundsAround (entry exit : StateId) (whole after : Language Char)
    (inside : StateId → Language Char) (i : StateId) : Language Char :=
  if i = entry then whole else if i = exit then after else inside i

section boundsAround

variable {entry exit i : StateId} {whole after : Language Char} {inside : StateId → Language Char}

theorem boundsAround_entry : boundsAround entry exit whole after inside entry = whole :=
  if_pos rfl

theorem boundsAround_exit (h : entry ≠ exit) :
    boundsAround entry exit whole after inside exit = after := by
  rw [boundsAround, if_neg h.symm, if_pos rfl]

theorem boundsAround_of_ne (hentry : i ≠ entry) (hexit : i ≠ exit) :
    boundsAround entry exit whole after inside i = inside i := by
  rw [boundsAround, if_neg hentry, if_neg hexit]

end boundsAround

namespace Wired

variable {m : Automaton} {L : Language Char} {f : Fragment} {S : Set StateId}

theorem bounds_extend (h : m.Wired L f S) {rest rest' : StateId → Language Char}
    (heq : ∀ i ∈ S, rest' i = rest i) {i : StateId} (hi : i ∈ S) (hne : i ≠ f.exit)
    (hb : m.Bounds rest i) : m.Bounds rest' i :=
  hb.congr (heq i hi) (fun t ht => heq t (h.epsilon_mem hi hne ht))
    fun _ t ht => heq t (h.next_mem hi hne ht)

theorem exists_bounds (h : m.Wired L f S) (K : Language Char) :
    ∃ rest : StateId → Language Char, rest f.entry = L * K ∧ rest f.exit = K ∧
      ∀ i ∈ S, i ≠ f.exit → m.Bounds rest i := by
  classical
  induction h generalizing K with
  | @epsilon entry exit hne he =>
    refine ⟨fun _ => K, (one_mul K).symm, rfl, fun i hi hx => ?_⟩
    rcases hi with rfl | rfl
    · exact bounds_passing he fun _ _ => le_rfl
    · exact absurd rfl hx
  | @symbol entry exit c hne he =>
    have hexit : boundsAround entry exit ({[c]} * K) K (fun _ => K) exit = K :=
      boundsAround_exit hne
    refine ⟨boundsAround entry exit ({[c]} * K) K fun _ => K, boundsAround_entry, hexit, ?_⟩
    intro i hi hx
    rcases hi with rfl | rfl
    · exact bounds_reading he (by rw [hexit, boundsAround_entry])
    · exact absurd rfl hx
  | @concat L M f g A B hf hg hd hx ihf ihg =>
    obtain ⟨ra, haentry, haexit, ha⟩ := ihf (M * K)
    obtain ⟨rb, hbentry, hbexit, hb⟩ := ihg K
    have hA : ∀ i ∈ A, A.piecewise ra rb i = ra i := fun i hi => Set.piecewise_eq_of_mem A ra rb hi
    have hB : ∀ i ∈ B, A.piecewise ra rb i = rb i := fun i hi =>
      Set.piecewise_eq_of_notMem A ra rb (hd.notMem_of_mem_right hi)
    refine ⟨A.piecewise ra rb, ?_, ?_, fun i hi hne => ?_⟩
    · rw [hA _ hf.entry_mem, haentry, mul_assoc]
    · rw [hB _ hg.exit_mem, hbexit]
    · rcases hi with hi | hi
      · refine bounds_of_exit hx (fun t ht => ?_) fun hfx =>
          hf.bounds_extend hA hi hfx (ha i hi hfx)
        rw [List.mem_singleton.1 ht, hB _ hg.entry_mem, hA _ hf.exit_mem, hbentry, haexit]
      · exact hg.bounds_extend hB hi hne (hb i hi hne)
  | @union L M f g A B entry exit hf hg hd hne hen hex he hfx hgx ihf ihg =>
    obtain ⟨ra, haentry, haexit, ha⟩ := ihf K
    obtain ⟨rb, hbentry, hbexit, hb⟩ := ihg K
    have hin : ∀ i ∈ A ∪ B, boundsAround entry exit ((L + M) * K) K (A.piecewise ra rb) i =
        A.piecewise ra rb i := fun i hi =>
      boundsAround_of_ne (ne_of_mem_of_not_mem hi hen) (ne_of_mem_of_not_mem hi hex)
    generalize hrest : boundsAround entry exit ((L + M) * K) K (A.piecewise ra rb) = rest at hin
    have hentry : rest entry = (L + M) * K := hrest ▸ boundsAround_entry
    have hexit : rest exit = K := hrest ▸ boundsAround_exit hne
    have hA : ∀ i ∈ A, rest i = ra i := fun i hi =>
      (hin i (Or.inl hi)).trans (Set.piecewise_eq_of_mem A ra rb hi)
    have hB : ∀ i ∈ B, rest i = rb i := fun i hi =>
      (hin i (Or.inr hi)).trans (Set.piecewise_eq_of_notMem A ra rb (hd.notMem_of_mem_right hi))
    refine ⟨rest, hentry, hexit, fun i hi hx => ?_⟩
    rcases hi with (rfl | rfl) | hi | hi
    · apply bounds_passing he
      intro t ht
      rw [hentry, add_mul]
      rcases List.mem_pair.1 ht with rfl | rfl
      · rw [hA _ hf.entry_mem, haentry]
        exact le_sup_left
      · rw [hB _ hg.entry_mem, hbentry]
        exact le_sup_right
    · exact absurd rfl hx
    · refine bounds_of_exit hfx (fun t ht => ?_) fun hifx =>
        hf.bounds_extend hA hi hifx (ha i hi hifx)
      rw [List.mem_singleton.1 ht, hexit, hA _ hf.exit_mem, haexit]
    · refine bounds_of_exit hgx (fun t ht => ?_) fun higx =>
        hg.bounds_extend hB hi higx (hb i hi higx)
      rw [List.mem_singleton.1 ht, hexit, hB _ hg.exit_mem, hbexit]
  | @closure L f A entry exit hf hne hen hex he hfx ihf =>
    obtain ⟨ra, haentry, haexit, ha⟩ := ihf (KStar.kstar L * K)
    have hA : ∀ i ∈ A, boundsAround entry exit (KStar.kstar L * K) K ra i = ra i := fun i hi =>
      boundsAround_of_ne (ne_of_mem_of_not_mem hi hen) (ne_of_mem_of_not_mem hi hex)
    generalize hrest : boundsAround entry exit (KStar.kstar L * K) K ra = rest at hA
    have hentry : rest entry = KStar.kstar L * K := hrest ▸ boundsAround_entry
    have hexit : rest exit = K := hrest ▸ boundsAround_exit hne
    have hrounds : ∀ t ∈ [exit, f.entry], rest t ≤ KStar.kstar L * K := fun t ht => by
      rcases List.mem_pair.1 ht with rfl | rfl
      · rw [hexit]
        exact le_mul_of_one_le_left' one_le_kstar
      · rw [hA _ hf.entry_mem, haentry, ← mul_assoc]
        exact mul_le_mul_left mul_kstar_le_kstar K
    refine ⟨rest, hentry, hexit, fun i hi hx => ?_⟩
    rcases hi with (rfl | rfl) | hi
    · exact bounds_passing he (hentry ▸ hrounds)
    · exact absurd rfl hx
    · exact bounds_of_exit hfx (((hA _ hf.exit_mem).trans haexit) ▸ hrounds) fun hifx =>
        hf.bounds_extend hA hi hifx (ha i hi hifx)

end Wired

structure Sealed (m : Automaton) (S : Set StateId) : Prop where
  epsilon_mem : ∀ i ∈ S, ∀ t ∈ m.epsilonTargets i, t ∈ S
  next_mem : ∀ i ∈ S, ∀ c t, m.next? i c = some t → t ∈ S

namespace Path

variable {m : Automaton} {consumes : StateId → Prop} {S : Set StateId} {p q : StateId}
  {word : List Char}

theorem mem_of_sealed (h : m.Path consumes p word q) (hS : m.Sealed S) (hp : p ∈ S) : q ∈ S := by
  induction h with
  | nil p => exact hp
  | epsilon ht _ ih => exact ih (hS.epsilon_mem _ hp _ ht)
  | edge _ ht _ ih => exact ih (hS.next_mem _ hp _ _ ht)

theorem mem_rest (h : m.Path consumes p word q) (hS : m.Sealed S) (hp : p ∈ S)
    {rest : StateId → Language Char} (hb : ∀ i ∈ S, m.Bounds rest i) (hq : [] ∈ rest q) :
    word ∈ rest p := by
  induction h with
  | nil p => exact hq
  | epsilon ht _ ih => exact (hb _ hp).epsilon_le _ ht (ih (hS.epsilon_mem _ hp _ ht) hq)
  | @edge p t q c word _ ht _ ih =>
    have hrest := ih (hS.next_mem _ hp _ _ ht) hq
    exact (hb _ hp).edge_le c t ht (Language.append_mem_mul (Set.mem_singleton [c]) hrest)

end Path

/-- A part of an automaton, and the language its fragment was made for. -/
structure Part where
  fragment : Fragment
  language : Language Char
  states : Set StateId

/-- The part is wired for its language and no rule has continued from its exit. -/
structure Realizes (m : Automaton) (p : Part) : Prop where
  wired : m.Wired p.language p.fragment p.states
  exit_eq : m.states[p.fragment.exit]? = some (.new true)

namespace Realizes

variable {m m' : Automaton} {p : Part}

theorem frame (h : m.Realizes p) (hm : ∀ i ∈ p.states, m'.states[i]? = m.states[i]?) :
    m'.Realizes p :=
  ⟨h.wired.frame fun i hi _ => hm i hi, (hm _ h.wired.exit_mem).trans h.exit_eq⟩

theorem exists_state (h : m.Realizes p) {i : StateId} (hi : i ∈ p.states) :
    ∃ s, m.states[i]? = some s ∧ (s.accepting = true ↔ i = p.fragment.exit) ∧
      (s.epsilon ≠ [] → s.accepting = false ∧ s.edges = ∅) ∧ ∀ t ∈ s.targets, t ∈ p.states := by
  by_cases hx : i = p.fragment.exit
  · subst hx
    exact ⟨_, h.exit_eq, by simp [State.new], by simp [State.new],
      by simp [State.new, State.targets]⟩
  · obtain ⟨s, hs, hin⟩ := h.wired.exists_inner hi hx
    exact ⟨s, hs, by simp [hin.not_accepting, hx], fun he => ⟨hin.not_accepting, hin.edges_eq he⟩,
      hin.target_mem⟩

theorem lt_size (h : m.Realizes p) {i : StateId} (hi : i ∈ p.states) : i < m.size := by
  obtain ⟨s, hs, -⟩ := h.exists_state hi
  exact (Array.getElem?_eq_some_iff.1 hs).1

theorem isSealed (h : m.Realizes p) : m.Sealed p.states := by
  refine ⟨fun i hi t ht => ?_, fun i hi c t ht => ?_⟩
  · obtain ⟨s, hs, -, -, htargets⟩ := h.exists_state hi
    rw [epsilonTargets_of_some hs] at ht
    exact htargets t (State.mem_targets.2 (Or.inr ht))
  · obtain ⟨s, hs, -, -, htargets⟩ := h.exists_state hi
    rw [next?_of_some hs] at ht
    exact htargets t (State.mem_targets.2 (Or.inl ⟨c, ht⟩))

theorem acceptingAt_iff (h : m.Realizes p) {i : StateId} (hi : i ∈ p.states) :
    m.AcceptingAt i ↔ i = p.fragment.exit := by
  obtain ⟨s, hs, hacc, -⟩ := h.exists_state hi
  rw [← hacc]
  simp [AcceptingAt, hs]

theorem mem_of_path (h : m.Realizes p) {consumes : StateId → Prop} {word : List Char}
    (hpath : m.Path consumes p.fragment.entry word p.fragment.exit) : word ∈ p.language := by
  obtain ⟨rest, hentry, hexit, hb⟩ := h.wired.exists_bounds 1
  have hall : ∀ i ∈ p.states, m.Bounds rest i := by
    intro i hi
    by_cases hx : i = p.fragment.exit
    · exact bounds_new (hx ▸ h.exit_eq)
    · exact hb i hi hx
  have hrest := hpath.mem_rest h.isSealed h.wired.entry_mem hall (hexit ▸ Set.mem_singleton [])
  rwa [hentry, mul_one] at hrest

theorem accepts_iff (h : m.Realizes p) (hstart : m.start = p.fragment.entry) {word : List Char} :
    m.Accepts word ↔ word ∈ p.language := by
  constructor
  · intro ⟨q, hpath, hacc⟩
    rw [hstart] at hpath
    have hq := hpath.mem_of_sealed h.isSealed h.wired.entry_mem
    rw [(h.acceptingAt_iff hq).1 hacc] at hpath
    exact h.mem_of_path hpath
  · intro hw
    refine ⟨p.fragment.exit, ?_, (h.acceptingAt_iff h.wired.exit_mem).2 rfl⟩
    rw [hstart]
    exact h.wired.path_of_mem hw

end Realizes

end PatternAutomata.Automaton
