import PatternAutomata.Proofs.Reading
import PatternAutomata.Proofs.Rules
import PatternAutomata.Proofs.Running

/-!
# Many fragments in one automaton

An assembly is an automaton whose states are shared out among parts that no rule has used yet. Each
part is wired for its language, and nothing leads from one part into another. A rule takes its
operands out of the assembly and puts their combination back; the states of the other parts are not
touched, so they keep their languages. The only accepting states are the exits of the parts. When
matching starts at the entry of a part, it decides the language of that part, whatever else stands
in the automaton.
-/

namespace PatternAutomata.Automaton

structure Assembled (m : Automaton) (parts : List Part) : Prop where
  realizes : ∀ p ∈ parts, m.Realizes p
  disjoint : parts.Pairwise fun p q => Disjoint p.states q.states
  covers : ∀ i < m.size, ∃ p ∈ parts, i ∈ p.states

namespace Assembled

variable {m m' : Automaton} {parts rest : List Part} {p q : Part}

theorem empty (start : StateId) : Assembled ⟨#[], start⟩ [] := by
  refine ⟨by simp, .nil, fun i hi => ?_⟩
  exact absurd hi (Nat.not_lt_zero i)

theorem perm (h : m.Assembled parts) (hperm : parts.Perm rest) : m.Assembled rest := by
  refine ⟨fun p hp => h.realizes p (hperm.mem_iff.2 hp), ?_, fun i hi => ?_⟩
  · exact (hperm.pairwise_iff fun hd => hd.symm).1 h.disjoint
  · obtain ⟨p, hp, hip⟩ := h.covers i hi
    exact ⟨p, hperm.mem_iff.1 hp, hip⟩

theorem withStart (h : m.Assembled parts) (start : StateId) :
    Assembled ⟨m.states, start⟩ parts :=
  ⟨fun p hp => (h.realizes p hp).frame fun _ _ => rfl, h.disjoint, h.covers⟩

theorem ne_exit_of_mem (old : List Part) (h : m.Assembled (old ++ rest)) (hp : p ∈ old)
    (hq : q ∈ rest) {i : StateId} (hi : i ∈ q.states) : i ≠ p.fragment.exit := by
  have hd : Disjoint p.states q.states := (List.pairwise_append.1 h.disjoint).2.2 p hp q hq
  have hx := (h.realizes p (List.mem_append_left _ hp)).wired.exit_mem
  exact hd.symm.ne_of_mem hi hx

/-- A rule replaces its operands `old` by one part that takes over their states and the new ones. -/
theorem replace (old : List Part) (h : m.Assembled (old ++ rest)) (hp : m'.Realizes p)
    (hstates : ∀ i, i ∈ p.states ↔ (∃ q ∈ old, i ∈ q.states) ∨ m.size ≤ i ∧ i < m'.size)
    (hframe : ∀ q ∈ rest, ∀ i ∈ q.states, m'.states[i]? = m.states[i]?) :
    m'.Assembled (p :: rest) := by
  have hrest : ∀ q ∈ rest, m.Realizes q := fun q hq => h.realizes q (List.mem_append_right _ hq)
  refine ⟨fun q hq => ?_, ?_, fun i hi => ?_⟩
  · rcases List.mem_cons.1 hq with rfl | hq
    · exact hp
    · exact (hrest q hq).frame (hframe q hq)
  · obtain ⟨-, hdrest, hd⟩ := List.pairwise_append.1 h.disjoint
    refine List.pairwise_cons.2 ⟨fun q hq => Set.disjoint_left.2 fun i hi hiq => ?_, hdrest⟩
    rcases (hstates i).1 hi with ⟨r, hr, hir⟩ | ⟨hle, -⟩
    · exact Set.disjoint_left.1 (hd r hr q hq) hir hiq
    · exact absurd ((hrest q hq).lt_size hiq) (Nat.not_lt.2 hle)
  · by_cases hlt : i < m.size
    · obtain ⟨q, hq, hiq⟩ := h.covers i hlt
      rcases List.mem_append.1 hq with hq | hq
      · exact ⟨p, by simp, (hstates i).2 (Or.inl ⟨q, hq, hiq⟩)⟩
      · exact ⟨q, by simp [hq], hiq⟩
    · exact ⟨p, by simp, (hstates i).2 (Or.inr ⟨Nat.not_lt.1 hlt, hi⟩)⟩

end Assembled

def wrapping (m : Automaton) (language : Language Char) (inside : Set StateId) : Part :=
  ⟨⟨m.size, m.size + 1⟩, language, {m.size, m.size + 1} ∪ inside⟩

def joining (p q : Part) : Part :=
  ⟨⟨p.fragment.entry, q.fragment.exit⟩, p.language * q.language, p.states ∪ q.states⟩

theorem mem_wrapping {m : Automaton} {L : Language Char} {inside : Set StateId} {i : StateId} :
    i ∈ (m.wrapping L inside).states ↔ i ∈ inside ∨ m.size ≤ i ∧ i < m.size + 2 := by
  have hnew : ∀ n j : Nat, j = n ∨ j = n + 1 ↔ n ≤ j ∧ j < n + 2 := by omega
  have hmem : i ∈ ({m.size, m.size + 1} : Set StateId) ↔ i = m.size ∨ i = m.size + 1 := Iff.rfl
  rw [wrapping, Set.mem_union, hmem, hnew, or_comm]

theorem getElem?_wrapped_entry {m : Automaton} {s : State} :
    ((m.grow s).grow (.new true)).states[m.size]? = some s := by
  rw [getElem?_grow_of_lt (by simp), getElem?_grow, if_pos rfl]

theorem getElem?_wrapped_exit {m : Automaton} {s : State} :
    ((m.grow s).grow (.new true)).states[m.size + 1]? = some (.new true) := by
  rw [getElem?_grow, size_grow, if_pos rfl]

theorem getElem?_wrapped_of_lt {m : Automaton} {s : State} {i : StateId} (h : i < m.size) :
    ((m.grow s).grow (.new true)).states[i]? = m.states[i]? := by
  rw [getElem?_grow_of_lt (by simpa using Nat.lt_succ_of_lt h), getElem?_grow_of_lt h]

namespace Assembled

variable {m : Automaton} {parts rest : List Part} {p q : Part}

theorem replace_wrapping {m' : Automaton} {L : Language Char} {inside : Set StateId}
    (old : List Part) (h : m.Assembled (old ++ rest))
    (hinside : ∀ i, i ∈ inside ↔ ∃ q ∈ old, i ∈ q.states)
    (hp : m'.Realizes (m.wrapping L inside)) (hsize : m'.size = m.size + 2)
    (hframe : ∀ q ∈ rest, ∀ i ∈ q.states, m'.states[i]? = m.states[i]?) :
    m'.Assembled (m.wrapping L inside :: rest) := by
  refine h.replace old hp (fun i => ?_) hframe
  rw [mem_wrapping, hinside, hsize]

theorem leaf (h : m.Assembled parts) {L : Language Char} {s : State}
    (hw : ((m.grow s).grow (.new true)).Wired L ⟨m.size, m.size + 1⟩ {m.size, m.size + 1}) :
    ((m.grow s).grow (.new true)).Assembled (m.wrapping L ∅ :: parts) := by
  refine replace_wrapping [] h (by simp) ⟨?_, getElem?_wrapped_exit⟩ (by simp) ?_
  · rw [wrapping, Set.union_empty]
    exact hw
  · exact fun q hq i hi => getElem?_wrapped_of_lt ((h.realizes q hq).lt_size hi)

theorem epsilon (h : m.Assembled parts) :
    ∃ m', Fragment.epsilon m = .ok (m.wrapping 1 ∅).fragment m' ∧
      m'.Assembled (m.wrapping 1 ∅ :: parts) :=
  ⟨_, Fragment.epsilon_eq m, h.leaf (.epsilon (Nat.succ_ne_self _).symm getElem?_wrapped_entry)⟩

theorem symbol (h : m.Assembled parts) (c : Char) :
    ∃ m', Fragment.symbol c m = .ok (m.wrapping {[c]} ∅).fragment m' ∧
      m'.Assembled (m.wrapping {[c]} ∅ :: parts) :=
  ⟨_, Fragment.symbol_eq m c, h.leaf (.symbol (Nat.succ_ne_self _).symm getElem?_wrapped_entry)⟩

theorem concat (h : m.Assembled (p :: q :: rest)) :
    ∃ m', p.fragment.concat q.fragment m = .ok (joining p q).fragment m' ∧
      m'.Assembled (joining p q :: rest) := by
  have hp := h.realizes p (by simp)
  have hq := h.realizes q (by simp)
  have hd : Disjoint p.states q.states := (List.pairwise_cons.1 h.disjoint).1 q (by simp)
  refine ⟨_, Fragment.concat_eq (hp.lt_size hp.wired.exit_mem) _, ?_⟩
  generalize hm : m.modify _ _ = m'
  have hold : ∀ i, i ≠ p.fragment.exit → m'.states[i]? = m.states[i]? := by
    intro i hi
    rw [← hm, getElem?_modify_of_ne hi]
  have hqx : ∀ i ∈ q.states, m'.states[i]? = m.states[i]? := fun i hi =>
    hold i (hd.symm.ne_of_mem hi hp.wired.exit_mem)
  have hpw : m'.Wired p.language p.fragment p.states := hp.wired.frame fun i _ hix => hold i hix
  have hqw : m'.Wired q.language q.fragment q.states := hq.wired.frame fun i hi _ => hqx i hi
  have hlink : m'.states[p.fragment.exit]? = some (.passing [q.fragment.entry]) := by
    rw [← hm, getElem?_modify_self hp.exit_eq]
    rfl
  have hexit := (hqx _ hq.wired.exit_mem).trans hq.exit_eq
  refine replace [p, q] h ⟨.concat hpw hqw hd hlink, hexit⟩ ?_ ?_
  · intro i
    simp [joining, ← hm]
  · intro r hr i hi
    exact hold i (ne_exit_of_mem [p, q] h (by simp) hr hi)

theorem union (h : m.Assembled (p :: q :: rest)) :
    ∃ m', p.fragment.union q.fragment m =
        .ok (m.wrapping (p.language + q.language) (p.states ∪ q.states)).fragment m' ∧
      m'.Assembled (m.wrapping (p.language + q.language) (p.states ∪ q.states) :: rest) := by
  have hp := h.realizes p (by simp)
  have hq := h.realizes q (by simp)
  have hd : Disjoint p.states q.states := (List.pairwise_cons.1 h.disjoint).1 q (by simp)
  have hlt : ∀ i ∈ p.states ∪ q.states, i < m.size := fun i hi =>
    hi.elim (fun hi => hp.lt_size hi) fun hi => hq.lt_size hi
  have hpx := hp.lt_size hp.wired.exit_mem
  have hqx := hq.lt_size hq.wired.exit_mem
  have hne : p.fragment.exit ≠ q.fragment.exit := hd.ne_of_mem hp.wired.exit_mem hq.wired.exit_mem
  refine ⟨_, Fragment.union_eq (Nat.lt_add_right 2 hpx) (Nat.lt_add_right 2 hqx), ?_⟩
  generalize hm : Automaton.modify _ _ _ = m'
  have hout : ∀ i, i ≠ p.fragment.exit → i ≠ q.fragment.exit → m'.states[i]? =
      ((m.grow (.passing [p.fragment.entry, q.fragment.entry])).grow (.new true)).states[i]? := by
    intro i hip hiq
    rw [← hm, getElem?_modify_of_ne hiq, getElem?_modify_of_ne hip]
  have hold : ∀ i < m.size, i ≠ p.fragment.exit → i ≠ q.fragment.exit →
      m'.states[i]? = m.states[i]? := fun i hi hip hiq =>
    (hout i hip hiq).trans (getElem?_wrapped_of_lt hi)
  have hpw : m'.Wired p.language p.fragment p.states := hp.wired.frame fun i hi hix =>
    hold i (hp.lt_size hi) hix (hd.ne_of_mem hi hq.wired.exit_mem)
  have hqw : m'.Wired q.language q.fragment q.states := hq.wired.frame fun i hi hix =>
    hold i (hq.lt_size hi) (hd.symm.ne_of_mem hi hp.wired.exit_mem) hix
  have hentry := (hout _ hpx.ne' hqx.ne').trans getElem?_wrapped_entry
  have hpexit : m'.states[p.fragment.exit]? = some (.passing [m.size + 1]) := by
    rw [← hm, getElem?_modify_of_ne hne,
      getElem?_modify_self ((getElem?_wrapped_of_lt hpx).trans hp.exit_eq)]
    rfl
  have hqexit : m'.states[q.fragment.exit]? = some (.passing [m.size + 1]) := by
    rw [← hm, getElem?_modify_self ((getElem?_modify_of_ne hne.symm).trans
      ((getElem?_wrapped_of_lt hqx).trans hq.exit_eq))]
    rfl
  have hexit := (hout _ (Nat.lt_succ_of_lt hpx).ne' (Nat.lt_succ_of_lt hqx).ne').trans
    getElem?_wrapped_exit
  have hnew : m.size ∉ p.states ∪ q.states := fun hi => Nat.lt_irrefl _ (hlt _ hi)
  have hnew' : m.size + 1 ∉ p.states ∪ q.states := fun hi => Nat.not_succ_lt_self (hlt _ hi)
  have hwired := Wired.union hpw hqw hd (Nat.succ_ne_self _).symm hnew hnew' hentry hpexit hqexit
  refine replace_wrapping [p, q] h (by simp) ⟨hwired, hexit⟩ (by simp [← hm]) ?_
  intro r hr i hi
  have hip : i ≠ p.fragment.exit := ne_exit_of_mem [p, q] h (by simp) hr hi
  have hiq : i ≠ q.fragment.exit := ne_exit_of_mem [p, q] h (by simp) hr hi
  exact hold i ((h.realizes r (by simp [hr])).lt_size hi) hip hiq

theorem closure (h : m.Assembled (p :: rest)) :
    ∃ m', p.fragment.closure m =
        .ok (m.wrapping (KStar.kstar p.language) p.states).fragment m' ∧
      m'.Assembled (m.wrapping (KStar.kstar p.language) p.states :: rest) := by
  have hp := h.realizes p (by simp)
  have hpx := hp.lt_size hp.wired.exit_mem
  refine ⟨_, Fragment.closure_eq (Nat.lt_add_right 2 hpx), ?_⟩
  generalize hm : Automaton.modify _ _ _ = m'
  have hout : ∀ i, i ≠ p.fragment.exit → m'.states[i]? =
      ((m.grow (.passing [m.size + 1, p.fragment.entry])).grow (.new true)).states[i]? := by
    intro i hi
    rw [← hm, getElem?_modify_of_ne hi]
  have hold : ∀ i < m.size, i ≠ p.fragment.exit → m'.states[i]? = m.states[i]? := fun i hi hix =>
    (hout i hix).trans (getElem?_wrapped_of_lt hi)
  have hpw : m'.Wired p.language p.fragment p.states := hp.wired.frame fun i hi hix =>
    hold i (hp.lt_size hi) hix
  have hentry := (hout _ hpx.ne').trans getElem?_wrapped_entry
  have hpexit : m'.states[p.fragment.exit]? =
      some (.passing [m.size + 1, p.fragment.entry]) := by
    rw [← hm, getElem?_modify_self ((getElem?_wrapped_of_lt hpx).trans hp.exit_eq)]
    rfl
  have hexit := (hout _ (Nat.lt_succ_of_lt hpx).ne').trans getElem?_wrapped_exit
  have hnew : m.size ∉ p.states := fun hi => Nat.lt_irrefl _ (hp.lt_size hi)
  have hnew' : m.size + 1 ∉ p.states := fun hi => Nat.not_succ_lt_self (hp.lt_size hi)
  have hwired := Wired.closure hpw (Nat.succ_ne_self _).symm hnew hnew' hentry hpexit
  refine replace_wrapping [p] h (by simp) ⟨hwired, hexit⟩ (by simp [← hm]) ?_
  intro r hr i hi
  have hip : i ≠ p.fragment.exit := ne_exit_of_mem [p] h (by simp) hr hi
  exact hold i ((h.realizes r (by simp [hr])).lt_size hi) hip

end Assembled

namespace Assembled

variable {m : Automaton} {parts : List Part} {p : Part}

theorem exists_state (h : m.Assembled parts) {i : StateId} {s : State}
    (hs : m.states[i]? = some s) :
    ∃ p ∈ parts, i ∈ p.states ∧ (s.accepting = true ↔ i = p.fragment.exit) ∧
      (s.epsilon ≠ [] → s.accepting = false ∧ s.edges = ∅) ∧ ∀ t ∈ s.targets, t ∈ p.states := by
  obtain ⟨p, hp, hi⟩ := h.covers i (Array.getElem?_eq_some_iff.1 hs).1
  obtain ⟨s', hs', hrest⟩ := (h.realizes p hp).exists_state hi
  rw [hs] at hs'
  obtain rfl := Option.some.inj hs'
  exact ⟨p, hp, hi, hrest⟩

theorem separated (h : m.Assembled parts) : m.Separated := by
  intro i s hs he
  obtain ⟨p, -, -, -, hsep, -⟩ := h.exists_state hs
  exact hsep he

theorem closed (h : m.Assembled parts) (hstart : m.start < m.size) : m.Closed := by
  refine ⟨hstart, fun i s hs t ht => ?_⟩
  obtain ⟨p, hp, -, -, -, htargets⟩ := h.exists_state hs
  exact (h.realizes p hp).lt_size (htargets t ht)

theorem isMatch_eq_ok (h : m.Assembled parts) (hp : p ∈ parts)
    (hstart : m.start = p.fragment.entry) (input : String) :
    ∃ b, m.isMatch input = .ok b ∧ (b = true ↔ input.toList ∈ p.language) := by
  have hr := h.realizes p hp
  have hclosed : m.Closed := h.closed (hstart ▸ hr.lt_size hr.wired.entry_mem)
  obtain ⟨b, hb, hiff⟩ := h.separated.isMatch_eq_ok hclosed input
  exact ⟨b, hb, hiff.trans (hr.accepts_iff hstart)⟩

end Assembled

end PatternAutomata.Automaton
