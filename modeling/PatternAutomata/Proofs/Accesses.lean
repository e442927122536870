import PatternAutomata.Proofs.Acceptance
import PatternAutomata.Proofs.Complaints

/-!
# Every access finds its state

Edge targets, starts and fragments are stored unchecked, and an automaton made by hand can name
states that do not exist. Building from tokens never does: at every point, also on the way to an
error, the fragments that wait and all edges name existing states, so no rule meets a missing one.
On an automaton that comes out, live states stay among the existing ones, and no question about them
fails.
-/

namespace PatternAutomata

/-- Nothing that led to this outcome was an access to a missing state, which would have ended it. -/
def InBounds {α : Type} (outcome : Except Error α) : Prop :=
  ∀ access, outcome ≠ .error (.missingState access)

theorem inBounds_ok {α : Type} (a : α) : InBounds (.ok a : Except Error α) := by
  intro access h
  cases h

theorem inBounds_compile {α : Type} (cause : CompileError) :
    InBounds (.error (.compile cause) : Except Error α) := by
  intro access h
  cases h

namespace Builder

structure Valid (b : Builder) : Prop where
  fragment_lt : ∀ f ∈ b.pending, f.entry < b.automaton.size ∧ f.exit < b.automaton.size
  target_lt : ∀ (id : StateId) (s : State), b.automaton.states[id]? = some s →
    ∀ t ∈ s.targets, t < b.automaton.size

variable {b : Builder} {stack : List (Language Char)}

theorem Denotes.valid (h : b.Denotes stack) : b.Valid := by
  obtain ⟨parts, hm, hpending, -⟩ := h
  constructor
  · intro f hf
    rw [← hpending] at hf
    obtain ⟨p, hp, rfl⟩ := List.mem_map.1 hf
    have hr := hm.realizes p hp
    exact ⟨hr.lt_size hr.wired.entry_mem, hr.lt_size hr.wired.exit_mem⟩
  · intro id s hs t ht
    obtain ⟨p, hp, -, -, -, htargets⟩ := hm.exists_state hs
    exact (hm.realizes p hp).lt_size (htargets t ht)

theorem Follows.inBounds {built : Except Error Builder} {stack? : Option (List (Language Char))}
    (h : Follows built stack?) : InBounds built := by
  cases stack? with
  | none =>
    obtain ⟨cause, rfl⟩ := h
    exact inBounds_compile cause
  | some stack =>
    obtain ⟨b, rfl, -⟩ := h
    exact inBounds_ok b

theorem exists_denotes_of_foldlM {ts : List Token} (h : ts.foldlM apply .empty = .ok b) :
    ∃ stack, b.Denotes stack := by
  have hrun := denotes_empty.follows_foldlM ts
  rw [h] at hrun
  cases hp : ts.foldlM Operations.languages.push [] with
  | none =>
    rw [hp] at hrun
    obtain ⟨cause, hb⟩ := hrun
    cases hb
  | some stack =>
    rw [hp] at hrun
    obtain ⟨b', hb, hden⟩ := hrun
    obtain rfl := Except.ok.inj hb
    exact ⟨stack, hden⟩

end Builder

namespace Automaton

inductive Live (m : Automaton) : StateSet → Prop
  | start {live : StateSet} : m.startStates = .ok live → m.Live live
  | advance {live next : StateSet} {c : Char} :
      m.Live live → m.advance live c = .ok next → m.Live next

structure Answers (m : Automaton) : Prop where
  start : ∃ live, m.startStates = .ok live
  lt_size : ∀ live, m.Live live → ∀ q ∈ live, q < m.size
  advance : ∀ live, m.Live live → ∀ c, ∃ next, m.advance live c = .ok next
  isAccepting : ∀ live, m.Live live → ∃ b, m.isAccepting live = .ok b
  isMatch : ∀ input, ∃ b, m.isMatch input = .ok b

theorem Closed.lt_size_of_live {m : Automaton} (hm : m.Closed) {live : StateSet}
    (h : m.Live live) : ∀ q ∈ live, q < m.size := by
  induction h with
  | start hstart =>
    obtain ⟨first, hfirst, hmem⟩ := hm.startStates_eq_ok
    rw [hstart] at hfirst
    obtain rfl := Except.ok.inj hfirst
    intro q hq
    exact ((hmem q).1 hq).1.lt_size
  | advance _ hnext ih =>
    obtain ⟨next, hnext', hmem⟩ := hm.advance_eq_ok ih _
    rw [hnext] at hnext'
    obtain rfl := Except.ok.inj hnext'
    intro q hq
    exact ((hmem q).1 hq).1.lt_size

theorem Closed.answers {m : Automaton} (hm : m.Closed) : m.Answers where
  start := by
    obtain ⟨live, hlive, -⟩ := hm.startStates_eq_ok
    exact ⟨live, hlive⟩
  lt_size _ h := hm.lt_size_of_live h
  advance live h c := by
    obtain ⟨next, hnext, -⟩ := hm.advance_eq_ok (hm.lt_size_of_live h) c
    exact ⟨next, hnext⟩
  isAccepting live h := by
    obtain ⟨b, hb, -⟩ := isAccepting_eq_ok (hm.lt_size_of_live h)
    exact ⟨b, hb⟩
  isMatch input := by
    obtain ⟨b, hb, -⟩ := hm.isMatch_eq_ok input
    exact ⟨b, hb⟩

theorem closed_of_ofPostorder {ts : List Token} {m : Automaton} (h : ofPostorder ts = .ok m) :
    m.Closed := by
  obtain ⟨L, -, hrec⟩ := exists_recognizes_of_ofPostorder h
  exact hrec.closed

theorem inBounds_ofPostorder (ts : List Token) : InBounds (ofPostorder ts) := by
  cases hL : Denotation.ofPostorder? ts with
  | none =>
    obtain ⟨cause, h⟩ := ofPostorder_eq_error hL
    rw [h]
    exact inBounds_compile cause
  | some L =>
    obtain ⟨m, h, -⟩ := ofPostorder_eq_ok hL
    rw [h]
    exact inBounds_ok m

end Automaton

namespace Pattern

theorem closed_of_compile {text : String} {p : Pattern} (h : compile text = .ok p) :
    p.automaton.Closed := by
  obtain ⟨out, -, hm⟩ := Automaton.exists_parse_of_ofPattern (ofPattern_of_compile h)
  exact Automaton.closed_of_ofPostorder hm

theorem inBounds_compile (text : String) : InBounds (compile text) := by
  intro access h
  obtain ⟨cause, he, -⟩ := exists_step_of_compile h
  cases he

theorem inBounds_accepts? {p : Pattern} (h : p.automaton.Answers) (input? : Option String) :
    InBounds (p.accepts? input?) := by
  cases input? with
  | none =>
    intro access habsent
    cases habsent
  | some input =>
    obtain ⟨b, hb⟩ := h.isMatch input
    have haccepts : p.accepts? (some input) = .ok b := by
      rw [accepts?, accepts, hb]
      rfl
    rw [haccepts]
    exact inBounds_ok b

end Pattern

namespace Automaton

/-- Neither building, whatever the tokens, nor matching on what was built meets a missing state. -/
theorem accesses_in_bounds :
    (∀ ts, InBounds (ofPostorder ts) ∧
      ∀ read rest b, ts = read ++ rest → read.foldlM Builder.apply .empty = .ok b →
        b.Valid ∧ ∀ t ∈ rest.head?, InBounds (b.apply t)) ∧
    (∀ ts m, ofPostorder ts = .ok m → m.Closed ∧ m.Answers) ∧
    ∀ text, InBounds (Pattern.compile text) ∧ ∀ p, Pattern.compile text = .ok p →
      p.automaton.Closed ∧ p.automaton.Answers ∧ ∀ input?, InBounds (p.accepts? input?) := by
  refine ⟨fun ts => ⟨inBounds_ofPostorder ts, ?_⟩, ?_, fun text => ?_⟩
  · intro read rest b _ hrun
    obtain ⟨stack, hden⟩ := Builder.exists_denotes_of_foldlM hrun
    exact ⟨hden.valid, fun t _ => (hden.follows_apply t).inBounds⟩
  · intro ts m h
    have hm := closed_of_ofPostorder h
    exact ⟨hm, hm.answers⟩
  · refine ⟨Pattern.inBounds_compile text, fun p h => ?_⟩
    have hm := Pattern.closed_of_compile h
    exact ⟨hm, hm.answers, Pattern.inBounds_accepts? hm.answers⟩

theorem accesses_in_bounds_dangling :
    (∃ b, [.literal 'a', .star].foldlM Builder.apply .empty = .ok b ∧ b.Valid ∧
      InBounds (b.apply .union)) ∧
    (∃ m, ofPostorder [.literal 'a', .star] = .ok m ∧ m.Closed ∧ m.Answers) ∧
    ∃ p, Pattern.compile "(a|b)*c" = .ok p ∧ p.automaton.Answers ∧
      InBounds (p.accepts? (some "abcd")) := by
  refine ⟨?_, ?_, ?_⟩
  · have hden := Builder.denotes_empty.follows_foldlM [.literal 'a', .star]
    obtain ⟨b, hrun, -⟩ := hden
    obtain ⟨hvalid, hstep⟩ :=
      (accesses_in_bounds.1 [.literal 'a', .star, .union]).2 _ [.union] b rfl hrun
    exact ⟨b, hrun, hvalid, hstep .union rfl⟩
  · have hL : Denotation.ofPostorder? [.literal 'a', .star] = some (KStar.kstar {['a']}) := rfl
    obtain ⟨m, hm, -⟩ := ofPostorder_eq_ok hL
    exact ⟨m, hm, accesses_in_bounds.2.1 _ m hm⟩
  · have halt := Derives.union (.term (.factor (.literal 'a'))) (.factor (.literal 'b'))
    have hall := Derives.juxtaposed (.factor halt.group.star) (.literal 'c')
    have hspells : Spells "(a|b)*c" _ :=
      ⟨_, hall.term, by simp [reservedChars, or_imp, forall_and], rfl⟩
    obtain ⟨m, hm, -⟩ := ofPattern_of_spells hspells rfl
    have hp := Pattern.compile_of_ofPattern hm
    obtain ⟨-, hanswers, haccepts⟩ := (accesses_in_bounds.2.2 _).2 _ hp
    exact ⟨_, hp, hanswers, haccepts _⟩

end Automaton

end PatternAutomata
