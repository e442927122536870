import PatternAutomata.Automaton.Listing
import PatternAutomata.Proofs.Delimiting

/-!
# A listing tells its automaton

The listing can be read back from the front. A line begins with two marks and a number that depends
on the place of the line only; its edges come one by one, and neither the epsilon edges nor the end
of the line can be taken for one more edge. The text behind the last line cannot be taken for a
line. So two listings are equal only if all states are, and the starts too, when the mark of the
start stands in some line.
-/

namespace PatternAutomata

open Text

def edgeText (edge : Char × StateId) : List Char :=
  ' ' :: ((quoteChar edge.1).toList ++ ([' ', '=', '>', ' '] ++ number edge.2))

theorem toList_listEdges (s : State) : s.listEdges.toList = s.edges.toList.flatMap edgeText := by
  rw [State.listEdges, String.toList_join, List.flatMap_map]
  congr 1
  funext edge
  simp only [edgeText, number, String.toList_append, List.append_assoc]
  rfl

theorem itemized_edgeText : Itemized NoDigit edgeText := by
  constructor
  · intro edge r
    simp [NoDigit, edgeText]
  · intro edge edge' r s hr hs h
    simp only [edgeText, List.cons_append, List.append_assoc, List.cons.injEq, true_and] at h
    obtain ⟨hc, hrest⟩ := selfDelimiting_quoteChar _ _ _ _ h
    simp only [List.cons.injEq, true_and] at hrest
    obtain ⟨ht, hr⟩ := number_append_inj hr hs hrest
    exact ⟨Prod.ext hc ht, hr⟩

def nextIdText (id : StateId) : List Char := [',', ' '] ++ number id

def idsText : List StateId → List Char
  | [] => [']']
  | id :: ids => number id ++ (ids.flatMap nextIdText ++ [']'])

theorem intercalate_number (id : StateId) (ids : List StateId) :
    [',', ' '].intercalate ((id :: ids).map number) = number id ++ ids.flatMap nextIdText := by
  induction ids generalizing id with
  | nil => simp
  | cons id' ids ih =>
    rw [List.map_cons, List.map_cons, List.intercalate_cons_cons, ← List.map_cons, ih]
    simp [nextIdText]

theorem toList_listIds (ids : List StateId) : (listIds ids).toList = '[' :: idsText ids := by
  cases ids with
  | nil => rfl
  | cons id ids =>
    have hids := intercalate_number id ids
    rw [listIds, String.toList_append, String.toList_append, String.toList_intercalate,
      List.map_map]
    change ['['] ++ [',', ' '].intercalate ((id :: ids).map number) ++ [']'] = _
    rw [hids]
    simp [idsText]

theorem itemized_nextIdText : Itemized NoDigit nextIdText := by
  constructor
  · intro id r
    simp [NoDigit, nextIdText]
  · intro id id' r s hr hs h
    simp only [nextIdText, List.cons_append, List.nil_append, List.cons.injEq, true_and] at h
    exact number_append_inj hr hs h

theorem stops_nextIdText (r : List Char) : Stops NoDigit nextIdText (']' :: r) := by
  constructor
  · simp [NoDigit]
  · intro id s
    simp [nextIdText]

theorem number_append_ne_bracket (n : Nat) (r s : List Char) : number n ++ r ≠ ']' :: s := by
  intro h
  cases hn : number n with
  | nil => exact number_ne_nil n hn
  | cons c digits =>
    have hc : c.isDigit = true := isDigit_of_mem_number (by rw [hn]; simp)
    rw [hn, List.cons_append] at h
    rw [(List.cons.inj h).1] at hc
    exact absurd hc (by decide)

theorem selfDelimiting_idsText : SelfDelimiting idsText := by
  intro ids ids' r s h
  cases ids with
  | nil =>
    cases ids' with
    | nil => exact ⟨rfl, (List.cons.inj h).2⟩
    | cons id' ids' =>
      simp only [idsText, List.append_assoc] at h
      exact absurd h.symm (number_append_ne_bracket id' _ _)
  | cons id ids =>
    cases ids' with
    | nil =>
      simp only [idsText, List.append_assoc] at h
      exact absurd h (number_append_ne_bracket id _ _)
    | cons id' ids' =>
      simp only [idsText, List.append_assoc, List.cons_append, List.nil_append] at h
      obtain ⟨rfl, hrest⟩ := number_append_inj
        (itemized_nextIdText.apart_flatMap (stops_nextIdText r) ids)
        (itemized_nextIdText.apart_flatMap (stops_nextIdText s) ids') h
      obtain ⟨rfl, htail⟩ := itemized_nextIdText.flatMap_append_inj (stops_nextIdText r)
        (stops_nextIdText s) hrest
      exact ⟨rfl, (List.cons.inj htail).2⟩

def lineEnd : List StateId → List Char
  | [] => ['\n']
  | id :: ids => [' ', 'e', 'p', 's', ' ', '=', '>', ' ', '['] ++ idsText (id :: ids) ++ ['\n']

theorem toList_listEpsilon (s : State) : s.listEpsilon.toList ++ ['\n'] = lineEnd s.epsilon := by
  rw [State.listEpsilon, State.hasEpsilon]
  cases s.epsilon with
  | nil => rfl
  | cons id ids =>
    simp only [List.isEmpty_cons, Bool.not_false, if_true, String.toList_append, toList_listIds,
      lineEnd]
    rfl

theorem stops_lineEnd (ids : List StateId) (r : List Char) :
    Stops NoDigit edgeText (lineEnd ids ++ r) := by
  cases ids with
  | nil =>
    constructor
    · simp [NoDigit, lineEnd]
    · intro edge s
      simp [edgeText, lineEnd]
  | cons id ids =>
    constructor
    · simp [NoDigit, lineEnd]
    · -- an edge has an apostrophe behind its blank
      intro edge s
      simp [edgeText, lineEnd, quoteChar, toList_quote]

theorem selfDelimiting_lineEnd : SelfDelimiting lineEnd := by
  intro ids ids' r s h
  cases ids with
  | nil =>
    cases ids' with
    | nil => exact ⟨rfl, (List.cons.inj h).2⟩
    | cons id' ids' => exact absurd (List.cons.inj h).1 (by decide)
  | cons id ids =>
    cases ids' with
    | nil => exact absurd (List.cons.inj h).1 (by decide)
    | cons id' ids' =>
      simp only [lineEnd, List.append_assoc] at h
      obtain ⟨hids, hrest⟩ := selfDelimiting_idsText _ _ _ _ (List.append_cancel_left h)
      exact ⟨hids, (List.cons.inj hrest).2⟩

def startMark (start id : StateId) : Char := if id = start then '^' else ' '

def acceptMark (s : State) : Char := if s.accepting then '*' else ' '

theorem toList_startMark (start id : StateId) :
    (if id = start then "^" else " ").toList = [startMark start id] := by
  unfold startMark
  split <;> rfl

theorem toList_acceptMark (s : State) :
    (if s.accepting then "*" else " ").toList = [acceptMark s] := by
  unfold acceptMark
  split <;> rfl

theorem toList_listing (s : State) (start id : StateId) :
    (s.listing start id).toList = startMark start id :: acceptMark s ::
      ((paddedId id).toList ++ ':' :: (s.edges.toList.flatMap edgeText ++ lineEnd s.epsilon)) := by
  have hcolon : ":".toList = [':'] := rfl
  have hnewline : "\n".toList = ['\n'] := rfl
  simp only [State.listing, String.toList_append, toList_startMark, toList_acceptMark, hcolon,
    hnewline, List.append_assoc, toList_listEpsilon, toList_listEdges, List.cons_append,
    List.nil_append]

theorem startMark_eq_iff {start start' id : StateId} :
    startMark start id = startMark start' id ↔ (id = start ↔ id = start') := by
  unfold startMark
  by_cases h : id = start <;> by_cases h' : id = start' <;> simp [h, h']

theorem accepting_eq_of_acceptMark {s s' : State} (h : acceptMark s = acceptMark s') :
    s.accepting = s'.accepting := by
  unfold acceptMark at h
  by_cases ha : s.accepting <;> by_cases ha' : s'.accepting <;> simp_all

theorem listing_append_inj {s s' : State} {start start' id : StateId} {r r' : List Char}
    (h : (s.listing start id).toList ++ r = (s'.listing start' id).toList ++ r') :
    s = s' ∧ (id = start ↔ id = start') ∧ r = r' := by
  rw [toList_listing, toList_listing] at h
  simp only [List.cons_append, List.append_assoc, List.cons.injEq] at h
  obtain ⟨hstart, haccept, hrest⟩ := h
  have hline := (List.cons.inj (List.append_cancel_left hrest)).2
  obtain ⟨hedges, hend⟩ :=
    itemized_edgeText.flatMap_append_inj (stops_lineEnd _ _) (stops_lineEnd _ _) hline
  obtain ⟨hepsilon, hr⟩ := selfDelimiting_lineEnd _ _ _ _ hend
  refine ⟨?_, startMark_eq_iff.1 hstart, hr⟩
  cases s
  cases s'
  simp only [State.mk.injEq]
  exact ⟨accepting_eq_of_acceptMark haccept, Std.ExtTreeMap.toList_inj.1 hedges, hepsilon⟩

theorem listing_append_ne_end (s : State) (start id : StateId) (r t : List Char) :
    (s.listing start id).toList ++ r ≠ ')' :: t := by
  rw [toList_listing]
  intro h
  have hmark : startMark start id = ')' := (List.cons.inj h).1
  unfold startMark at hmark
  split at hmark <;> cases hmark

def linesText (start : StateId) : StateId → List State → List Char
  | _, [] => []
  | id, s :: states => (s.listing start id).toList ++ linesText start (id + 1) states

theorem toList_join_mapIdx (start base : StateId) (states : List State) :
    (String.join (states.mapIdx fun i s => s.listing start (base + i))).toList =
      linesText start base states := by
  induction states generalizing base with
  | nil => rfl
  | cons s states ih =>
    have htail := ih (base + 1)
    rw [List.mapIdx_cons, linesText, ← htail]
    simp only [String.toList_join, List.flatMap_cons]
    simp only [Nat.add_zero, Nat.add_assoc, Nat.add_comm 1]

theorem toList_automaton_listing (m : Automaton) :
    m.listing.toList = "NFA(\n".toList ++ (linesText m.start 0 m.states.toList ++ [')']) := by
  have hlines := toList_join_mapIdx m.start 0 m.states.toList
  simp only [Nat.zero_add] at hlines
  simp only [Automaton.listing, String.toList_append, hlines, List.append_assoc]
  rfl

theorem linesText_inj {start start' : StateId} {states states' : List State} {id : Nat}
    (h : linesText start id states ++ [')'] = linesText start' id states' ++ [')']) :
    states = states' ∧ ∀ k : Nat, id ≤ k → k < id + states.length → (k = start ↔ k = start') := by
  induction states generalizing states' id with
  | nil =>
    cases states' with
    | nil => exact ⟨rfl, fun k hk hlt => absurd hlt (by simpa using hk)⟩
    | cons s' states' =>
      simp only [linesText, List.append_assoc] at h
      exact absurd h.symm (listing_append_ne_end s' start' id _ _)
  | cons s states ih =>
    cases states' with
    | nil =>
      simp only [linesText, List.append_assoc] at h
      exact absurd h (listing_append_ne_end s start id _ _)
    | cons s' states' =>
      simp only [linesText, List.append_assoc] at h
      obtain ⟨rfl, hmark, hrest⟩ := listing_append_inj h
      obtain ⟨rfl, hmarks⟩ := ih hrest
      refine ⟨rfl, fun k hk hlt => ?_⟩
      by_cases hk' : k = id
      · rw [hk']
        exact hmark
      · rw [List.length_cons] at hlt
        exact hmarks k (by omega) (by omega)

namespace Automaton

/-- Equal listings have equal automata behind them, as soon as one of the two starts exists. -/
theorem listing_eq_iff {m m' : Automaton} (h : m.start < m.size) :
    m.listing = m'.listing ↔ m = m' := by
  constructor
  · intro hlisting
    have htext := congrArg String.toList hlisting
    rw [toList_automaton_listing, toList_automaton_listing] at htext
    obtain ⟨hstates, hmarks⟩ := linesText_inj (List.append_cancel_left htext)
    have hlt : m.start < 0 + m.states.toList.length := by
      rw [Nat.zero_add, Array.length_toList]
      exact h
    have hstart : m.start = m'.start := (hmarks m.start (Nat.zero_le _) hlt).1 rfl
    cases m
    cases m'
    simp only [Automaton.mk.injEq]
    exact ⟨Array.toList_inj.1 hstates, hstart⟩
  · exact congrArg listing

theorem listing_eq_iff_repeated :
    let edges : Std.ExtTreeMap Char StateId := (∅ : Std.ExtTreeMap Char StateId).insert '\x27' 7
    let m : Automaton := ⟨#[⟨true, edges, [9, 9]⟩], 0⟩
    let m' : Automaton := ⟨#[⟨true, edges, [9]⟩], 0⟩
    m.start < m.size ∧ (m.listing = m'.listing ↔ m = m') ∧ m.listing ≠ m'.listing := by
  intro edges m m'
  have hstart : m.start < m.size := Nat.zero_lt_one
  have hne : m ≠ m' := by simp [m, m']
  refine ⟨hstart, listing_eq_iff hstart, fun h => hne ?_⟩
  exact (listing_eq_iff hstart).1 h

-- No line marks a start that does not exist.
example : listing ⟨#[], 0⟩ = listing ⟨#[], 1⟩ := rfl

end Automaton

end PatternAutomata
