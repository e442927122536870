import Mathlib.Computability.MyhillNerode
import PatternAutomata.Journal
import PatternAutomata.Proofs.Acceptance
import PatternAutomata.Proofs.Compilation

/-!
# When a run dies

In an automaton built from tokens every state lies on some path from the start to the one accepting
state: a rule connects each state of its operands with its new entry and exit. So a live state can
always be continued to a match, and the live states run out exactly when the word read so far has no
continuation in the language. A run therefore stops behind the first character that leaves none.
-/

namespace PatternAutomata

/-- `word` can be continued to a word of `L`. -/
def Viable (L : Language Char) (word : List Char) : Prop := ∃ rest, word ++ rest ∈ L

/-- `read` is `word` up to the first character, included, that no continuation in `L` is left
behind; or all of `word` when there is no such character. -/
def ReadsWhileViable (L : Language Char) (word read : List Char) : Prop :=
  (read = word ∧ ∀ u, u <+: word → Viable L u) ∨
    ∃ u c, u ++ [c] <+: word ∧ read = u ++ [c] ∧ (∀ v, v <+: u → Viable L v) ∧
      ¬ Viable L (u ++ [c])

theorem viable_leftQuotient {L : Language Char} {c : Char} {word : List Char} :
    Viable (L.leftQuotient [c]) word ↔ Viable L (c :: word) := Iff.rfl

namespace ReadsWhileViable

variable {L : Language Char} {c : Char} {word read : List Char}

theorem nil (h : Viable L []) : ReadsWhileViable L [] [] :=
  Or.inl ⟨rfl, fun _ hu => List.prefix_nil.1 hu ▸ h⟩

theorem last (h : Viable L []) (hc : ¬ Viable L [c]) (word : List Char) :
    ReadsWhileViable L (c :: word) [c] :=
  Or.inr ⟨[], c, by simp, rfl, fun _ hv => List.prefix_nil.1 hv ▸ h, hc⟩

theorem cons (h : Viable L []) (hread : ReadsWhileViable (L.leftQuotient [c]) word read) :
    ReadsWhileViable L (c :: word) (c :: read) := by
  have hprefix : ∀ w, (∀ v, v <+: w → Viable (L.leftQuotient [c]) v) →
      ∀ v, v <+: c :: w → Viable L v := by
    intro w hw v hv
    rcases List.prefix_cons_iff.1 hv with rfl | ⟨v', rfl, hv'⟩
    · exact h
    · exact viable_leftQuotient.1 (hw v' hv')
  rcases hread with ⟨rfl, hall⟩ | ⟨u, d, hu, rfl, hall, hd⟩
  · exact Or.inl ⟨rfl, hprefix _ hall⟩
  · exact Or.inr ⟨c :: u, d, (List.prefix_cons_inj c).2 hu, rfl, hprefix u hall, hd⟩

end ReadsWhileViable

namespace Automaton

def Connects (m : Automaton) (p q : StateId) : Prop :=
  ∃ word, m.Path (fun _ => True) p word q

namespace Connects

variable {m : Automaton} {p q r : StateId}

theorem refl (p : StateId) : m.Connects p p := ⟨[], .nil p⟩

theorem trans (h₁ : m.Connects p q) (h₂ : m.Connects q r) : m.Connects p r := by
  obtain ⟨u, hu⟩ := h₁
  obtain ⟨v, hv⟩ := h₂
  exact ⟨u ++ v, hu.append hv⟩

theorem passing {targets : List StateId} (hs : m.states[p]? = some (.passing targets))
    (hq : q ∈ targets) : m.Connects p q :=
  ⟨[], .passing hs hq (.nil q)⟩

theorem reading {c : Char} (hs : m.states[p]? = some (.reading c q)) : m.Connects p q := by
  refine ⟨[c], .edge trivial ?_ (.nil q)⟩
  rw [next?_of_some hs, State.next?_reading]
  exact ⟨rfl, rfl⟩

end Connects

theorem Wired.connects {m : Automaton} {L : Language Char} {f : Fragment} {S : Set StateId}
    (h : m.Wired L f S) {i : StateId} (hi : i ∈ S) :
    m.Connects f.entry i ∧ m.Connects i f.exit := by
  induction h generalizing i with
  | epsilon _ he =>
    have hpass := Connects.passing he (List.mem_singleton_self _)
    rcases hi with rfl | rfl
    · exact ⟨.refl _, hpass⟩
    · exact ⟨hpass, .refl _⟩
  | symbol _ he =>
    have hread := Connects.reading he
    rcases hi with rfl | rfl
    · exact ⟨.refl _, hread⟩
    · exact ⟨hread, .refl _⟩
  | concat hf hg _ hx ihf ihg =>
    have hpass := Connects.passing hx (List.mem_singleton_self _)
    rcases hi with hi | hi
    · exact ⟨(ihf hi).1, (ihf hi).2.trans (hpass.trans (ihg hg.entry_mem).2)⟩
    · exact ⟨((ihf hf.exit_mem).1.trans hpass).trans (ihg hi).1, (ihg hi).2⟩
  | @union L M f g A B entry exit hf hg _ _ _ _ he hfx hgx ihf ihg =>
    have hin : m.Connects entry f.entry := .passing he (by simp)
    have hin' : m.Connects entry g.entry := .passing he (by simp)
    have hout : m.Connects f.exit exit := .passing hfx (by simp)
    have hout' : m.Connects g.exit exit := .passing hgx (by simp)
    have hall : m.Connects entry exit := hin.trans ((ihf hf.exit_mem).1.trans hout)
    rcases hi with (rfl | rfl) | hi | hi
    · exact ⟨.refl _, hall⟩
    · exact ⟨hall, .refl _⟩
    · exact ⟨hin.trans (ihf hi).1, (ihf hi).2.trans hout⟩
    · exact ⟨hin'.trans (ihg hi).1, (ihg hi).2.trans hout'⟩
  | @closure L f A entry exit hf _ _ _ he hfx ihf =>
    have hin : m.Connects entry f.entry := .passing he (by simp)
    have hout : m.Connects f.exit exit := .passing hfx (by simp)
    have hall : m.Connects entry exit := .passing he (by simp)
    rcases hi with (rfl | rfl) | hi
    · exact ⟨.refl _, hall⟩
    · exact ⟨hall, .refl _⟩
    · exact ⟨hin.trans (ihf hi).1, (ihf hi).2.trans hout⟩

/-- Every state lies on a path from the start to the only accepting state. -/
def Trim (m : Automaton) : Prop :=
  ∃ exit, (∀ q, m.AcceptingAt q ↔ q = exit) ∧
    ∀ i < m.size, m.Connects m.start i ∧ m.Connects i exit

theorem Recognizes.trim {m : Automaton} {L : Language Char} (h : m.Recognizes L) : m.Trim := by
  obtain ⟨p, hm, hstart, -⟩ := h
  have hr := hm.realizes p (by simp)
  have hmem : ∀ i < m.size, i ∈ p.states := by simpa using hm.covers
  refine ⟨p.fragment.exit, fun q => ⟨fun hacc => ?_, ?_⟩, fun i hi => ?_⟩
  · exact (hr.acceptingAt_iff (hmem q hacc.lt_size)).1 hacc
  · rintro rfl
    exact (hr.acceptingAt_iff hr.wired.exit_mem).2 rfl
  · rw [hstart]
    exact hr.wired.connects (hmem i hi)

theorem Path.exists_split {m : Automaton} {consumes : StateId → Prop} {p q : StateId}
    {u v : List Char} (h : m.Path consumes p (u ++ v) q) :
    ∃ r, m.Path consumes p u r ∧ m.Path consumes r v q := by
  generalize hw : u ++ v = word at h
  induction h generalizing u with
  | nil p =>
    obtain ⟨rfl, rfl⟩ := List.append_eq_nil_iff.1 hw
    exact ⟨p, .nil p, .nil p⟩
  | epsilon he _ ih =>
    obtain ⟨r, hu, hv⟩ := ih hw
    exact ⟨r, .epsilon he hu, hv⟩
  | @edge p t q c word hc hn htail ih =>
    cases u with
    | nil =>
      obtain rfl : v = c :: word := hw
      exact ⟨p, .nil p, .edge hc hn htail⟩
    | cons d u =>
      obtain ⟨rfl, htl⟩ := List.cons.inj hw
      obtain ⟨r, hu, hv⟩ := ih htl
      exact ⟨r, .edge hc hn hu, hv⟩

/-- Some state is live after `word` exactly when `word` is viable. -/
def TracksViability (m : Automaton) (L : Language Char) : Prop :=
  ∀ word, ∃ live, m.liveAfter word = .ok live ∧ (live.isEmpty = false ↔ Viable L word)

theorem isEmpty_eq_false_iff {live : StateSet} : live.isEmpty = false ↔ ∃ q, q ∈ live := by
  rw [← Std.ExtTreeSet.isEmpty_toList, List.isEmpty_eq_false_iff_exists_mem]
  simp only [Std.ExtTreeSet.mem_toList]

theorem Recognizes.accepts_iff {m : Automaton} {L : Language Char} (h : m.Recognizes L)
    {word : List Char} : m.Accepts word ↔ word ∈ L := by
  obtain ⟨p, hm, hstart, rfl⟩ := h
  exact (hm.realizes p (by simp)).accepts_iff hstart

theorem Recognizes.viable_nil {m : Automaton} {L : Language Char} (h : m.Recognizes L) :
    Viable L [] := by
  obtain ⟨exit, hexit, hconnects⟩ := h.trim
  obtain ⟨word, hpath⟩ := (hconnects m.start h.closed.start_lt).2
  exact ⟨word, h.accepts_iff.1 ⟨exit, hpath, (hexit exit).2 rfl⟩⟩

theorem Recognizes.tracksViability {m : Automaton} {L : Language Char} (h : m.Recognizes L) :
    m.TracksViability L := by
  intro word
  obtain ⟨live, hlive, hmem⟩ := h.closed.liveAfter_eq_ok word
  obtain ⟨exit, hexit, hconnects⟩ := h.trim
  refine ⟨live, hlive, isEmpty_eq_false_iff.trans ⟨?_, ?_⟩⟩
  · intro hq
    obtain ⟨q, hq⟩ := hq
    obtain ⟨hsettled, hpath⟩ := (hmem q).1 hq
    obtain ⟨rest, hrest⟩ := (hconnects q hsettled.lt_size).2
    have hall := (hpath.mono fun _ _ => trivial).append hrest
    exact ⟨rest, h.accepts_iff.1 ⟨exit, hall, (hexit exit).2 rfl⟩⟩
  · intro hviable
    obtain ⟨rest, hrest⟩ := hviable
    obtain ⟨q, hall, hacc⟩ := h.accepts_iff.2 hrest
    obtain ⟨r, hpath, hpath'⟩ := (h.separated.path_settled hall).exists_split
    -- the path goes on to an accepting state, so it settles behind the word
    obtain ⟨t, ht, hreach, -⟩ := hpath'.settles (h.separated.settled_of_accepting hacc)
    have hlast := hpath.append (Path.nil_iff_reaches.2 hreach)
    rw [List.append_nil] at hlast
    exact ⟨t, (hmem t).2 ⟨ht, hlast⟩⟩

section runFrom

variable {m : Automaton} {live : StateSet} {consumed : Array (Char × Nat)} {word : List Char}
  {r : Run}

theorem consumed_of_runFrom_nil (h : m.runFrom live consumed [] = .ok r) :
    r.consumed = consumed := by
  rw [runFrom] at h
  cases hb : m.isAccepting live with
  | error e =>
    rw [hb] at h
    cases h
  | ok b =>
    rw [hb] at h
    exact congrArg Run.consumed (Except.ok.inj h).symm

theorem consumed_of_runFrom_dead (hdead : live.isEmpty = true)
    (h : m.runFrom live consumed word = .ok r) : r.consumed = consumed := by
  cases word with
  | nil => exact consumed_of_runFrom_nil h
  | cons c word =>
    rw [runFrom_dead hdead] at h
    exact congrArg Run.consumed (Except.ok.inj h).symm

theorem reads_of_runFrom {L : Language Char} (hnil : Viable L [])
    (hlive : ∀ u, ∃ after, u.foldlM m.advance live = .ok after ∧
      (after.isEmpty = false ↔ Viable L u))
    (h : m.runFrom live consumed word = .ok r) :
    ∃ entries, r.consumed.toList = consumed.toList ++ entries ∧
      ReadsWhileViable L word (entries.map Prod.fst) ∧ ∀ x ∈ entries.dropLast, 0 < x.2 := by
  -- behind a character the rest of the run is about what is left of the language
  induction word generalizing L live consumed with
  | nil => exact ⟨[], by simp [consumed_of_runFrom_nil h], .nil hnil, by simp⟩
  | cons c word ih =>
    obtain ⟨first, hfirst, halive⟩ := hlive []
    obtain rfl := Except.ok.inj hfirst
    obtain ⟨next, hnext, hviable⟩ := hlive [c]
    have hadvance : m.advance live c = .ok next := by simpa using hnext
    rw [runFrom_alive (halive.2 hnil) hadvance] at h
    by_cases hc : Viable L [c]
    · have hrest : ∀ u, ∃ after, u.foldlM m.advance next = .ok after ∧
          (after.isEmpty = false ↔ Viable (L.leftQuotient [c]) u) := by
        intro u
        obtain ⟨after, hafter, hiff⟩ := hlive (c :: u)
        rw [List.foldlM_cons, hadvance] at hafter
        exact ⟨after, hafter, hiff⟩
      obtain ⟨entries, hentries, hreads, hpos⟩ := ih hc hrest h
      refine ⟨(c, next.size) :: entries, by simp [hentries], hreads.cons hnil, fun x hx => ?_⟩
      have hsize : 0 < next.size := by
        have hne := hviable.2 hc
        rw [Std.ExtTreeSet.isEmpty_eq_size_beq_zero, beq_eq_false_iff_ne] at hne
        exact Nat.pos_of_ne_zero hne
      cases entries with
      | nil => simp at hx
      | cons y entries =>
        rw [List.dropLast_cons_of_ne_nil (List.cons_ne_nil y entries)] at hx
        rcases List.mem_cons.1 hx with rfl | hx
        · exact hsize
        · exact hpos x hx
    · have hdead : next.isEmpty = true := by
        by_contra hne
        exact hc (hviable.1 (Bool.eq_false_of_not_eq_true hne))
      have hr := consumed_of_runFrom_dead hdead h
      exact ⟨[(c, next.size)], by simp [hr], .last hnil hc word, by simp⟩

end runFrom

/-- What `run` says about its reading when `L` is matched. -/
def ReadsInput (m : Automaton) (L : Language Char) (input : String) (run : Run) : Prop :=
  m.run input = .ok run ∧ ReadsWhileViable L input.toList (run.consumed.toList.map Prod.fst) ∧
    ∀ x ∈ run.consumed.toList.dropLast, 0 < x.2

theorem exists_run_of_isMatch {m : Automaton} {input : String} {b : Bool}
    (h : m.isMatch input = .ok b) : ∃ r, m.run input = .ok r := by
  cases hr : m.run input with
  | error e =>
    rw [isMatch, hr] at h
    cases h
  | ok r => exact ⟨r, rfl⟩

theorem Recognizes.exists_readsInput {m : Automaton} {L : Language Char} (h : m.Recognizes L)
    (input : String) : ∃ r, m.ReadsInput L input r := by
  obtain ⟨b, hb, -⟩ := h.isMatch_eq_ok input
  obtain ⟨r, hr⟩ := exists_run_of_isMatch hb
  obtain ⟨first, hstart, -⟩ := h.closed.startStates_eq_ok
  have hrun : m.runFrom first #[] input.toList = .ok r := by
    rw [run, hstart] at hr
    exact hr
  have hlive : ∀ u, ∃ after, u.foldlM m.advance first = .ok after ∧
      (after.isEmpty = false ↔ Viable L u) := by
    intro u
    obtain ⟨after, hafter, hiff⟩ := h.tracksViability u
    rw [liveAfter, hstart] at hafter
    exact ⟨after, hafter, hiff⟩
  obtain ⟨entries, hentries, hreads, hpos⟩ := reads_of_runFrom h.viable_nil hlive hrun
  obtain rfl : r.consumed.toList = entries := by simpa using hentries
  exact ⟨r, hr, hreads, hpos⟩

end Automaton

namespace Journal

theorem activity_of_mem_construction {postorder : List Token} {e : Event}
    (h : e ∈ construction postorder) : e.activity = .compilation := by
  cases postorder with
  | nil => cases h
  | cons t ts =>
    simp only [construction] at h
    split at h
    · obtain rfl := List.mem_singleton.1 h
      rfl
    · cases h

theorem activity_of_mem_compilation {pattern : String} {e : Event}
    (h : e ∈ compilation pattern) : e.activity = .compilation := by
  rw [compilation, List.mem_cons] at h
  rcases h with rfl | h
  · rfl
  · split at h
    · rcases List.mem_cons.1 h with rfl | h
      · rfl
      · exact activity_of_mem_construction h
    · cases h

theorem activity_of_mem_matching {run : Run} {e : Event} (h : e ∈ matching run) :
    e.activity = .matching := by
  obtain ⟨x, -, rfl⟩ := List.mem_map.1 h
  rfl

theorem filter_record {pattern input : String} {m : Automaton} {run : Run}
    (hm : Automaton.ofPattern pattern = .ok m) (hrun : m.run input = .ok run) :
    (record pattern input).1.filter (fun e => e.activity == .matching) = matching run := by
  have hcompilation : (compilation pattern).filter (fun e => e.activity == .matching) = [] :=
    List.filter_eq_nil_iff.2 fun e he => by simp [activity_of_mem_compilation he]
  have hmatching : (matching run).filter (fun e => e.activity == .matching) = matching run :=
    List.filter_eq_self.2 fun e he => by simp [activity_of_mem_matching he]
  simp only [record, hm, hrun, List.filter_append, hcompilation, hmatching, List.nil_append]

end Journal

def Means (pattern : String) (L : Language Char) : Prop :=
  (∃ e, Spells pattern e ∧ e.constructible = true ∧ L = e.language) ∨
    ∃ n, pattern = nested n ∧ L = 1

namespace Automaton

theorem ofPattern_of_means {pattern : String} {L : Language Char} (h : Means pattern L) :
    ∃ m, ofPattern pattern = .ok m ∧ m.Recognizes L := by
  rcases h with ⟨e, he, hc, rfl⟩ | ⟨n, rfl, rfl⟩
  · exact ofPattern_of_spells he hc
  · exact ofPattern_nested n

theorem exists_means_of_ofPattern {pattern : String} {m : Automaton}
    (h : ofPattern pattern = .ok m) : ∃ L, Means pattern L := by
  obtain ⟨out, hparse, hm⟩ := exists_parse_of_ofPattern h
  obtain ⟨L, hL, -⟩ := exists_recognizes_of_ofPostorder hm
  rcases spells_or_nested hparse hL with ⟨e, he, hc⟩ | ⟨n, hn⟩
  · exact ⟨e.language, .inl ⟨e, he, hc, rfl⟩⟩
  · exact ⟨1, .inr ⟨n, hn, rfl⟩⟩

/-- In an automaton built from tokens every state is on the way from the start to the accepting
state, and some state is live exactly as long as a match can still follow. -/
theorem live_iff_viable :
    (∀ ts m, ofPostorder ts = .ok m → m.Trim ∧ ∃ L, Denotation.ofPostorder? ts = some L ∧
      m.TracksViability L ∧ ∀ input, ∃ run, m.ReadsInput L input run) ∧
    ∀ pattern m, ofPattern pattern = .ok m → m.Trim ∧ (∃ L, Means pattern L) ∧
      ∀ L, Means pattern L → m.TracksViability L ∧
        ∀ input, ∃ run, m.ReadsInput L input run ∧
          (Journal.record pattern input).1.filter (fun e => e.activity == .matching) =
            run.consumed.toList.map fun (c, live) => .consumed c live := by
  constructor
  · intro ts m h
    obtain ⟨L, hL, hrec⟩ := exists_recognizes_of_ofPostorder h
    exact ⟨hrec.trim, L, hL, hrec.tracksViability, hrec.exists_readsInput⟩
  · intro pattern m h
    have hrecognizes : ∀ L, Means pattern L → m.Recognizes L := by
      intro L hL
      obtain ⟨m', hm', hrec⟩ := ofPattern_of_means hL
      rw [h] at hm'
      rwa [Except.ok.inj hm']
    obtain ⟨L, hL⟩ := exists_means_of_ofPattern h
    refine ⟨(hrecognizes L hL).trim, ⟨L, hL⟩, fun L' hL' => ?_⟩
    refine ⟨(hrecognizes L' hL').tracksViability, fun input => ?_⟩
    obtain ⟨run, hreads⟩ := (hrecognizes L' hL').exists_readsInput input
    exact ⟨run, hreads, Journal.filter_record h hreads.1⟩

theorem live_iff_viable_starred :
    (∃ m, ofPostorder [.literal 'a', .star] = .ok m ∧ m.Trim ∧
      m.TracksViability (KStar.kstar {['a']})) ∧
    ∃ m, ofPattern "a*b" = .ok m ∧ m.Trim ∧
      ∀ input, ∃ run, m.ReadsInput (KStar.kstar {['a']} * {['b']}) input run := by
  constructor
  · have hL : Denotation.ofPostorder? [.literal 'a', .star] = some (KStar.kstar {['a']}) := rfl
    obtain ⟨m, hm, -⟩ := ofPostorder_eq_ok hL
    obtain ⟨htrim, L, hL', htracks, -⟩ := live_iff_viable.1 _ m hm
    rw [hL] at hL'
    exact ⟨m, hm, htrim, Option.some.inj hL' ▸ htracks⟩
  · have hterm := Derives.juxtaposed (.factor (Derives.literal 'a').star) (.literal 'b')
    have hspells : Spells "a*b" _ := ⟨_, hterm.term, by simp [reservedChars], rfl⟩
    have hmeans : Means "a*b" _ := .inl ⟨_, hspells, rfl, rfl⟩
    obtain ⟨m, hm, -⟩ := ofPattern_of_means hmeans
    obtain ⟨htrim, -, hread⟩ := live_iff_viable.2 _ m hm
    refine ⟨m, hm, htrim, fun input => ?_⟩
    obtain ⟨run, hreads, -⟩ := (hread _ hmeans).2 input
    exact ⟨run, hreads⟩

end Automaton

end PatternAutomata
