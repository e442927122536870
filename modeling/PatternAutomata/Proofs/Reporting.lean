import Mathlib.Tactic.Choose
import PatternAutomata.CommandLine
import PatternAutomata.Proofs.Accesses
import PatternAutomata.Proofs.Delimiting

/-!
# What the command line reports

The command line reorders a pattern and builds its automaton in two steps of its own, to print the
postorder between them, where compiling does both at once. The two agree. The step at which the
command line stops can be told from the error that compiling gives, because each step has complaints
of its own. Where the pattern compiles, every input gets a line, and it says what the compiled
pattern answers.
-/

namespace PatternAutomata

theorem Pattern.exists_accepts_of_compile {text : String} {p : Pattern}
    (h : compile text = .ok p) (input : String) :
    ∃ b, p.automaton.isMatch input = .ok b ∧ p.accepts input = .ok b := by
  obtain ⟨b, hb⟩ := (closed_of_compile h).answers.isMatch input
  refine ⟨b, hb, ?_⟩
  rw [accepts, hb]
  rfl

namespace Text

theorem le_toNat_digitChar : ∀ d < 16, 0x20 ≤ (Nat.digitChar d).toNat := by
  decide

theorem le_toNat_of_mem_byNumber {c d : Char} (h : d ∈ byNumber c) : 0x20 ≤ d.toNat := by
  simp only [byNumber, List.mem_append, List.mem_cons, List.not_mem_nil, or_false] at h
  rcases h with ((rfl | rfl | rfl) | hd) | rfl
  · decide
  · decide
  · decide
  · obtain ⟨n, hn, rfl⟩ := exists_digitChar_of_mem (by decide) hd
    exact le_toNat_digitChar n hn
  · decide

theorem le_toNat_of_mem_letters {delimiter : Char} (hdelimiter : delimiter ∈ delimiters) :
    ∀ x ∈ letters delimiter, 0x20 ≤ x.2.toNat := by
  rcases delimiter_eq hdelimiter with rfl | rfl <;> decide

theorem le_toNat_of_mem_escape {delimiter c d : Char} (hdelimiter : delimiter ∈ delimiters)
    (h : d ∈ escape delimiter c) : 0x20 ≤ d.toNat := by
  have hc := escaped_escape delimiter c
  generalize escape delimiter c = u at h hc
  cases hc with
  | letter hl =>
    rcases List.mem_cons.1 h with rfl | h
    · decide
    · obtain rfl := List.mem_singleton.1 h
      exact le_toNat_of_mem_letters hdelimiter _ hl
  | number => exact le_toNat_of_mem_byNumber h
  | plain _ _ hprintable =>
    obtain rfl := List.mem_singleton.1 h
    exact Nat.le_of_not_lt fun hlt => hprintable (isUnprintable_of_lt hlt)

theorem quoteString_eq (s : String) : quoteString s =
    "\x22" ++ String.ofList (s.toList.flatMap (escape '\x22')) ++ "\x22" := by
  rw [← String.toList_inj]
  simp [quoteString, toList_quote]

end Text

theorem CompileError.message_injective {cause cause' : CompileError}
    (h : cause.message = cause'.message) : cause = cause' := by
  -- messages of different kinds differ in the third letter
  have hletter := congrArg (fun s => s.toList[2]?) h
  rcases cause with ⟨_ | _⟩ | c | n <;> rcases cause' with ⟨_ | _⟩ | d | k <;> simp at hletter
  · rfl
  · simp at h
  · simp at h
  · rfl
  · have hc : c = d := by simpa using h
    rw [hc]
  · have hdigits : toString n = toString k :=
      (String.append_right_inj _).1 ((String.append_left_inj _).1 h)
    have hnumber : Text.number n ++ [] = Text.number k ++ [] :=
      congrArg (fun s => s.toList ++ []) hdigits
    rw [(Text.number_append_inj (by simp [Text.NoDigit]) (by simp [Text.NoDigit]) hnumber).1]

namespace CommandLine

theorem unlines_cons (line : String) (lines : List String) :
    unlines (line :: lines) = line ++ "\n" ++ unlines lines := by
  simp [unlines]

theorem unlines_append (lines lines' : List String) :
    unlines (lines ++ lines') = unlines lines ++ unlines lines' := by
  simp [unlines]

/-- The input between quotation marks, with its escapes, and whether it is matched. -/
def verdictLine (input : String) (matched : Bool) : String :=
  "\x22" ++ String.ofList (input.toList.flatMap (Text.escape '\x22')) ++ "\x22" ++
    (if matched then ": match" else ": no match")

theorem le_toNat_of_mem_verdictLine {input : String} {matched : Bool} {c : Char}
    (h : c ∈ (verdictLine input matched).toList) : 0x20 ≤ c.toNat := by
  have hquote : ("\x22".toList.all fun c => 0x20 ≤ c.toNat) = true := by decide
  have hverdict : ((if matched then ": match" else ": no match").toList.all
      fun c => 0x20 ≤ c.toNat) = true := by cases matched <;> decide
  simp only [List.all_eq_true, decide_eq_true_eq] at hquote hverdict
  simp only [verdictLine, String.toList_append, List.mem_append, String.toList_ofList,
    List.mem_flatMap] at h
  rcases h with ((hopen | ⟨d, -, hd⟩) | hclose) | hmatched
  · exact hquote c hopen
  · exact Text.le_toNat_of_mem_escape (by simp [Text.delimiters]) hd
  · exact hquote c hclose
  · exact hverdict c hmatched

theorem verdictLine_inj {input input' : String} {matched matched' : Bool}
    (h : verdictLine input matched = verdictLine input' matched') :
    input = input' ∧ matched = matched' := by
  have hlist := congrArg String.toList h
  rw [verdictLine, verdictLine, ← Text.quoteString_eq, ← Text.quoteString_eq,
    String.toList_append, String.toList_append] at hlist
  obtain ⟨hinput, htail⟩ := Text.selfDelimiting_quoteString _ _ _ _ hlist
  refine ⟨hinput, ?_⟩
  cases matched <;> cases matched' <;> simp_all

section

variable {m : Automaton} {matched : String → Bool}

theorem verdict_eq_ok {input : String} (h : m.isMatch input = .ok (matched input)) :
    verdict m input = .ok (verdictLine input (matched input)) := by
  rw [verdict, h, verdictLine, ← Text.quoteString_eq]
  cases matched input <;> simp [String.append_assoc]

theorem report_eq (h : ∀ input, m.isMatch input = .ok (matched input))
    (printed inputs : List String) : report m printed inputs = ⟨0, unlines printed ++
      String.join (inputs.map fun input => verdictLine input (matched input) ++ "\n"), ""⟩ := by
  induction inputs generalizing printed with
  | nil => simp [report]
  | cons input inputs ih =>
    rw [report, verdict_eq_ok (h input)]
    simp only [ih, unlines_append, unlines_cons, List.map_cons, String.join_cons,
      String.append_assoc]
    rfl

end

variable {pattern : String} {inputs : List String} {postorder : List Token} {cause : CompileError}

theorem run_of_parse_eq_error (h : parse pattern = .error cause) :
    run (pattern :: inputs) = ⟨1, "=== Pattern: '" ++ pattern ++ "' ===\n",
      "Failed to parse pattern: " ++ cause.message ++ "\n"⟩ := by
  rw [run, runPattern, h]
  simp [fail, unlines, header, String.append_assoc]

theorem run_of_ofPostorder_eq_error (h : parse pattern = .ok postorder)
    (hm : Automaton.ofPostorder postorder = .error (.compile cause)) :
    run (pattern :: inputs) =
      ⟨1, "=== Pattern: '" ++ pattern ++ "' ===\n" ++ ("Postfix: " ++ render postorder ++ "\n"),
        "Failed to compile: " ++ cause.message ++ "\n"⟩ := by
  rw [run, runPattern, h]
  simp [hm, fail, unlines, header, postorderLine, String.append_assoc]

theorem run_of_ofPostorder_eq_ok {m : Automaton} {matched : String → Bool}
    (h : parse pattern = .ok postorder) (hm : Automaton.ofPostorder postorder = .ok m)
    (hmatched : ∀ input, m.isMatch input = .ok (matched input)) :
    run (pattern :: inputs) =
      ⟨0, "=== Pattern: '" ++ pattern ++ "' ===\n" ++ ("Postfix: " ++ render postorder ++ "\n") ++
        ("Start state: " ++ toString m.start ++ "\n") ++
        ("Accepting states: " ++ listIds m.acceptingIds ++ "\n") ++ (m.listing ++ "\n") ++
        String.join (inputs.map fun input => verdictLine input (matched input) ++ "\n"), ""⟩ := by
  rw [run, runPattern, h]
  simp [hm, report_eq hmatched, unlines, header, postorderLine, automatonLines, String.append_assoc]

theorem parse_text_ne_build_text (a b : String) :
    "Failed to parse pattern: " ++ a ++ "\n" ≠ "Failed to compile: " ++ b ++ "\n" := by
  intro h
  have hletter := congrArg (fun s => s.toList[10]?) h
  simp at hletter

/-- The outcome for a pattern that compiles to `p`. Behind what describes the automaton each input
has a line with the answer of `p`. No control character, and so no line feed, stands in that line,
and another input or answer has another line. -/
structure ReportsAnswers (pattern : String) (p : Pattern) (inputs : List String)
    (outcome : Outcome) : Prop where
  exitCode_eq : outcome.exitCode = 0
  stderr_eq : outcome.stderr = ""
  stdout_eq : ∃ (postorder : List Token) (matched : String → Bool),
    parse pattern = .ok postorder ∧ (∀ input, p.accepts input = .ok (matched input)) ∧
    outcome.stdout =
      "=== Pattern: '" ++ pattern ++ "' ===\n" ++ ("Postfix: " ++ render postorder ++ "\n") ++
        ("Start state: " ++ toString p.automaton.start ++ "\n") ++
        ("Accepting states: " ++ listIds p.automaton.acceptingIds ++ "\n") ++
        (p.automaton.listing ++ "\n") ++
        String.join (inputs.map fun input => verdictLine input (matched input) ++ "\n")
  noControl : ∀ input matched, ∀ c ∈ (verdictLine input matched).toList, 0x20 ≤ c.toNat
  line_inj : ∀ input input' matched matched',
    verdictLine input matched = verdictLine input' matched' → input = input' ∧ matched = matched'

/-- The outcome for a pattern that does not compile because of `cause`, which its message tells. -/
structure ReportsCause (pattern : String) (cause : CompileError) (outcome : Outcome) : Prop where
  exitCode_eq : outcome.exitCode = 1
  parse_iff : outcome.stdout = "=== Pattern: '" ++ pattern ++ "' ===\n" ∧
      outcome.stderr = "Failed to parse pattern: " ++ cause.message ++ "\n" ↔
    cause.OfReordering
  build_iff : (∃ postorder, parse pattern = .ok postorder ∧
        outcome.stdout =
          "=== Pattern: '" ++ pattern ++ "' ===\n" ++ ("Postfix: " ++ render postorder ++ "\n")) ∧
      outcome.stderr = "Failed to compile: " ++ cause.message ++ "\n" ↔
    cause.OfBuilding
  message_inj : ∀ cause' : CompileError, cause'.message = cause.message → cause' = cause

theorem reportsCause_of_parse (h : parse pattern = .error cause) (hcause : cause.OfReordering) :
    ReportsCause pattern cause (run (pattern :: inputs)) := by
  rw [run_of_parse_eq_error h]
  refine ⟨rfl, ⟨fun _ => hcause, fun _ => ⟨rfl, rfl⟩⟩, ⟨?_, fun hb => ?_⟩,
    fun _ => CompileError.message_injective⟩
  · rintro ⟨-, htext⟩
    exact absurd htext (parse_text_ne_build_text cause.message cause.message)
  · exact absurd hcause hb.not_ofReordering

theorem reportsCause_of_ofPostorder (h : parse pattern = .ok postorder)
    (hm : Automaton.ofPostorder postorder = .error (.compile cause)) (hcause : cause.OfBuilding) :
    ReportsCause pattern cause (run (pattern :: inputs)) := by
  rw [run_of_ofPostorder_eq_error h hm]
  refine ⟨rfl, ⟨?_, fun hr => ?_⟩, ⟨fun _ => hcause, fun _ => ⟨⟨postorder, h, rfl⟩, rfl⟩⟩,
    fun _ => CompileError.message_injective⟩
  · rintro ⟨-, htext⟩
    exact absurd htext.symm (parse_text_ne_build_text cause.message cause.message)
  · exact absurd hr hcause.not_ofReordering

/-- The command line reports the answers of the pattern where it compiles, and else the cause, at
the step that it belongs to. -/
theorem run_agrees_with_compile (pattern : String) (inputs : List String) :
    match Pattern.compile pattern with
    | .ok p => ReportsAnswers pattern p inputs (run (pattern :: inputs))
    | .error e =>
      ∃ cause, e = .compile cause ∧ ReportsCause pattern cause (run (pattern :: inputs)) := by
  cases hp : Pattern.compile pattern with
  | ok p =>
    obtain ⟨postorder, hparse, hm⟩ :=
      Automaton.exists_parse_of_ofPattern (Pattern.ofPattern_of_compile hp)
    choose matched hmatch haccepts using Pattern.exists_accepts_of_compile hp
    rw [run_of_ofPostorder_eq_ok hparse hm hmatch]
    exact ⟨rfl, rfl, ⟨postorder, matched, hparse, haccepts, rfl⟩,
      fun _ _ _ => le_toNat_of_mem_verdictLine,
      fun _ _ _ _ => verdictLine_inj⟩
  | error e =>
    obtain ⟨cause, rfl, hstep⟩ := Pattern.exists_step_of_compile hp
    refine ⟨cause, rfl, ?_⟩
    rcases hstep with ⟨hparse, hcause⟩ | ⟨postorder, hparse, hm, hcause⟩
    · exact reportsCause_of_parse hparse hcause
    · exact reportsCause_of_ofPostorder hparse hm hcause

end CommandLine

end PatternAutomata
