import PatternAutomata.Proofs.Compilation

/-!
# Which step complains

A pattern is compiled in two steps, and an error tells which of them failed. Reordering only ever
complains about parentheses. Building complains about operators and operands, never about
parentheses: they are gone by then, and one among the tokens would count as an operator without a
rule.
-/

namespace PatternAutomata

namespace CompileError

def OfReordering (cause : CompileError) : Prop := ∃ side, cause = .unbalancedParentheses side

def OfBuilding (cause : CompileError) : Prop :=
  (∃ c, cause = .unsupportedOperator c) ∨ ∃ n, cause = .malformed n

theorem OfBuilding.not_ofReordering {cause : CompileError} (h : cause.OfBuilding) :
    ¬ cause.OfReordering := by
  rintro ⟨side, rfl⟩
  rcases h with ⟨c, h⟩ | ⟨n, h⟩
  · cases h
  · cases h

end CompileError

theorem eq_error_of_bind {ε α β : Type} {x : Except ε α} {f : α → Except ε β} {e : ε}
    (h : x >>= f = .error e) : x = .error e ∨ ∃ a, x = .ok a ∧ f a = .error e := by
  cases x with
  | error e' =>
    obtain rfl : e' = e := Except.error.inj h
    exact Or.inl rfl
  | ok a => exact Or.inr ⟨a, rfl, h⟩

theorem ofReordering_of_toPostorder {ts : List Token} {cause : CompileError}
    (h : toPostorder ts = .error cause) : cause.OfReordering := by
  have hend := endsAtDepth_toPostorder ts
  rw [h] at hend
  generalize ts.foldlM depthAfter 0 = depth? at hend
  rcases depth? with _ | _ | depth
  · exact ⟨.unopened, Except.error.inj hend⟩
  · obtain ⟨out, hout⟩ := hend
    cases hout
  · exact ⟨.unclosed, Except.error.inj hend⟩

namespace Builder

variable {cause : CompileError}

theorem extend_ne_compile (m : Automaton) (pending : List Fragment) (rule : EditM Fragment) :
    extend m pending rule ≠ .error (.compile cause) := by
  rw [extend]
  split <;> simp

theorem ofBuilding_of_malformed {pending : List Fragment}
    (h : (.error (malformed pending) : Except Error Builder) = .error (.compile cause)) :
    cause.OfBuilding := by
  cases h
  exact Or.inr ⟨_, rfl⟩

theorem ofBuilding_of_apply {b : Builder} {t : Token} (h : b.apply t = .error (.compile cause)) :
    cause.OfBuilding := by
  obtain ⟨m, pending⟩ := b
  cases t with
  | literal c => exact absurd h (extend_ne_compile m pending _)
  | star =>
    cases pending with
    | nil => exact ofBuilding_of_malformed h
    | cons inner rest => exact absurd h (extend_ne_compile m rest _)
  | union | concat =>
    rcases pending with _ | ⟨second, _ | ⟨first, rest⟩⟩
    · exact ofBuilding_of_malformed h
    · exact ofBuilding_of_malformed h
    · exact absurd h (extend_ne_compile m rest _)
  | optional | plus | openParen | closeParen =>
    cases h
    exact Or.inl ⟨_, rfl⟩

theorem ofBuilding_of_foldlM {ts : List Token} {b : Builder}
    (h : ts.foldlM apply b = .error (.compile cause)) : cause.OfBuilding := by
  induction ts generalizing b with
  | nil => cases h
  | cons t ts ih =>
    rcases eq_error_of_bind h with hstep | ⟨b', -, hrest⟩
    · exact ofBuilding_of_apply hstep
    · exact ih hrest

theorem ofBuilding_of_finish {b : Builder} (h : b.finish = .error (.compile cause)) :
    cause.OfBuilding := by
  obtain ⟨m, pending⟩ := b
  rcases pending with _ | ⟨f, _ | ⟨g, rest⟩⟩
  · cases h
    exact Or.inr ⟨_, rfl⟩
  · cases h
  · cases h
    exact Or.inr ⟨_, rfl⟩

end Builder

theorem Automaton.exists_ofBuilding_of_ofPostorder {ts : List Token} {e : Error}
    (h : ofPostorder ts = .error e) : ∃ cause, e = .compile cause ∧ cause.OfBuilding := by
  cases hL : Denotation.ofPostorder? ts with
  | some L =>
    obtain ⟨m, hm, -⟩ := ofPostorder_eq_ok hL
    rw [hm] at h
    cases h
  | none =>
    obtain ⟨cause, hcause⟩ := ofPostorder_eq_error hL
    rw [hcause] at h
    obtain rfl := Except.error.inj h
    refine ⟨cause, rfl, ?_⟩
    have hne : ts ≠ [] := by
      intro hts
      rw [hts] at hL
      cases hL
    rw [ofPostorder_of_ne_nil hne] at hcause
    rcases eq_error_of_bind hcause with hrun | ⟨b, -, hfinish⟩
    · exact Builder.ofBuilding_of_foldlM hrun
    · exact Builder.ofBuilding_of_finish hfinish

namespace Pattern

variable {text : String}

theorem ofPattern_of_compile {p : Pattern} (h : compile text = .ok p) :
    Automaton.ofPattern text = .ok p.automaton := by
  cases hm : Automaton.ofPattern text with
  | error e =>
    rw [compile, hm] at h
    cases h
  | ok m =>
    rw [compile_of_ofPattern hm] at h
    obtain rfl := Except.ok.inj h
    rfl

theorem exists_step_of_compile {e : Error} (h : compile text = .error e) :
    ∃ cause, e = .compile cause ∧
      (parse text = .error cause ∧ cause.OfReordering ∨
        ∃ postorder, parse text = .ok postorder ∧
          Automaton.ofPostorder postorder = .error (.compile cause) ∧ cause.OfBuilding) := by
  cases hparse : parse text with
  | error cause =>
    rw [compile, Automaton.ofPattern, hparse] at h
    obtain rfl : .compile cause = e := Except.error.inj h
    exact ⟨cause, rfl, Or.inl ⟨rfl, ofReordering_of_toPostorder hparse⟩⟩
  | ok postorder =>
    rw [compile, Automaton.ofPattern_of_parse hparse] at h
    cases hm : Automaton.ofPostorder postorder with
    | ok m =>
      rw [hm] at h
      cases h
    | error e' =>
      rw [hm] at h
      obtain rfl : e' = e := Except.error.inj h
      obtain ⟨cause, rfl, hbuilding⟩ := Automaton.exists_ofBuilding_of_ofPostorder hm
      exact ⟨cause, rfl, Or.inr ⟨postorder, rfl, hm, hbuilding⟩⟩

theorem compile_eq_error_iff {e : Error} :
    compile text = .error e ↔ Automaton.ofPattern text = .error e := by
  cases h : Automaton.ofPattern text with
  | error e' =>
    have hcompile : compile text = .error e' := by
      rw [compile, h]
      rfl
    rw [hcompile]
    simp
  | ok m =>
    rw [compile_of_ofPattern h]
    simp

theorem exists_parse_of_ofBuilding {cause : CompileError} (hcause : cause.OfBuilding)
    (h : compile text = .error (.compile cause)) :
    ∃ postorder, parse text = .ok postorder ∧
      Automaton.ofPostorder postorder = .error (.compile cause) := by
  obtain ⟨cause', heq, hstep⟩ := exists_step_of_compile h
  obtain rfl := Error.compile.inj heq
  rcases hstep with ⟨-, hreordering⟩ | ⟨postorder, hparse, hbuild, -⟩
  · exact absurd hreordering hcause.not_ofReordering
  · exact ⟨postorder, hparse, hbuild⟩

end Pattern

end PatternAutomata
