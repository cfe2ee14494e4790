import TLang.Compilation
import TLang.Proofs.Typing.Program

/-! The outcome of a compilation. For a program as it is read there are three, and the diagnostics
tell which: a terminal fault ends the compilation, a variable that is not declared makes code generation
refuse, and otherwise there is code. Faults of the last kind are redeclarations only. -/
namespace TLang

open Registry Emit

variable {names : String → Prop} {options : Options} {result : Compilation}

/-- A fault that code generation does not notice: a declaration was dropped. -/
def Fault.isDropped (f : Fault) : Bool := f.isFieldRedeclaration || f.isDuplicateVariable

theorem Fault.cases_of_quiet {f : Fault}
    (h : f.isFieldRedeclaration = true ∨ f.isVariableFault = true) :
    f.severity = .nonterminal ∧ (f.isUndeclaredVariable = true ∨ f.isDropped = true) := by
  rw [isDropped, Bool.or_eq_true]
  unfold isVariableFault at h
  rw [Bool.or_eq_true] at h
  cases f with
  | redeclared member className =>
    cases member with
    | field name => exact ⟨rfl, .inr (.inl rfl)⟩
    | method _ | destructor => simp [isFieldRedeclaration, isUndeclaredVariable, isDuplicateVariable] at h
  | undeclaredVariable name => exact ⟨rfl, .inl rfl⟩
  | duplicateVariable name => exact ⟨rfl, .inr (.inr rfl)⟩
  | _ => simp [isFieldRedeclaration, isUndeclaredVariable, isDuplicateVariable] at h

/-- Dropping a declaration is neither terminal nor a fault of a use. -/
theorem Diagnostic.of_isDropped {d : Diagnostic} (h : d.fault.isDropped = true) :
    d.isTerminal = false ∧ d.fault.isUndeclaredVariable = false := by
  rw [Fault.isDropped, Bool.or_eq_true] at h
  obtain ⟨line, fault⟩ := d
  cases fault with
  | redeclared member className =>
    cases member with
    | field name => exact ⟨rfl, rfl⟩
    | method _ | destructor => simp [Fault.isFieldRedeclaration, Fault.isDuplicateVariable] at h
  | duplicateVariable name => exact ⟨rfl, rfl⟩
  | _ => simp [Fault.isFieldRedeclaration, Fault.isDuplicateVariable] at h

namespace Program

/-- All that a compilation reports. -/
def diagnostics (p : Program) : List Diagnostic := (p.analyze {}).log

/-- The tree for which a compilation generates code. -/
def analyzed (p : Program) : Program := (p.analyze {}).value.1

/-- The environment that analysis leaves behind. -/
def env (p : Program) : Env := (p.analyze {}).value.2

theorem analyze_eq (p : Program) :
    Context.analyze {} p = (p.analyzed, { env := p.env, diagnostics := p.diagnostics }) := by
  simp only [Context.analyze, StateT.run, List.nil_append, analyzed, env, diagnostics]

/-- A compilation in terms of its diagnostics and of the code of the analyzed tree. -/
theorem compile_eq (options : Options) (p : Program) : p.compile options =
      if p.diagnostics.any Diagnostic.isTerminal then .error (.aborted p.diagnostics)
      else match p.analyzed.code p.env.types {} with
        | ⟨(.error refusal, _), _⟩ => .error (.codeGeneration refusal)
        | ⟨(.ok (), _), lines⟩ => .ok {
            assembly := Line.fileText lines
            warnings := p.diagnostics
            listings := p.listings options p.analyzed p.env.types } := by
  simp only [compile, analyze_eq, Context.isAborted, Generator.generate, Generator.run, List.nil_append]
  refine if_congr Iff.rfl rfl ?_
  rcases p.analyzed.code p.env.types {} with ⟨⟨outcome, t⟩, lines⟩
  cases outcome <;> rfl

variable {p : Program}

/-- What is known of a program as it is read if nothing terminal is reported. -/
theorem analyzed_of_quiet (hFresh : p.isFresh = true) (hEquals : names "equals") (hNames : p.MethodNames names)
    (hQuiet : Quiet p.diagnostics) : Analyzed names p p.diagnostics p.analyzed p.env :=
  yields_analyze hFresh hEquals hNames hQuiet

theorem compile_cases (options : Options) (hFresh : p.isFresh = true) :
    ((∃ d ∈ p.diagnostics, d.isTerminal = true) ∧ p.compile options = .error (.aborted p.diagnostics)) ∨
      (Quiet p.diagnostics ∧ (∃ d ∈ p.diagnostics, d.fault.isUndeclaredVariable = true) ∧
        ∃ refusal, p.compile options = .error (.codeGeneration refusal) ∧
          ∃ s ∈ p.analyzed.statements, s.Blocks refusal) ∨
      ((∀ d ∈ p.diagnostics, d.fault.isDropped = true) ∧ ∃ result, p.compile options = .ok result) := by
  rw [compile_eq]
  by_cases hTerminal : ∃ d ∈ p.diagnostics, d.isTerminal = true
  · exact .inl ⟨hTerminal, if_pos (List.any_eq_true.mpr hTerminal)⟩
  · have hQuiet : Quiet p.diagnostics := by simpa [Quiet] using hTerminal
    have h := analyzed_of_quiet hFresh trivial (.trivial p) hQuiet
    rw [if_neg (by rwa [List.any_eq_true])]
    rcases h.verdict {} (by rintro ⟨⟩) with
      ⟨hNone, ⟨⟩, t, lines, hOk, -⟩ | ⟨hSome, r, t, lines, hError, hr⟩
    · have hCode : p.analyzed.code p.env.types {} = ⟨(.ok (), t), lines⟩ := hOk
      rw [hCode]
      refine .inr (.inr ⟨?_, _, rfl⟩)
      intro d hd
      refine (Fault.cases_of_quiet (h.faults d hd)).2.resolve_left ?_
      exact List.any_eq_false.mp hNone d hd
    · have hCode : p.analyzed.code p.env.types {} = ⟨(.error r, t), lines⟩ := hError
      rw [hCode]
      exact .inr (.inl ⟨hQuiet, List.any_eq_true.mp hSome, r, rfl, hr⟩)

/-- A successful compilation reported nothing terminal, and its assembly is the code of the analyzed
tree. -/
theorem compile_eq_ok (hOk : p.compile options = .ok result) : Quiet p.diagnostics ∧
      ∃ t lines, p.analyzed.code p.env.types {} = ⟨(.ok (), t), lines⟩ ∧
        result.assembly = Line.fileText lines := by
  rw [compile_eq] at hOk
  split at hOk
  · cases hOk
  · rename_i hTerminal
    rcases hCode : p.analyzed.code p.env.types {} with ⟨⟨outcome, t⟩, lines⟩
    rw [hCode] at hOk
    cases outcome with
    | error refusal => cases hOk
    | ok _ =>
      cases hOk
      exact ⟨by simpa [Quiet] using hTerminal, t, lines, rfl, rfl⟩

/-- What there is to know of a program that compiles, once it is known to. -/
theorem exists_assembly (h : (p.compile options).toOption.isSome = true) :
    ∃ result, p.compile options = .ok result ∧
      result.assembly = Line.fileText (p.analyzed.code p.env.types {}).log := by
  cases hOk : p.compile options with
  | error error =>
    rw [hOk] at h
    cases h
  | ok result =>
    obtain ⟨-, t, lines, hCode, hAssembly⟩ := compile_eq_ok hOk
    exact ⟨result, rfl, by rw [hCode, hAssembly]⟩

/-- A program that compiles is well typed. -/
theorem typed_of_compile_eq_ok (hFresh : p.isFresh = true) (hEquals : names "equals")
    (hNames : p.MethodNames names) (hOk : p.compile options = .ok result) :
    p.env.WellFormed names ∧ p.analyzed.Typed p.env (p.env.Selects names) ∧
      p.env.types.classes.map ClassInfo.name = objectName :: p.classes.map ClassDecl.name := by
  obtain ⟨hQuiet, t, lines, hCode, -⟩ := compile_eq_ok hOk
  have h := analyzed_of_quiet hFresh hEquals hNames hQuiet
  refine ⟨h.wellFormed, h.typed ?_, h.classNames⟩
  rcases h.verdict {} (by rintro ⟨⟩) with ⟨hNone, -⟩ | ⟨-, r, t', lines', hError, -⟩
  · exact hNone
  · have hCode' : p.analyzed.code p.env.types {} = ⟨(.error r, t'), lines'⟩ := hError
    rw [hCode] at hCode'
    cases hCode'

/-- For a program as it is read, the diagnostics decide how a compilation ends: it is aborted if one
of them is terminal, refused if none is and a variable is not declared, and otherwise successful. A
refusal is on account of an expression in error, and names it or the call of a constructor of which it
is an argument; no other refusal is possible. -/
theorem compile_outcome (options : Options) (p : Program) (hFresh : p.isFresh = true) :
    (p.compile options = .error (.aborted p.diagnostics) ↔ ∃ d ∈ p.diagnostics, d.isTerminal = true) ∧
      ((∃ refusal, p.compile options = .error (.codeGeneration refusal)) ↔
        (∀ d ∈ p.diagnostics, d.isTerminal = false) ∧
          ∃ d ∈ p.diagnostics, d.fault.isUndeclaredVariable = true) ∧
      ((∃ result, p.compile options = .ok result) ↔ ∀ d ∈ p.diagnostics, d.fault.isDropped = true) ∧
      (∀ error, p.compile options = .error error →
        error = .aborted p.diagnostics ∨ ∃ refusal, error = .codeGeneration refusal ∧
          ∃ s ∈ p.analyzed.statements, ∃ e ∈ s.operands, e.ty = .error ∧ refusal = s.refusalFor e) := by
  rcases compile_cases options hFresh with ⟨hTerminal, hEq⟩ | ⟨hQuiet, hUndeclared, r, hEq, hr⟩ |
    ⟨hDropped, result, hEq⟩
  · obtain ⟨d, hd, hd'⟩ := hTerminal
    rw [hEq]
    refine ⟨iff_of_true rfl ⟨d, hd, hd'⟩, iff_of_false nofun ?_, iff_of_false nofun ?_, ?_⟩
    · rintro ⟨hQuiet, -⟩
      exact Bool.false_ne_true ((hQuiet d hd).symm.trans hd')
    · intro hDropped
      exact Bool.false_ne_true ((Diagnostic.of_isDropped (hDropped d hd)).1.symm.trans hd')
    · rintro error hError
      cases hError
      exact .inl rfl
  · obtain ⟨d, hd, hd'⟩ := hUndeclared
    rw [hEq]
    refine ⟨iff_of_false nofun ?_, iff_of_true ⟨r, rfl⟩ ⟨hQuiet, d, hd, hd'⟩, iff_of_false nofun ?_, ?_⟩
    · rintro ⟨d, hd, hTerminal⟩
      exact Bool.false_ne_true ((hQuiet d hd).symm.trans hTerminal)
    · intro hDropped
      exact Bool.false_ne_true ((Diagnostic.of_isDropped (hDropped d hd)).2.symm.trans hd')
    · rintro error hError
      cases hError
      exact .inr ⟨r, rfl, hr⟩
  · rw [hEq]
    refine ⟨iff_of_false nofun ?_, iff_of_false nofun ?_, iff_of_true ⟨result, rfl⟩ hDropped, nofun⟩
    · rintro ⟨d, hd, hTerminal⟩
      exact Bool.false_ne_true ((Diagnostic.of_isDropped (hDropped d hd)).1.symm.trans hTerminal)
    · rintro ⟨-, d, hd, hUndeclared⟩
      exact Bool.false_ne_true ((Diagnostic.of_isDropped (hDropped d hd)).2.symm.trans hUndeclared)

/-- A class whose constructor hands an undeclared variable over to its parent. -/
def unboundHandOver : Program where
  classes := [{
    line := 1
    name := "A"
    members := [.method {
      line := 2
      kind := .constructor
      name := "A"
      body := [.construct 3 .super [.var 4 "x" none] none] }] }]
  main := ⟨6, []⟩

/-- An undeclared variable can show as an unresolved call of a constructor, although nothing but the
variable is reported. -/
theorem compile_unboundHandOver : unboundHandOver.isFresh = true ∧
      unboundHandOver.diagnostics = [⟨4, .undeclaredVariable "x"⟩] ∧
      unboundHandOver.compile {} = .error (.codeGeneration (.unresolvedConstructor 3)) := by
  refine ⟨by decide, by decide +kernel, by decide +kernel⟩

theorem compile_outcome_unboundHandOver : unboundHandOver.isFresh = true ∧
      ∃ refusal, unboundHandOver.compile {} = .error (.codeGeneration refusal) :=
  ⟨by decide, (compile_outcome {} unboundHandOver (by decide)).2.1.mpr (by decide +kernel)⟩

end Program
end TLang
