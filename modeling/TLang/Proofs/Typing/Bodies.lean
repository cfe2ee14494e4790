import TLang.Proofs.Typing.Acceptance
import TLang.Proofs.Typing.Frame
import TLang.Proofs.Typing.Statements

/-! Typing whole bodies. If nothing terminal is reported, a body is either well typed, and code is
generated for it, or one of its variables is not declared, and it is refused. -/
namespace TLang

open Registry Analysis Emit

variable {parts : List Stmt} {names : String → Prop} {env : Env} {log : List Diagnostic}
  {cond e : Expr} {inLoop refused : Bool} {s : Stmt} {value : Option Expr} {delegate : Delegate}
  {args : List Expr}

namespace Stmt

/-- Why no code is generated for a statement that holds an expression in error. The constructor of a
call is looked for before any argument is. -/
def refusalFor (e : Expr) : Stmt → Refusal
  | construct line _ _ _ => .unresolvedConstructor line
  | _ => .illTyped e.line

/-- The statement holds an expression in error, and code generation is refused on its account. -/
def Blocks (s : Stmt) (r : Refusal) : Prop := ∃ e ∈ s.operands, e.ty = .error ∧ r = s.refusalFor e

/-- The code of statements is accepted or else is refused on account of one of their parts. -/
def Emits (inLoop : Bool) (parts : List Stmt) (code : Registry → Emit Unit) (refused : Bool) : Prop :=
  ∀ types, Settles inLoop (fun r => ∃ part ∈ parts, part.Blocks r) refused (code types)

theorem Emits.within {parts' : List Stmt} {code : Registry → Emit Unit} (h : Emits inLoop parts code refused)
    (hSubset : parts ⊆ parts') (types : Registry) :
    Settles inLoop (fun r => ∃ part ∈ parts', part.Blocks r) refused (code types) := by
  refine (h types).mono ?_
  rintro r ⟨part, hPart, hr⟩
  exact ⟨part, hSubset hPart, hr⟩

end Stmt

namespace Expr

/-- The code of an expression is accepted or else is refused on account of its type. -/
def Emits (e : Expr) (refused : Bool) : Prop :=
  ∀ inLoop reason types, (e.ty = .error → reason (.illTyped e.line)) →
    Settles inLoop reason refused (e.code types)

theorem emits_of_error (hError : e.ty = .error) : e.Emits true :=
  fun _ _ types hReason => settles_error types hError (hReason hError)

/-- If a statement shows the expression, it gives the reason. -/
theorem Emits.within (h : e.Emits refused) (s : Stmt) (hOperand : e ∈ s.operands)
    (hRefusal : s.refusalFor e = .illTyped e.line) (hPart : s ∈ parts) (types : Registry) :
    Settles inLoop (fun r => ∃ part ∈ parts, part.Blocks r) refused (e.code types) :=
  h _ _ types fun hError => ⟨s, hPart, e, hOperand, hError, hRefusal.symm⟩

end Expr

namespace Env

variable {env' : Env}

/-- The outcome of typing a part of a body: how the environment changes, what is reported, that the
part is well typed from then on unless a variable is not declared, that it is bound, and the verdict on
its code. -/
structure Outcome (names : String → Prop) (env : Env) (typed bound : Env → Prop)
    (verdict : Bool → Prop) (log : List Diagnostic) (env' : Env) : Prop where
  frame : env.Frame names env'
  faults : ∀ d ∈ log, d.fault.isVariableFault = true
  typed : anyUndeclared log = false → ∀ Γ, env'.Below Γ → Γ.position = env'.position → typed Γ
  bound : ∀ Γ, env'.Below Γ → bound Γ
  verdict : verdict (anyUndeclared log)

namespace Outcome

variable {typed bound typed' bound' : Env → Prop} {verdict verdict' : Bool → Prop}

section

variable (h : env.Outcome names typed bound verdict log env')
include h

/-- What only depends on the interface may be added. -/
theorem imp_below
    (hTyped : ∀ Γ, SameInterface env.types Γ.types → typed Γ → typed' Γ)
    (hBound : ∀ Γ, bound Γ → bound' Γ) (hVerdict : ∀ refused, verdict refused → verdict' refused) :
    env.Outcome names typed' bound' verdict' log env' :=
  ⟨h.frame, h.faults, fun hLog Γ hBelow hPosition =>
    hTyped Γ (h.frame.below.trans hBelow).interface (h.typed hLog Γ hBelow hPosition),
    fun Γ hBelow => hBound Γ (h.bound Γ hBelow), hVerdict _ h.verdict⟩

theorem imp (hTyped : ∀ Γ, typed Γ → typed' Γ)
    (hBound : ∀ Γ, bound Γ → bound' Γ) (hVerdict : ∀ refused, verdict refused → verdict' refused) :
    env.Outcome names typed' bound' verdict' log env' :=
  h.imp_below (fun Γ _ => hTyped Γ) hBound hVerdict

/-- One part after another. -/
theorem and {log' : List Diagnostic} {env'' : Env}
    (h' : env'.Outcome names typed' bound' verdict' log' env'') :
    env.Outcome names (fun Γ => typed Γ ∧ typed' Γ) (fun Γ => bound Γ ∧ bound' Γ)
      (fun refused => ∃ a b, refused = (a || b) ∧ verdict a ∧ verdict' b) (log ++ log') env'' where
  frame := h.frame.trans h'.frame
  faults := by
    intro d hd
    exact (List.mem_append.mp hd).elim (h.faults d) (h'.faults d)
  typed := by
    intro hLog Γ hBelow hPosition
    rw [anyUndeclared_append, Bool.or_eq_false_iff] at hLog
    exact ⟨h.typed hLog.1 Γ (h'.frame.below.trans hBelow) (hPosition.trans h'.frame.position),
      h'.typed hLog.2 Γ hBelow hPosition⟩
  bound := fun Γ hBelow => ⟨h.bound Γ (h'.frame.below.trans hBelow), h'.bound Γ hBelow⟩
  verdict := ⟨_, _, anyUndeclared_append log log', h.verdict, h'.verdict⟩

end

/-- All that is reported is that variables are declared twice. -/
theorem of_duplicates (hFrame : env.Frame names env')
    (hLog : ∀ d ∈ log, d.fault.isDuplicateVariable = true) (hTyped : ∀ Γ, typed Γ)
    (hBound : ∀ Γ, bound Γ) (hVerdict : verdict false) :
    env.Outcome names typed bound verdict log env' where
  frame := hFrame
  faults := fun d hd => by rw [Fault.isVariableFault, hLog d hd, Bool.or_true]
  typed := fun _ Γ _ _ => hTyped Γ
  bound := fun Γ _ => hBound Γ
  verdict := by
    have hNone : anyUndeclared log = false := by
      rw [anyUndeclared, List.any_eq_false]
      intro d hd
      have hDuplicate := hLog d hd
      revert hDuplicate
      cases d.fault <;> simp [Fault.isDuplicateVariable, Fault.isUndeclaredVariable]
    exact hNone ▸ hVerdict

/-- A statement is found to be well typed as it stands. -/
theorem of_typed (h : env.Sound names) (hFaults : ∀ d ∈ log, d.fault.isVariableFault = true)
    (hLog : anyUndeclared log = false) (hTyped : s.Typed env (env.Selects names) inLoop)
    (hBound : s.Bound names env) (hVerdict : verdict false) :
    env.Outcome names (fun Γ => s.Typed Γ (Γ.Selects names) inLoop) (Stmt.AllBound names [s]) verdict
      log env :=
  ⟨.refl h.toWellFormed, hFaults,
    fun _ _ hBelow hPosition => Env.Later.typed ⟨hBelow, hPosition, fun _ => hBelow.selects⟩ s hTyped,
    fun _ hBelow => .single (hBelow.boundStmt hBound), hLog ▸ hVerdict⟩

/-- A variable is found not to be declared. -/
theorem of_undeclared (h : env.Sound names) (hFaults : ∀ d ∈ log, d.fault.isVariableFault = true)
    (hLog : anyUndeclared log = true) (hBound : s.Bound names env) (hVerdict : verdict true) :
    env.Outcome names typed (Stmt.AllBound names [s]) verdict log env :=
  ⟨.refl h.toWellFormed, hFaults, fun hNone => absurd (hLog.symm.trans hNone) nofun,
    fun _ hBelow => .single (hBelow.boundStmt hBound), hLog ▸ hVerdict⟩

/-- Nothing is reported, and nothing happens. -/
theorem quiet (h : env.WellFormed names) (hTyped : ∀ Γ, typed Γ) (hBound : ∀ Γ, bound Γ)
    (hVerdict : verdict false) : env.Outcome names typed bound verdict [] env :=
  .of_duplicates (.refl h) nofun hTyped hBound hVerdict

end Outcome

/-- Typing expressions reports nothing but faults of variables. -/
theorem Checks.faults {es : List Expr} (h : env.Checks names log es) :
    ∀ d ∈ log, d.fault.isVariableFault = true := by
  rcases h.2 with ⟨rfl, -⟩ | ⟨-, hFaults, -⟩
  · simp
  · intro d hd
    rw [Fault.isVariableFault, hFaults d hd, Bool.true_or]

/-- The outcome of typing an expression. -/
theorem Checks.outcome (h : env.Sound names) (hChecks : env.Checks names log [e]) :
    env.Outcome names (fun Γ => e.ty ≠ .error ∧ Denotes Γ (Γ.Selects names) e (.value e.ty))
      (fun Γ => Γ.Bound names e) e.Emits log env where
  frame := .refl h.toWellFormed
  faults := hChecks.faults
  typed := by
    intro hLog Γ hBelow hPosition
    rcases hChecks.undeclared with ⟨-, hGood⟩ | ⟨hSome, -⟩
    · have he := hGood e (by simp)
      exact ⟨he.ty_ne_error, Env.Later.denotes ⟨hBelow, hPosition, fun _ => hBelow.selects⟩ he.denotes⟩
    · rw [hLog] at hSome
      cases hSome
  bound := fun Γ hBelow => hBelow.bound (hChecks.1 e (by simp))
  verdict := fun _ _ types hReason => hChecks.settles h hReason types

end Env

namespace Stmt

variable {a b c : Bool} {line : Nat}

/-- A statement with one expression, whose code is followed by a sequence of its own. -/
theorem emits_operand (he : e.Emits a) (hOperand : e ∈ s.operands)
    (hRefusal : s.refusalFor e = .illTyped e.line) (hPart : s ∈ s.parts) {rest : Unit → Emit Unit}
    (hRest : ∀ {reason}, Settles inLoop reason false (rest ()))
    (hCode : ∀ types, s.code types = (e.code types >>= rest)) :
    Emits inLoop s.parts (fun types => s.code types) a := by
  intro types
  simp only [hCode]
  exact .before (he.within s hOperand hRefusal hPart types) fun _ => hRest

/-- A conditional can be compiled if its parts can. It leaves its loop if one of the parts does. -/
theorem emits_branch {thenBranch : Stmt} {elseBranch : Option Stmt} (hCond : cond.Emits a)
    (hThen : Emits inLoop thenBranch.parts (fun types => thenBranch.code types) b)
    (hElse : Emits inLoop (partsOfElse elseBranch) (fun types => codeElse types elseBranch) c) :
    Emits inLoop (branch line cond thenBranch elseBranch).parts
      (fun types => (branch line cond thenBranch elseBranch).code types) (a || (b || c)) := by
  intro types
  refine .after .freshBranch fun _ => .after .freshBranch fun _ => ?_
  refine .bind (hCond.within (branch line cond thenBranch elseBranch) (by simp [operands]) rfl
    (by simp [parts]) types) fun _ => ?_
  refine .after (settles_jumpIfZero _) fun _ => .bind (hThen.within (by simp [parts]) types) fun _ => ?_
  refine .after (.instrs _) fun _ => .after (.label _) fun _ => ?_
  exact .before (hElse.within (by simp [parts]) types) fun _ => .label _

theorem emits_loop {body : Stmt} (hCond : cond.Emits a)
    (hBody : Emits true body.parts (fun types => body.code types) b) :
    Emits inLoop (loop line cond body).parts (fun types => (loop line cond body).code types)
      (a || b) := by
  intro types
  refine .after .freshLoop fun labels => .after (.label _) fun _ => ?_
  refine .bind (hCond.within (loop line cond body) (by simp [operands]) rfl (by simp [parts]) types)
    fun _ => ?_
  refine .after (settles_jumpIfZero _) fun _ => ?_
  rw [← Bool.or_false b]
  exact .loop (hBody.within (by simp [parts]) types) fun _ => .after (.instrs _) fun _ => .label _

theorem emits_cons {rest : List Stmt}
    (h : ∃ a b, refused = (a || b) ∧ Emits inLoop s.parts (fun types => s.code types) a ∧
      Emits inLoop (partsOfAll rest) (fun types => codeAll types rest) b) :
    Emits inLoop (partsOfAll (s :: rest)) (fun types => codeAll types (s :: rest)) refused := by
  obtain ⟨a, b, rfl, ha, hb⟩ := h
  intro types
  exact .bind (ha.within (by simp [partsOfAll]) types) fun _ =>
    hb.within (by simp [partsOfAll]) types

/-- A return can be compiled if its value can, since the label that it jumps to was resolved when it was typed. -/
theorem emits_ret {exitLabel : String} (hValue : ∀ e, value = some e → e.Emits a)
    (hNone : value = none → a = false) :
    Emits inLoop (ret line value (some exitLabel)).parts
      (fun types => (ret line value (some exitLabel)).code types) a := by
  intro types
  refine .require ?_
  cases value with
  | none =>
    rw [hNone rfl]
    exact .instrs _
  | some e =>
    refine .before ?_ fun _ => .after (.instrs _) fun _ => .instrs _
    exact Expr.Emits.within (hValue e rfl) (ret line (some e) (some exitLabel)) (by simp [operands])
      rfl (by simp [parts]) types

theorem emits_construct (h : env.Sound names) {m : MethodId}
    (hArgs : ∀ e ∈ args, Denotes env (env.Selects names) e (.value e.ty)) :
    Emits inLoop (construct line delegate args (some m)).parts
      (fun types => (construct line delegate args (some m)).code types) false := by
  intro types
  refine .require (.after ?_ fun _ => .after (.instrs _) fun _ => .instrs _)
  exact Expr.settles_codeArgs types args fun e he => h.settles_code types (hArgs e he)

theorem emits_unresolved (hArgs : ∃ e ∈ args, e.ty = .error) :
    Emits inLoop (construct line delegate args none).parts
      (fun types => (construct line delegate args none).code types) true := by
  intro types
  obtain ⟨e, he, hError⟩ := hArgs
  exact .stop (.throw ⟨construct line delegate args none, by simp [parts], e, he, hError, rfl⟩)

end Stmt

namespace Analysis

variable {α : Type}

/-- Typing an expression that has to be an int. -/
theorem yields_expectInt (h : env.Sound names) (hFresh : e.isFresh = true) (hCalls : e.CallsBy names)
    {line : Expr → Nat} {fault : String → Fault} (hFault : ∀ found, (fault found).severity = .terminal)
    (f : Expr → α) :
    Yields (read fun env => do
      let e ← e.analyze env
      env.expectInt (line e) e fault
      return f e) env fun log a env' => ∃ e', a = f e' ∧
        env.Outcome names (fun Γ => Denotes Γ (Γ.Selects names) e' (.value .int))
          (fun Γ => Γ.Bound names e') e'.Emits log env' := by
  refine Yields.read fun hQuiet => ?_
  simp only [Logged.log_bind, Logged.value_bind, Logged.log_pure, Logged.value_pure, List.append_nil,
    Quiet.append_iff] at hQuiet ⊢
  obtain ⟨hInt, hTy⟩ := Env.expectInt_quiet hFault hQuiet.2
  refine ⟨_, rfl, ?_⟩
  rw [hInt, Logged.log_pure, List.append_nil]
  refine ((e.analyze_checks h hFresh hCalls hQuiet.1).outcome h).imp ?_ (fun _ => id) fun _ => id
  rintro Γ ⟨hNoError, hDenotes⟩
  exact hTy.resolve_right hNoError ▸ hDenotes

theorem yields_requireLoop (inLoop : Bool) (line : Nat) (exit : LoopExit) :
    Yields (requireLoop inLoop line exit) env fun log _ env' =>
      log = [] ∧ env' = env ∧ inLoop = true := by
  cases inLoop with
  | true => exact Yields.pure ⟨rfl, rfl, rfl⟩
  | false => exact fun hQuiet => absurd hQuiet (Quiet.not_report rfl)

end Analysis

namespace Stmt

/-- The outcome of typing a statement. -/
abbrev Comes (names : String → Prop) (inLoop : Bool) (env : Env) (log : List Diagnostic) (s : Stmt)
    (env' : Env) : Prop :=
  env.Outcome names (fun Γ => s.Typed Γ (Γ.Selects names) inLoop) (AllBound names s.parts)
    (Emits inLoop s.parts fun types => s.code types) log env'

/-- The outcome of typing statements, one after the other. -/
abbrev AllCome (names : String → Prop) (inLoop : Bool) (env : Env) (log : List Diagnostic) (body : List Stmt)
    (env' : Env) : Prop :=
  env.Outcome names (fun Γ => AllTyped Γ (Γ.Selects names) inLoop body) (AllBound names (partsOfAll body))
    (Emits inLoop (partsOfAll body) fun types => codeAll types body) log env'

theorem yields_nil (h : env.Sound names) :
    Yields (Pure.pure [] : Analysis (List Stmt)) env (AllCome names inLoop env) :=
  Yields.pure (.quiet h.toWellFormed (fun _ => trivial) (fun _ => .nil) fun _ => .pure ())

/-- Statements are typed in order, each in the environment that the ones before it leave. -/
theorem yields_cons (h : env.Sound names) {rest : List Stmt} {x : Analysis Stmt}
    (hx : Yields x env (Comes names inLoop env)) (hRest : ∀ env : Env, env.Sound names →
      Yields (analyzeAll inLoop rest) env (AllCome names inLoop env)) :
    Yields (do
      let s ← x
      let rest ← analyzeAll inLoop rest
      return s :: rest) env (AllCome names inLoop env) := by
  refine Yields.bind hx ?_
  intro log₁ s' env₁ h₁
  refine Yields.bind_pure ((hRest env₁ (h₁.frame.sound h)).mono ?_)
  intro log₂ rest' env₂ h₂
  exact (h₁.and h₂).imp (fun Γ hs => hs) (fun Γ hs => .append hs.1 hs.2) fun _ hs => emits_cons hs

variable {line : Nat}

/-- What is deleted has to be typed as an object. Everything else is reported, which is terminal. -/
theorem yields_delete (h : env.Sound names) {target : Expr} (hFresh : target.isFresh = true)
    (hCalls : target.CallsBy names) :
    Yields (read fun env => do
      let target ← target.analyze env
      env.analyzeDelete line target) env (Comes names inLoop env) := by
  refine Yields.read fun hQuiet => ?_
  simp only [Logged.log_bind, Logged.value_bind, Quiet.append_iff] at hQuiet ⊢
  obtain ⟨hDelete, hTy⟩ := Env.analyzeDelete_quiet hQuiet.2
  rw [hDelete, Logged.log_pure, List.append_nil]
  refine ((target.analyze_checks h hFresh hCalls hQuiet.1).outcome h).imp ?_
    (fun _ h => .single (.of_operand rfl rfl h)) fun _ he => ?_
  · rintro Γ ⟨hNoError, hDenotes⟩
    obtain ⟨c, hClass⟩ := hTy.resolve_left hNoError
    exact ⟨c, hClass ▸ hDenotes⟩
  · refine emits_operand he (by simp [operands]) rfl (by simp [parts]) ?_ fun _ => rfl
    exact .after (.instrs _) fun _ => .after (.instrs _) fun _ => .instrs _

theorem checks_value (h : env.Sound names) (hFresh : value.all Expr.isFresh = true)
    (hCalls : ∀ e ∈ value.toList, e.CallsBy names)
    (hQuiet : Quiet (value.mapM fun e : Expr => e.analyze env).log) :
    env.Checks names (value.mapM fun e : Expr => e.analyze env).log
      (value.mapM fun e : Expr => e.analyze env).value.toList := by
  cases value with
  | none => exact .nil
  | some e =>
    simp only [Option.mapM_some, Logged.log_map, Logged.value_map, Option.toList_some] at hQuiet ⊢
    exact e.analyze_checks h hFresh (hCalls e (by simp)) hQuiet

/-- A return fits the method around it, and has no value outside of plain methods. -/
theorem yields_ret (h : env.Sound names) (hFresh : value.all Expr.isFresh = true)
    (hCalls : ∀ e ∈ value.toList, e.CallsBy names) :
    Yields (read fun env => do
      let value ← value.mapM fun e => e.analyze env
      env.analyzeReturn line value) env (Comes names inLoop env) := by
  refine Yields.read fun hQuiet => ?_
  simp only [Logged.log_bind, Logged.value_bind, Quiet.append_iff] at hQuiet ⊢
  have hChecks := checks_value h hFresh hCalls hQuiet.1
  obtain ⟨value', hReturn, hGood, hFault, hBound⟩ := Env.analyzeReturn_quiet h hQuiet.2
  have hBound' : (ret line value' (some env.exitLabel)).Bound names env :=
    .of_operands rfl (hBound hChecks.1)
  rw [hReturn, Logged.log_pure, List.append_nil]
  rcases hChecks.undeclared with ⟨hNone, hElaborates⟩ | ⟨hSome, e, he, hError⟩
  · have hReturns := hGood fun e he => hElaborates e (Option.mem_toList.mpr he)
    refine .of_typed h hChecks.faults hNone ⟨hReturns, rfl⟩ hBound' ?_
    refine emits_ret (fun e he => ?_) fun _ => rfl
    obtain ⟨d, hDenotes⟩ := hReturns.denotes he
    exact fun _ _ types _ => h.settles_code types hDenotes
  · obtain ⟨e', rfl, hError'⟩ := hFault e (Option.mem_toList.mp he) hError
    refine .of_undeclared h hChecks.faults hSome hBound' (emits_ret (fun e he => ?_) (by rintro ⟨⟩))
    cases he
    exact Expr.emits_of_error hError'

/-- A call of a constructor is typed if it stands first in a constructor. Elsewhere it is reported. -/
theorem yields_construct (h : env.Sound names) {first : Bool} (hFresh : Expr.areFresh args = true)
    (hCalls : ∀ e ∈ args, e.CallsBy names) :
    Yields (read fun env => do
      let args ← Expr.analyzeArgs env args
      env.analyzeConstruct first line delegate args) env (Comes names inLoop env) := by
  refine Yields.read fun hQuiet => ?_
  simp only [Logged.log_bind, Logged.value_bind, Quiet.append_iff] at hQuiet ⊢
  have hChecks := Expr.analyzeArgs_checks h args hFresh hCalls hQuiet.1
  rcases hChecks.undeclared with ⟨hNone, hElaborates⟩ | ⟨hSome, e, he, hError⟩
  · obtain ⟨⟨e, he, hError⟩, -⟩ | ⟨-, c, m, args', hEq, hDelegates, hGood⟩ :=
      Env.analyzeConstruct_quiet h hQuiet.2
    · exact absurd hError (hElaborates e he).ty_ne_error
    · obtain ⟨hDenotes, hSelects, hBound⟩ := hGood hElaborates
      rw [hEq, Logged.log_pure, List.append_nil]
      exact .of_typed h hChecks.faults hNone ⟨c, m, hDelegates, rfl, hDenotes, hSelects⟩
        (hBound hChecks.1) (emits_construct h hDenotes)
  · obtain ⟨hErrors, hEq⟩ | ⟨hClean, -⟩ := Env.analyzeConstruct_quiet h hQuiet.2
    · rw [hEq, Logged.log_pure, List.append_nil]
      exact .of_undeclared h hChecks.faults hSome (.of_operands rfl hChecks.1)
        (emits_unresolved hErrors)
    · exact absurd hError (hClean e he)

mutual

/-- Every statement as it was read comes out well typed, unless something is reported. What is reported without
being terminal leaves it bound. -/
theorem yields_analyze (inLoop first : Bool) : (s : Stmt) → s.isFresh = true →
    CallBy names s.parts → (env : Env) → env.Sound names → Yields (s.analyze inLoop first) env (Comes names inLoop env)
  | .expr line e, hFresh, hCalls, env, h => by
    refine Yields.bind_pure (Yields.read fun hQuiet => ?_)
    refine ((e.analyze_checks h hFresh (hCalls.own (by simp [operands])) hQuiet).outcome h).imp
      (fun Γ he => ⟨_, he.2⟩) (fun _ h => .single (.of_operand rfl rfl h)) ?_
    exact fun _ he => emits_operand he (by simp [operands]) rfl (by simp [parts]) (.instrs _)
      fun _ => rfl
  | .declare line type declared, hFresh, hCalls, env, h => by
    have hType : Ensures (read fun env => env.resolveTypeName line type) env
        (·.isDuplicateVariable) _ := ensures_resolveTypeName h.settled.lineal.found line type
    refine Yields.bind hType ?_
    rintro log₁ ty env ⟨hLog₁, rfl, hTy⟩
    refine Yields.bind_pure (Yields.mono (ensures_declareNames h hTy line declared) ?_)
    rintro log₂ declared' env' ⟨hLog₂, hFrame⟩
    refine .of_duplicates hFrame ?_ (fun _ => trivial) (fun _ => .single (.of_operands rfl nofun))
      fun _ => settles_declareCells declared'
    intro d hd
    exact (List.mem_append.mp hd).elim (hLog₁ d) (hLog₂ d)
  | .print line e, hFresh, hCalls, env, h => by
    refine (yields_expectInt h hFresh (hCalls.own (by simp [operands])) (fun _ => rfl) (print line)).mono ?_
    rintro log s' env' ⟨e', rfl, hOutcome⟩
    refine hOutcome.imp (fun Γ he => he) (fun _ h => .single (.of_operand rfl rfl h)) fun _ he => ?_
    exact emits_operand he (by simp [operands]) rfl (by simp [parts]) (.instrs _) fun _ => rfl
  | .block line body, hFresh, hCalls, env, h => by
    refine Yields.bind_pure ((yields_analyzeAll inLoop body hFresh
      (hCalls.within (by simp [parts])) env h).mono ?_)
    intro log body' env' hOutcome
    refine hOutcome.imp (fun Γ hBody => hBody) (fun _ => .cons (.of_operands rfl nofun))
      fun _ hBody types => ?_
    exact hBody.within (by simp [parts]) types
  | .branch line cond thenBranch elseBranch, hFresh, hCalls, env, h => by
    simp only [isFresh, Bool.and_eq_true] at hFresh
    refine Yields.bind (yields_expectInt h hFresh.1.1 (hCalls.own (by simp [operands])) (fun _ => rfl) id) ?_
    rintro log₁ _ env₁ ⟨cond', rfl, h₁⟩
    refine Yields.bind (yields_analyze inLoop false thenBranch hFresh.1.2
      (hCalls.within (by simp [parts])) env₁ (h₁.frame.sound h)) ?_
    intro log₂ then' env₂ h₂
    refine Yields.bind_pure
      ((yields_analyzeElse inLoop elseBranch hFresh.2 (hCalls.within (by simp [parts])) env₂
         (h₂.frame.sound (h₁.frame.sound h))).mono ?_)
    intro log₃ else' env₃ h₃
    refine (h₁.and (h₂.and h₃)).imp (fun Γ hs => hs)
      (fun Γ hs => .cons (.of_operand rfl rfl hs.1) (.append hs.2.1 hs.2.2)) ?_
    rintro _ ⟨a, _, rfl, ha, b, c, rfl, hb, hc⟩
    exact emits_branch ha hb hc
  | .loop line cond body, hFresh, hCalls, env, h => by
    simp only [isFresh, Bool.and_eq_true] at hFresh
    refine Yields.bind (yields_expectInt h hFresh.1 (hCalls.own (by simp [operands])) (fun _ => rfl) id) ?_
    rintro log₁ _ env₁ ⟨cond', rfl, h₁⟩
    refine Yields.bind_pure ((yields_analyze true false body hFresh.2
      (hCalls.within (by simp [parts])) env₁ (h₁.frame.sound h)).mono ?_)
    intro log₂ body' env₂ h₂
    refine (h₁.and h₂).imp (fun Γ hs => hs)
      (fun Γ hs => .cons (.of_operand rfl rfl hs.1) hs.2) ?_
    rintro _ ⟨a, b, rfl, ha, hb⟩
    exact emits_loop ha hb
  | .ret line value exitLabel, hFresh, hCalls, env, h => by
    simp only [isFresh, Bool.and_eq_true] at hFresh
    exact yields_ret h hFresh.1 fun e he => hCalls.own he
  | .breakLoop line, _, _, env, h => by
    refine Yields.bind_pure ((yields_requireLoop inLoop line .toEnd).mono ?_)
    rintro log - env' ⟨rfl, rfl, rfl⟩
    exact .quiet h.toWellFormed (fun _ => rfl) (fun _ => .single (.of_operands rfl nofun))
      fun _ => settles_leaveRound line .toEnd
  | .continueLoop line, _, _, env, h => by
    refine Yields.bind_pure ((yields_requireLoop inLoop line .toCondition).mono ?_)
    rintro log - env' ⟨rfl, rfl, rfl⟩
    exact .quiet h.toWellFormed (fun _ => rfl) (fun _ => .single (.of_operands rfl nofun))
      fun _ => settles_leaveRound line .toCondition
  | .delete line target, hFresh, hCalls, env, h => yields_delete h hFresh (hCalls.own (by simp [operands]))
  | .construct line delegate args constructor, hFresh, hCalls, env, h => by
    simp only [isFresh, Bool.and_eq_true] at hFresh
    exact yields_construct h hFresh.1 fun e he => hCalls.own he
  | .empty line, _, _, env, h => Yields.pure (.quiet h.toWellFormed (fun _ => trivial)
      (fun _ => .single (.of_operands rfl nofun)) fun _ => .pure ())

theorem yields_analyzeElse (inLoop : Bool) : (s : Option Stmt) → isFreshElse s = true →
    CallBy names (partsOfElse s) → (env : Env) → env.Sound names →
    Yields (analyzeElse inLoop s) env fun log s' env' =>
      env.Outcome names (fun Γ => ElseTyped Γ (Γ.Selects names) inLoop s') (AllBound names (partsOfElse s'))
        (Emits inLoop (partsOfElse s') fun types => codeElse types s') log env'
  | none, _, _, _, h =>
    Yields.pure (.quiet h.toWellFormed (fun _ => trivial) (fun _ => .nil) fun _ => .pure ())
  | some s, hFresh, hCalls, env, h => Yields.bind_pure (yields_analyze inLoop false s hFresh hCalls env h)

theorem yields_analyzeAll (inLoop : Bool) : (body : List Stmt) → areFresh body = true →
    CallBy names (partsOfAll body) → (env : Env) → env.Sound names →
    Yields (analyzeAll inLoop body) env (AllCome names inLoop env)
  | [], _, _, _, h => yields_nil h
  | s :: rest, hFresh, hCalls, env, h => by
    simp only [areFresh, Bool.and_eq_true] at hFresh
    exact yields_cons h (yields_analyze inLoop false s hFresh.1 (hCalls.within (by simp [partsOfAll])) env h)
      (yields_analyzeAll inLoop rest hFresh.2 (hCalls.within (by simp [partsOfAll])))

end

end Stmt
end TLang
