import TLang.Proofs.Operands
import TLang.Proofs.Registry.Overloads
import TLang.Proofs.Typing.Binding

/-! Typing expressions. If nothing terminal is reported, the result is well typed or it carries the
error type, and it carries the error type just if a variable was not declared. What it invokes is bound in
either case. -/
namespace TLang

open Registry List

variable {a : ClassId} {value target : Expr} {receiver : Receiver Expr}

variable {e : Expr} {log : List Diagnostic} {es operands args : List Expr} {m : MethodId} {exact : Bool}
  {c : ClassId} {name : String} {kind : MethodKind}

namespace Env

variable {names : String → Prop} {env : Env} {line : Nat}

/-- A typed expression as analysis yields it: it has a value, and it is not widened yet. -/
structure Elaborates (names : String → Prop) (env : Env) (e : Expr) : Prop where
  denotes : Denotes env (env.Selects names) e (.value e.ty)
  isValue : env.types.IsValue e.ty
  unwidened : e.unwidened = e

theorem Elaborates.ty_ne_error (h : env.Elaborates names e) : e.ty ≠ .error := by
  rcases h.isValue.cases with h | h | ⟨c, h, -⟩ <;> simp [h]

/-- The outcome of typing expressions: all are bound, and all are typed and nothing is reported, or
some variable is not declared and the error type shows it. -/
def Checks (names : String → Prop) (env : Env) (log : List Diagnostic) (es : List Expr) : Prop :=
  (∀ e ∈ es, env.Bound names e) ∧ ((log = [] ∧ ∀ e ∈ es, env.Elaborates names e) ∨
    (log ≠ [] ∧ (∀ d ∈ log, d.fault.isUndeclaredVariable = true) ∧ ∃ e ∈ es, e.ty = .error))

/-- How the typing of a node depends on its operands. -/
structure Completion (names : String → Prop) (env : Env) (operands : List Expr) (x : Checked Expr) :
    Prop where
  log : x.log = []
  good : (∀ e ∈ operands, env.Elaborates names e) → env.Elaborates names x.value
  fault : (∃ e ∈ operands, e.ty = .error) → x.value.ty = .error
  bound : ((∀ e ∈ operands, e.ty ≠ .error) → ∀ e ∈ operands, env.Elaborates names e) →
    (∀ e ∈ operands, env.Bound names e) → env.Bound names x.value

def Completes (names : String → Prop) (env : Env) (operands : List Expr) (x : Checked Expr) : Prop :=
  Quiet x.log → env.Completion names operands x

theorem Checks.undeclared (h : env.Checks names log es) :
    (anyUndeclared log = false ∧ ∀ e ∈ es, env.Elaborates names e) ∨
      (anyUndeclared log = true ∧ ∃ e ∈ es, e.ty = .error) := by
  rcases h.2 with ⟨rfl, hEs⟩ | ⟨hLog, hFaults, hError⟩
  · exact .inl ⟨rfl, hEs⟩
  · obtain ⟨d, hd⟩ := exists_mem_of_ne_nil log hLog
    exact .inr ⟨any_eq_true.mpr ⟨d, hd, hFaults d hd⟩, hError⟩

/-- Checks of two lists of trees are those of both together. Each report counts for the list in whose check it
was made. -/
theorem Checks.append {log' : List Diagnostic} {es' : List Expr} (h : env.Checks names log es)
    (h' : env.Checks names log' es') : env.Checks names (log ++ log') (es ++ es') := by
  refine ⟨forall_mem_append.mpr ⟨h.1, h'.1⟩, ?_⟩
  rcases h.2 with ⟨rfl, hEs⟩ | ⟨hLog, hFaults, e, he, hError⟩
  · rcases h'.2 with ⟨rfl, hEs'⟩ | ⟨hLog', hFaults', e, he, hError⟩
    · exact .inl ⟨rfl, forall_mem_append.mpr ⟨hEs, hEs'⟩⟩
    · exact .inr ⟨hLog', hFaults', e, mem_append_right _ he, hError⟩
  · refine .inr ⟨by simp [hLog], ?_, e, mem_append_left _ he, hError⟩
    intro d hd
    rcases mem_append.mp hd with hd | hd
    · exact hFaults d hd
    · rcases h'.2 with ⟨rfl, -⟩ | ⟨-, hFaults', -⟩
      · cases hd
      · exact hFaults' d hd

/-- A node over checked operands is checked, provided that what its own step reports is not terminal. -/
theorem Checks.complete {x : Checked Expr} (h : env.Checks names log es) (hx : env.Completes names es x)
    (hQuiet : Quiet x.log) : env.Checks names (log ++ x.log) [x.value] := by
  have hNode := hx hQuiet
  rw [hNode.log, append_nil, Checks, forall_mem_singleton, forall_mem_singleton]
  rcases h with ⟨hBound, ⟨rfl, hEs⟩ | ⟨hNe, hFaults, e, he, hError⟩⟩
  · exact ⟨hNode.bound (fun _ => hEs) hBound, .inl ⟨rfl, hNode.good hEs⟩⟩
  · exact ⟨hNode.bound (fun hClean => absurd hError (hClean e he)) hBound,
      .inr ⟨hNe, hFaults, _, mem_singleton.mpr rfl, hNode.fault ⟨e, he, hError⟩⟩⟩

theorem Checks.of_elaborates (h : env.Elaborates names e) (hBound : env.Bound names e) :
    env.Checks names [] [e] :=
  ⟨by simpa using hBound, .inl ⟨rfl, by simpa using h⟩⟩

theorem Checks.nil : env.Checks names [] [] := ⟨nofun, .inl ⟨rfl, nofun⟩⟩

/-- Expressions that are typed one after the other. -/
theorem Checks.flatMap (h : ∀ e ∈ es, env.Checks names (e.analyze env).log [(e.analyze env).value]) :
    env.Checks names (es.flatMap fun e => (e.analyze env).log) (es.map fun e => (e.analyze env).value) := by
  induction es with
  | nil => exact .nil
  | cons e rest ih =>
    rw [forall_mem_cons] at h
    exact h.1.append (ih h.2)

/-- A terminal report ends the discussion. -/
theorem Completes.report {fault : Fault} (hFault : fault.severity = .terminal) :
    env.Completes names operands (do Checked.report line fault; return e) := by
  intro hQuiet
  exact absurd hQuiet (Quiet.not_report_bind hFault)

/-- An operand in error makes the node one in error. -/
theorem Completes.fault (hOperand : ∃ e ∈ operands, e.ty = .error) (hError : e.ty = .error)
    (hBound : (∀ e ∈ operands, env.Bound names e) → env.Bound names e) :
    env.Completes names operands (Pure.pure e) := by
  obtain ⟨e', he', hError'⟩ := hOperand
  exact fun _ => ⟨rfl, fun hGood => absurd hError' (hGood e' he').ty_ne_error, fun _ => hError,
    fun _ => hBound⟩

/-- If no operand is in error, only the good case counts. -/
theorem Completes.good (hOperands : ∀ e ∈ operands, e.ty ≠ .error)
    (hGood : (∀ e ∈ operands, env.Elaborates names e) →
      env.Elaborates names e ∧ ((∀ e ∈ operands, env.Bound names e) → env.Bound names e)) :
    env.Completes names operands (Pure.pure e) :=
  fun _ => ⟨rfl, fun hAll => (hGood hAll).1,
    fun ⟨e', he', hError⟩ => absurd hError (hOperands e' he'), fun hAll => (hGood (hAll hOperands)).2⟩

theorem completes_unary (op : UnaryOp) (operand : Expr) :
    env.Completes names [operand] (env.analyzeUnary line op operand) := by
  rw [analyzeUnary]
  split
  case h_1 hInt =>
    refine .good (by simp [hInt]) fun hGood => ?_
    have hOperand := (hGood operand (by simp)).denotes
    rw [hInt] at hOperand
    exact ⟨⟨.unary line op hOperand, .inr trivial, rfl⟩, fun h => .node rfl h⟩
  case h_2 hError => exact .fault ⟨operand, by simp, hError⟩ rfl (fun h => .node rfl h)
  case h_3 => exact .report rfl

/-- Arithmetic is elaborated from operands that are. Comparisons are left out, since they convert and are dealt
with apart. -/
theorem completes_arithmetic {op : BinaryOp} (hOp : op ≠ .eq) (left right : Expr) :
    env.Completes names [left, right] (env.analyzeArithmetic line op left right) := by
  rw [analyzeArithmetic]
  split
  case isTrue hError =>
    refine .fault ?_ rfl (fun h => .node rfl h)
    rcases hError with hError | hError
    · exact ⟨left, by simp, hError⟩
    · exact ⟨right, by simp, hError⟩
  case isFalse =>
    split
    case isTrue hInt =>
      refine .good (by simp [hInt]) fun hGood => ?_
      have hLeft := (hGood left (by simp)).denotes
      have hRight := (hGood right (by simp)).denotes
      rw [hInt.1] at hLeft
      rw [hInt.2] at hRight
      exact ⟨⟨.arithmetic line hOp hLeft hRight, .inr trivial, rfl⟩, fun h => .node rfl h⟩
    case isFalse => exact .report rfl

/-- Of two related classes, the one found is the other's ancestor or both are the same. -/
theorem related_eq_some {r : Registry} {b ancestor : ClassId} (h : r.related a b = some ancestor) :
    ancestor = b ∧ r.isSubclass a b = true ∨ ancestor = a ∧ r.isSubclass b a = true := by
  rw [related] at h
  split at h
  case isTrue hSub =>
    cases h
    exact .inl ⟨rfl, hSub⟩
  case isFalse =>
    split at h
    case isTrue hSub =>
      cases h
      exact .inr ⟨rfl, hSub⟩
    case isFalse => cases h

/-- Both operands are integers, or one of two classes extends the other, or one side is null. In each case the
operands are converted to what the rules ask for. -/
theorem completes_equality (left right : Expr) :
    env.Completes names [left, right] (env.analyzeEquality line left right) := by
  have hBoth : (∀ e ∈ [left, right], env.Elaborates names e) →
      Denotes env (env.Selects names) left (.value left.ty) ∧
        Denotes env (env.Selects names) right (.value right.ty) :=
    fun hGood => ⟨(hGood left (by simp)).denotes, (hGood right (by simp)).denotes⟩
  have hEqual : ∀ {left' right' : Expr} {a b : Ty}, Denotes env (env.Selects names) left' (.value a) →
      Denotes env (env.Selects names) right' (.value b) → Comparable a b →
      env.Elaborates names (.binary ⟨line, .int⟩ .eq left' right') :=
    fun hLeft hRight h => ⟨.equality line hLeft hRight h, .inr trivial, rfl⟩
  rw [analyzeEquality]
  split
  case h_1 hError => exact .fault ⟨left, by simp, hError⟩ rfl (fun h => .node rfl h)
  case h_2 hError _ => exact .fault ⟨right, by simp, hError⟩ rfl (fun h => .node rfl h)
  case h_3 hNull hRight =>
    refine .good (by simpa [hNull] using hRight) fun hGood => ?_
    exact ⟨hEqual (hNull ▸ (hBoth hGood).1) (hBoth hGood).2 (.nullLeft _), fun h => .node rfl h⟩
  case h_4 hNull hLeft _ =>
    refine .good (by simpa [hNull] using hLeft) fun hGood => ?_
    exact ⟨hEqual (hBoth hGood).1 (hNull ▸ (hBoth hGood).2) (.nullRight _), fun h => .node rfl h⟩
  case h_5 hLeft hRight =>
    refine .good (by simp [hLeft, hRight]) fun hGood => ?_
    exact ⟨hEqual (hLeft ▸ (hBoth hGood).1) (hRight ▸ (hBoth hGood).2) .int, fun h => .node rfl h⟩
  case h_6 a b hLeft hRight =>
    have hClean : ∀ e ∈ [left, right], e.ty ≠ .error := by simp [hLeft, hRight]
    rw [hLeft, hRight] at hBoth
    cases hRelated : env.types.related a b with
    | none => exact .report rfl
    | some ancestor =>
      simp only
      have hCases := related_eq_some hRelated
      by_cases ha : a = ancestor
      · subst ha
        rw [if_neg (by simp)]
        by_cases hb : b = a
        · subst hb
          rw [if_neg (by simp)]
          refine .good hClean fun hGood => ⟨?_, fun h => .node rfl h⟩
          exact hEqual (hBoth hGood).1 (hBoth hGood).2 (.sameClass _)
        · rw [if_pos hb]
          have hSub : env.types.isSubclass b a = true := by
            rcases hCases with ⟨rfl, -⟩ | ⟨-, hSub⟩
            · exact absurd rfl hb
            · exact hSub
          refine .good hClean fun hGood => ⟨hEqual (hBoth hGood).1
            (.widen _ (hBoth hGood).2 ?_ (by simpa using hb)) (.sameClass _), fun hBound => ?_⟩
          · simp [isAssignable, hSub]
          · rw [bound_pair] at hBound
            exact .node rfl (bound_pair.mpr ⟨hBound.1, hBound.2.widen _⟩)
      · rw [if_pos ha]
        have hSub : ancestor = b ∧ env.types.isSubclass a b = true := by
          rcases hCases with hSub | ⟨rfl, -⟩
          · exact hSub
          · exact absurd rfl ha
        obtain ⟨rfl, hSub⟩ := hSub
        refine .good hClean fun hGood => ⟨hEqual (.widen _ (hBoth hGood).1 ?_ (by simpa using ha))
          (hBoth hGood).2 (.sameClass _), fun hBound => ?_⟩
        · simp [isAssignable, hSub]
        · rw [bound_pair] at hBound
          exact .node rfl (bound_pair.mpr ⟨hBound.1.widen _, hBound.2⟩)
  case h_7 => exact .report rfl

theorem completes_binary (op : BinaryOp) (left right : Expr) :
    env.Completes names [left, right] (env.analyzeBinary line op left right) := by
  cases op with
  | eq => exact completes_equality left right
  | add | sub | mul | div | lt | gt => exact completes_arithmetic (by decide) left right

/-- A quiet assignment is one in error, one of equal types, or one that widens the value. -/
theorem assignValue_quiet {ty : Ty} (hQuiet : Quiet (env.assignValue line ty value).log) :
    env.assignValue line ty value = pure (value, .error) ∧ (ty = .error ∨ value.ty = .error) ∨
      env.assignValue line ty value = pure (value, ty) ∧ ty = value.ty ∧ ty ≠ .error ∨
      env.assignValue line ty value = pure (value.widen ty, ty) ∧
        env.types.isAssignable value.ty ty = true ∧ value.ty ≠ ty ∧ ty ≠ .error ∧
        value.ty ≠ .error := by
  simp only [assignValue] at hQuiet ⊢
  split at hQuiet
  case isTrue hError =>
    rw [if_pos hError]
    exact .inl ⟨rfl, hError⟩
  case isFalse hError =>
    rw [if_neg hError]
    rw [not_or] at hError
    split at hQuiet
    case isTrue hEq =>
      rw [if_pos hEq]
      exact .inr (.inl ⟨rfl, hEq, hError.1⟩)
    case isFalse hNe =>
      rw [if_neg hNe]
      split at hQuiet
      case isTrue => exact absurd hQuiet (Quiet.not_report_bind rfl)
      case isFalse hNull =>
        rw [if_neg hNull]
        split at hQuiet
        case isTrue => exact absurd hQuiet (Quiet.not_report_bind rfl)
        case isFalse hInt =>
          rw [if_neg hInt]
          split at hQuiet
          case isTrue hAssignable =>
            rw [if_pos hAssignable]
            exact .inr (.inr ⟨rfl, hAssignable, Ne.symm hNe, hError⟩)
          case isFalse =>
            exfalso
            split at hQuiet
            · split at hQuiet
              · exact Quiet.not_report_bind rfl hQuiet
              · exact Quiet.not_report_bind rfl hQuiet
            · exact Quiet.not_report_bind rfl hQuiet

/-- A quiet assignment writes to a cell, or its target is already in error. -/
theorem assignTarget_quiet (hQuiet : Quiet (target.assignTarget line).log) :
    (∃ mark address, target = .deref mark address ∧
      target.assignTarget line = pure (address, mark.ty)) ∨
      target.ty = .error ∧ target.assignTarget line = pure (target, .error) := by
  rw [Expr.assignTarget.eq_def] at hQuiet ⊢
  split at hQuiet
  case h_1 mark address => exact .inl ⟨mark, address, rfl, rfl⟩
  case h_2 =>
    split at hQuiet
    case isTrue hError => exact .inr ⟨hError, if_pos hError⟩
    case isFalse => exact absurd hQuiet (Quiet.not_report_bind rfl)

theorem analyzeAssign_eq {cell : Expr} {cellTy : Ty} (h : target.assignTarget line = pure (cell, cellTy)) :
    env.analyzeAssign line target value =
      (fun stored => .assign ⟨line, stored.2⟩ cell stored.1) <$> env.assignValue line cellTy value := by
  rw [analyzeAssign, h]
  exact Logged.ext rfl (by simp)

/-- An assignment is elaborated if its target is a cell. What is stored is converted unless it has the type of
the cell or is null. -/
theorem completes_assign (target value : Expr) :
    env.Completes names [target, value] (env.analyzeAssign line target value) := by
  intro hQuiet
  have hTargetQuiet := hQuiet
  rw [analyzeAssign, Logged.log_bind, Quiet.append_iff] at hTargetQuiet
  obtain ⟨mark, address, rfl, hTarget⟩ | ⟨hError, hTarget⟩ := assignTarget_quiet hTargetQuiet.1
  · rw [analyzeAssign_eq hTarget, Logged.log_map] at hQuiet
    rw [analyzeAssign_eq hTarget]
    have hCell : (∀ e ∈ [.deref mark address, value], env.Elaborates names e) →
        Denotes env (env.Selects names) address (.cell mark.ty) ∧
          Denotes env (env.Selects names) value (.value value.ty) ∧ env.types.IsValue mark.ty := by
      intro hGood
      have hRead := hGood (.deref mark address) (by simp)
      have hDenotes := hRead.denotes
      cases hDenotes with
      | read line hAddress => exact ⟨hAddress, (hGood value (by simp)).denotes, hRead.isValue⟩
    have hCellBound : (∀ e ∈ [.deref mark address, value], env.Bound names e) →
        env.Bound names address ∧ env.Bound names value := by
      rw [bound_pair]
      exact And.imp_left fun hRead => hRead.operand (mem_singleton.mpr rfl)
    obtain ⟨hEq, hError⟩ | ⟨hEq, hSame, hTy⟩ | ⟨hEq, hAssignable, hNe, hTy, hValue⟩ :=
      assignValue_quiet hQuiet
    · rw [hEq]
      refine Completes.fault ?_ rfl
        (fun hBound => .node rfl (bound_pair.mpr (hCellBound hBound))) Quiet.nil
      rcases hError with hError | hError
      · exact ⟨.deref mark address, by simp, hError⟩
      · exact ⟨value, by simp, hError⟩
    · rw [hEq]
      refine Completes.good (e := .assign ⟨line, mark.ty⟩ address value) ?_ (fun hGood => ?_)
        Quiet.nil
      · simp only [forall_mem_cons, not_mem_nil, false_implies, implies_true, and_true]
        exact ⟨hTy, hSame ▸ hTy⟩
      · obtain ⟨hAddress, hDenotes, hIsValue⟩ := hCell hGood
        exact ⟨⟨.assign line hAddress (hSame ▸ hDenotes), hIsValue, rfl⟩,
          fun hBound => .node rfl (bound_pair.mpr (hCellBound hBound))⟩
    · rw [hEq]
      refine Completes.good (e := .assign ⟨line, mark.ty⟩ address (value.widen mark.ty)) ?_
        (fun hGood => ?_) Quiet.nil
      · simp only [forall_mem_cons, not_mem_nil, false_implies, implies_true, and_true]
        exact ⟨hTy, hValue⟩
      · obtain ⟨hAddress, hDenotes, hIsValue⟩ := hCell hGood
        exact ⟨⟨.assign line hAddress (.widen _ hDenotes hAssignable hNe), hIsValue, rfl⟩, fun hBound =>
          .node rfl (bound_pair.mpr ((hCellBound hBound).imp_right fun h => h.widen _))⟩
  · rw [analyzeAssign_eq hTarget, Logged.log_map] at hQuiet
    rw [analyzeAssign_eq hTarget]
    obtain ⟨hEq, -⟩ | ⟨hEq, -, hTy⟩ | ⟨hEq, -, -, hTy, -⟩ := assignValue_quiet hQuiet
    · rw [hEq]
      exact Completes.fault ⟨target, by simp, hError⟩ rfl (fun h => .node rfl h) Quiet.nil
    · exact absurd rfl hTy
    · exact absurd rfl hTy

theorem completes_this (h : env.Sound names) : env.Completes names [] (env.analyzeThis line) := by
  rw [analyzeThis]
  rcases h.method_cases with ⟨hNone, -⟩ | ⟨c, m, hSome, -, -, hOwner, -, hRoutine⟩
  · rw [hNone]
    exact .report rfl
  · rw [hSome]
    refine .good (by simp) fun _ => ⟨⟨.this line ?_, .inr (h.owner_registered ?_), rfl⟩, fun h => .node rfl h⟩
    · rw [hRoutine.owner, hOwner]
    · rw [hRoutine.owner, hOwner]

/-- A variable is not completed from operands but looked up. One that is not declared is reported, which is not
terminal. -/
theorem checks_var (h : env.Sound names) (name : String) :
    env.Checks names (env.analyzeVar line name).log [(env.analyzeVar line name).value] := by
  rw [analyzeVar]
  cases hFound : env.resolveVariable name with
  | none =>
    refine ⟨forall_mem_singleton.mpr (.node rfl (forall_mem_nil _)), .inr ⟨by simp [Checked.report],
      by simp [Checked.report, Fault.isUndeclaredVariable], _, mem_singleton.mpr rfl, rfl⟩⟩
  | some found =>
    obtain ⟨ty, storage⟩ := found
    obtain ⟨hDeclares, hTy⟩ := h.resolveVariable hFound
    exact .of_elaborates ⟨.read _ (.var line hDeclares), .inr hTy, rfl⟩
      (.node rfl (forall_mem_singleton.mpr (.node rfl (forall_mem_nil _))))

/-- An access to a field is elaborated if its object is, since settled classes have an offset for each of their
fields. -/
theorem completes_field (h : env.Sound names) (object : Expr) (name : String) :
    env.Completes names [object] (env.analyzeField line object name) := by
  simp only [analyzeField]
  split
  case h_1 hError => exact .fault ⟨object, by simp, hError⟩ rfl (fun h => .node rfl h)
  case h_2 c hClass =>
    cases hType : env.types.lookupField c name with
    | none => exact .report rfl
    | some ty =>
      cases hOffset : env.types.fieldOffset c name with
      | none => exact .report rfl
      | some offset =>
        refine .good (by simp [hClass]) fun hGood => ?_
        have hObject := hGood object (by simp)
        have hDenotes := hObject.denotes
        have hRegistered : c.index < env.types.classes.length := by
          rcases hObject.isValue with hNull | hStored
          · rw [hClass] at hNull
            cases hNull
          · rw [hClass] at hStored
            exact hStored
        rw [hClass] at hDenotes
        have hFieldType : env.types.fieldType c name = some ty :=
          (h.settled.lookups c hRegistered name).symm.trans hType
        exact ⟨⟨.read _ (.field line hDenotes hFieldType hOffset),
          .inr (h.isStored_field hFieldType), rfl⟩,
          fun hBound => .node rfl (forall_mem_singleton.mpr (.node rfl hBound))⟩
  case h_3 => exact .report rfl

theorem completes_cast (h : env.Sound names) (className : String) (operand : Expr) :
    env.Completes names [operand] (env.analyzeCast line className operand) := by
  rw [analyzeCast]
  cases hClass : env.types.lookupClass className with
  | none => exact .report rfl
  | some c =>
    have hRegistered := ((h.settled.lineal.found className c).mp hClass).1
    have hCast : ∀ {ty : Ty}, operand.ty = ty → (ty = .null ∨ ∃ a, ty = .ofClass a) →
        env.Completes names [operand] (pure (.cast ⟨line, .ofClass c⟩ className operand (some c))) := by
      intro ty hTy hReference
      refine .good ?_ fun hGood => ?_
      · rcases hReference with rfl | ⟨a, rfl⟩ <;> simp [hTy]
      · have hOperand := (hGood operand (by simp)).denotes
        exact ⟨⟨.cast line (hTy ▸ hOperand) (hTy ▸ hReference) hClass, .inr hRegistered, rfl⟩,
          fun h => .node rfl h⟩
    simp only
    split
    case h_1 hError => exact .fault ⟨operand, by simp, hError⟩ rfl (fun h => .node rfl h)
    case h_2 a hTy => exact hCast hTy (.inr ⟨a, rfl⟩)
    case h_3 hTy => exact hCast hTy (.inl rfl)
    case h_4 => exact .report rfl

/-- Under the widenings of a call are the arguments as they were typed. -/
theorem map_unwidened_convertArgs (hArgs : ∀ a ∈ args, a.unwidened = a)
    (hLength : exact = false → (env.types.methodInfo m).params.length = args.length) :
    (env.convertArgs ⟨m, exact⟩ args).map Expr.unwidened = args := by
  cases exact with
  | true =>
    rw [convertArgs, if_pos rfl]
    exact (map_congr_left hArgs).trans (map_id args)
  | false =>
    have hZip : args.length = (env.types.methodInfo m).params.types.length := by
      rw [Bindings.types, length_map, hLength rfl]
    rw [convertArgs, if_neg (by simp), map_map]
    refine Eq.trans (map_congr_left ?_) (map_fst_zip (Nat.le_of_eq hZip))
    rintro ⟨a, ty⟩ hPair
    have ha := hArgs a (of_mem_zip hPair).1
    by_cases hTy : a.ty = ty
    · simp [hTy, ha]
    · simp [hTy, Expr.widen, Expr.unwidened]

/-- Under the widenings of a resolved call are the arguments as they were typed. -/
theorem map_unwidened_of_resolveMethod (h : env.Sound names) (hArgs : ∀ a ∈ args, env.Elaborates names a)
    (hResolve : env.types.resolveMethod c name kind (args.map Expr.ty) = some ⟨m, exact⟩) :
    (env.convertArgs ⟨m, exact⟩ args).map Expr.unwidened = args := by
  obtain ⟨-, -, -, -, hFits⟩ := h.settled.coherent.indexed.resolveMethod_eq_some hResolve
  refine map_unwidened_convertArgs (fun a ha => (hArgs a ha).unwidened) ?_
  rintro rfl
  rw [(accepts_iff.mp hFits).2.2.1, length_map]

/-- The arguments of a resolved call fit the routine once they are widened. -/
theorem selects_convertArgs (h : env.Sound names) (hArgs : ∀ a ∈ args, env.Elaborates names a)
    (hResolve : env.types.resolveMethod c name kind (args.map Expr.ty) = some ⟨m, exact⟩)
    (hCalled : env.CalledBy names c kind name) :
    env.Selects names c kind name (env.convertArgs ⟨m, exact⟩ args) m ∧
      ∀ a ∈ env.convertArgs ⟨m, exact⟩ args, Denotes env (env.Selects names) a (.value a.ty) := by
  obtain ⟨-, -, -, -, hFits⟩ := h.settled.coherent.indexed.resolveMethod_eq_some hResolve
  have hAccepts : exact = false → env.types.accepts name kind (args.map Expr.ty) m = true := by
    rintro rfl
    exact hFits
  have hUnwidened := map_unwidened_of_resolveMethod h hArgs hResolve
  refine ⟨⟨hCalled, exact, ?_, by rw [hUnwidened]⟩, ?_⟩
  · have hTypes : (env.convertArgs ⟨m, exact⟩ args).map (fun a => a.unwidened.ty) =
        args.map Expr.ty := by
      rw [← hUnwidened, map_map, hUnwidened]
      rfl
    rw [hTypes, hResolve]
  · intro a ha
    rw [convertArgs] at ha
    split at ha
    case isTrue => exact (hArgs a ha).denotes
    case isFalse hExact =>
      obtain ⟨-, -, -, hAll⟩ := accepts_iff.mp (hAccepts (by simpa using hExact))
      obtain ⟨⟨arg, ty⟩, hPair, rfl⟩ := mem_map.mp ha
      have hArg := (hArgs arg (of_mem_zip hPair).1).denotes
      have hAssignable : env.types.isAssignable arg.ty ty = true := by
        rw [zip_map_left] at hAll
        exact hAll (arg.ty, ty) (mem_map.mpr ⟨(arg, ty), hPair, rfl⟩)
      by_cases hTy : arg.ty = ty
      · simp only [hTy, if_true]
        exact hTy ▸ hArg
      · simp only [if_neg hTy]
        exact .widen _ hArg hAssignable hTy

/-- A routine that is found by arguments which are typed is resolved. -/
theorem Resolves.of_resolveMethod (h : env.Sound names) (hArgs : ∀ a ∈ args, env.Elaborates names a)
    (hResolve : env.types.resolveMethod c name kind (args.map Expr.ty) = some ⟨m, exact⟩)
    (hCalled : env.CalledBy names c kind name) : env.Resolves names (env.convertArgs ⟨m, exact⟩ args) m := by
  refine ⟨⟨c, kind, name, (selects_convertArgs h hArgs hResolve hCalled).1⟩, fun a ha => ?_⟩
  have hUnder := mem_map_of_mem (f := Expr.unwidened) ha
  rw [map_unwidened_of_resolveMethod h hArgs hResolve] at hUnder
  exact (hArgs _ hUnder).isValue

theorem any_error_iff : (args.any fun e => decide (e.ty = .error)) = true ↔ ∃ e ∈ args, e.ty = .error := by
  simp

variable (h : env.Sound names)
include h

/-- A new object is elaborated if its class is known and its arguments fit a constructor, which resolution has
made sure of. -/
theorem completes_new (className : String) (args : List Expr) :
    env.Completes names args (env.analyzeNew line className args) := by
  rw [analyzeNew]
  cases hClass : env.types.lookupClass className with
  | none => exact .report rfl
  | some c =>
    obtain ⟨hRegistered, hName⟩ := (h.settled.lineal.found className c).mp hClass
    simp only
    split
    case isTrue hError => exact .fault (any_error_iff.mp hError) rfl (fun h => .node rfl h)
    case isFalse hClean =>
      have hClean' : ∀ e ∈ args, e.ty ≠ .error := by
        rw [any_error_iff] at hClean
        simpa using hClean
      cases hResolve : env.types.resolveMethod c className .constructor (args.map Expr.ty) with
      | none => exact .report rfl
      | some resolution =>
        obtain ⟨m, exact⟩ := resolution
        refine .good hClean' fun hGood => ?_
        obtain ⟨hSelects, hDenotes⟩ := selects_convertArgs h hGood hResolve hName.symm
        refine ⟨⟨.new line hDenotes hClass hSelects, .inr hRegistered, rfl⟩,
          fun hBound => .of_operands ?_ (bound_convertArgs hBound _)⟩
        rintro _ _ ⟨⟩
        exact .of_resolveMethod h hGood hResolve hName.symm

/-- A receiver that is not in error has a class, and the class is registered. -/
theorem receiverClass_quiet (hQuiet : Quiet (env.receiverClass line name receiver).log) :
    (∃ e ∈ receiver.operands, e.ty = .error) ∧ env.receiverClass line name receiver = pure none ∨
      (∀ e ∈ receiver.operands, e.ty ≠ .error) ∧ ∃ c,
        env.receiverClass line name receiver = pure (some c) ∧ env.LooksIn receiver c ∧
        ((∀ e ∈ receiver.operands, env.Elaborates names e) → c.index < env.types.classes.length) := by
  cases receiver with
  | implicit =>
    rcases h.method_cases with ⟨hNone, -⟩ | ⟨c, m, hSome, -, -, hOwner, -, hRoutine⟩
    · rw [receiverClass, hNone] at hQuiet
      exact absurd hQuiet (Quiet.not_report_bind rfl)
    · refine .inr ⟨by simp [Receiver.operands], c, ?_, hOwner, fun _ => h.owner_registered hOwner⟩
      rw [receiverClass, hSome]
      simp only [hRoutine.owner]
  | super =>
    rcases h.method_cases with ⟨hNone, -⟩ | ⟨c, m, hSome, -, -, hOwner, -, hRoutine⟩
    · rw [receiverClass, hNone] at hQuiet
      exact absurd hQuiet (Quiet.not_report_bind rfl)
    · obtain ⟨p, hParent⟩ := h.owner_parent hOwner
      refine .inr ⟨by simp [Receiver.operands], p, ?_, ⟨c, hOwner, hParent⟩,
        fun _ => h.settled.lineal.parent_lt c p hParent⟩
      rw [receiverClass, hSome, Option.bind_some, hRoutine.owner, hParent]
  | object e =>
    rw [receiverClass] at hQuiet ⊢
    split at hQuiet
    case h_1 c hClass =>
      refine .inr ⟨by simp [Receiver.operands, hClass], c, rfl, hClass, fun hGood => ?_⟩
      have hValue := (hGood e (by simp [Receiver.operands])).isValue
      rw [hClass] at hValue
      rcases hValue with hNull | hStored
      · cases hNull
      · exact hStored
    case h_2 hError => exact .inl ⟨⟨e, by simp [Receiver.operands], hError⟩, rfl⟩
    case h_3 => exact absurd hQuiet (Quiet.not_report_bind rfl)

/-- A method that is found is dispatched through a slot of the table of the class it was looked up
in, unless it is bound directly. -/
theorem dispatches_callSlot (hc : c.index < env.types.classes.length) (ha : a ∈ env.types.chain c)
    (hMem : m ∈ (env.types.classInfo a).methods) (hKind : (env.types.methodInfo m).kind = .method) :
    env.Dispatches receiver c m (env.callSlot receiver c (env.types.methodInfo m)) := by
  have hVirtual : (env.types.methodInfo m).isVirtual = true := by simp [MethodInfo.isVirtual, hKind]
  obtain ⟨slot, hSlot⟩ := exists_slotOf_dispatchTable ha hMem hVirtual
  rw [← h.settled.tables c hc] at hSlot
  cases receiver with
  | super => rfl
  | implicit | object _ => exact ⟨slot, hSlot, hSlot⟩

/-- A call is elaborated from its arguments and its receiver. The name has to be one that `names` allows, as
others may mimic a signature. -/
theorem completes_call (receiver : Receiver Expr) (hName : names name) (args : List Expr) :
    env.Completes names (args ++ receiver.operands) (env.analyzeCall line receiver name args) := by
  have hOpen {mark : Mark} (hBound : ∀ e ∈ args ++ receiver.operands, env.Bound names e) :
      env.Bound names (.call mark receiver name args none none) :=
    .node rfl (forall_mem_append.mpr (forall_mem_append.mp hBound).symm)
  intro hQuiet
  have hReceiverQuiet := hQuiet
  simp only [analyzeCall] at hQuiet hReceiverQuiet ⊢
  rw [Logged.log_bind, Quiet.append_iff] at hReceiverQuiet
  obtain ⟨⟨e, he, hError⟩, hClass⟩ | ⟨hClean, c, hClass, hLooksIn, hRegistered⟩ :=
    receiverClass_quiet h hReceiverQuiet.1
  · rw [hClass]
    exact Completes.fault ⟨e, mem_append_right _ he, hError⟩ rfl hOpen Quiet.nil
  · rw [hClass, pure_bind] at hQuiet ⊢
    simp only at hQuiet ⊢
    revert hQuiet
    change env.Completes names _ _
    split
    case isTrue hError =>
      obtain ⟨e, he, hError⟩ := any_error_iff.mp hError
      exact .fault ⟨e, mem_append_left _ he, hError⟩ rfl hOpen
    case isFalse hArgs =>
      have hClean' : ∀ e ∈ args ++ receiver.operands, e.ty ≠ .error := by
        rw [any_error_iff] at hArgs
        intro e he
        rcases mem_append.mp he with he | he
        · exact fun hError => hArgs ⟨e, he, hError⟩
        · exact hClean e he
      cases hResolve : env.types.resolveMethod c name .method (args.map Expr.ty) with
      | none => exact .report rfl
      | some resolution =>
        obtain ⟨m, exact⟩ := resolution
        refine .good hClean' fun hGood => ?_
        have hArgs' : ∀ a ∈ args, env.Elaborates names a :=
          fun a ha => hGood a (mem_append_left _ ha)
        have hReceiver : ∀ e ∈ receiver.operands, env.Elaborates names e :=
          fun e he => hGood e (mem_append_right _ he)
        obtain ⟨a, ha, hMem, hKind, -⟩ := h.settled.coherent.indexed.resolveMethod_eq_some hResolve
        obtain ⟨hSelects, hDenotes⟩ := selects_convertArgs h hArgs' hResolve hName
        obtain ⟨ty, hReturns, hTy⟩ := ((h.settled.coherent a).routine m hMem).returns hKind
        simp only [hReturns, Option.getD_some]
        refine ⟨⟨.call line ?_ hDenotes hLooksIn hSelects hReturns
          (dispatches_callSlot h (hRegistered hReceiver) ha hMem hKind), .inr hTy, rfl⟩,
          fun hBound => .of_operands ?_ ?_⟩
        · rintro e rfl
          exact (hReceiver e (by simp [Receiver.operands])).denotes
        · rintro _ _ ⟨⟩
          exact .of_resolveMethod h hArgs' hResolve hName
        · obtain ⟨hBound, hObject⟩ := forall_mem_append.mp hBound
          exact forall_mem_append.mpr ⟨hObject, bound_convertArgs hBound _⟩

end Env

namespace Expr

variable {names : String → Prop} {env : Env}

/-- Each kind of node is completed by the step for it. Variables have no operands and are left out here. -/
theorem completes_typeNode (h : env.Sound names) (hVar : e.isVar = false) (hNode : e.isSourceNode = true)
    (hCalls : ∀ name, e.called? = some name → names name) :
    env.Completes names e.inTypingOrder (e.typeNode env) := by
  cases e with
  | int => exact fun _ => ⟨rfl, fun _ => ⟨.int _ _, .inr trivial, rfl⟩, nofun, fun _ _ => .node rfl (forall_mem_nil _)⟩
  | null => exact fun _ => ⟨rfl, fun _ => ⟨.null _, .inl rfl, rfl⟩, nofun, fun _ _ => .node rfl (forall_mem_nil _)⟩
  | this => exact Env.completes_this h
  | var => cases hVar
  | binary => exact Env.completes_binary _ _ _
  | unary => exact Env.completes_unary _ _
  | assign => exact Env.completes_assign _ _
  | field => exact Env.completes_field h _ _
  | call => exact Env.completes_call h _ (hCalls _ rfl) _
  | new => exact Env.completes_new h _ _
  | cast => exact Env.completes_cast h _ _
  | deref | convert => cases hNode

/-- Typing a tree as it was read checks it, if nothing terminal is reported. What is undeclared may be reported
and leaves an error type. -/
theorem analyze_checks (h : env.Sound names) (e : Expr) (hFresh : e.isFresh = true) (hCalls : e.CallsBy names)
    (hQuiet : Quiet (e.analyze env).log) : env.Checks names (e.analyze env).log [(e.analyze env).value] := by
  induction e using byOperands with
  | node e ih =>
    rw [log_analyze, Quiet.append_iff] at hQuiet
    cases hVar : e.isVar with
    | true =>
      cases e with
      | var mark name storage => exact Env.checks_var h name
      | _ => cases hVar
    | false =>
      rw [log_analyze, value_analyze]
      refine (Env.Checks.flatMap ?_).complete ?_ hQuiet.2
      · intro o ho
        exact ih o (mem_inTypingOrder.mp ho) (isFresh_operand hFresh (mem_inTypingOrder.mp ho))
          (hCalls.operand (mem_inTypingOrder.mp ho)) fun d hd => hQuiet.1 d (mem_flatMap_of_mem ho hd)
      · rw [← inTypingOrder_mapOperands]
        have hName : (e.withTyped env).called? = e.called? := by cases e <;> rfl
        exact completes_typeNode h (by rw [isVar_mapOperands, hVar])
          (by rw [isSourceNode_mapOperands, isSourceNode_of_isFresh hFresh])
          fun name h => hCalls e name (.refl e) (hName ▸ h)

theorem analyzeArgs_checks (h : env.Sound names) (args : List Expr) (hFresh : areFresh args = true)
    (hCalls : ∀ e ∈ args, e.CallsBy names) (hQuiet : Quiet (analyzeArgs env args).log) :
    env.Checks names (analyzeArgs env args).log (analyzeArgs env args).value := by
  rw [log_analyzeArgs] at hQuiet ⊢
  rw [value_analyzeArgs]
  refine .flatMap fun e he => ?_
  exact analyze_checks h e ((areFresh_iff args).mp hFresh e he) (hCalls e he) fun d hd =>
    hQuiet d (mem_flatMap_of_mem he hd)

end Expr
end TLang
