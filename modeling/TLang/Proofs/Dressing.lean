import TLang.Proofs.Erasure
import TLang.Proofs.Steps

/-! What typing makes of a node. Once it is erased the node is the same; it has the same variables, and
reports on variables are made for variables alone. Its type is the error type if one of its operands is in
error or if something is reported for the node itself. -/
namespace TLang

open Checked List

variable {log more : List Diagnostic} {fault : Fault} {c : ClassId} {name : String}
  {kind : MethodKind} {e : Expr} {args : List Expr} {resolution : Registry.Resolution}

/-- The reports that a variable is declared twice. -/
def duplicates (ds : List Diagnostic) : List Diagnostic :=
  ds.filter (·.fault.isDuplicateVariable)

@[simp] theorem duplicates_nil : duplicates [] = [] := rfl

@[simp] theorem duplicates_append (ds more : List Diagnostic) :
    duplicates (ds ++ more) = duplicates ds ++ duplicates more :=
  filter_append ..

/-- The line and the name of a variable that is reported as undeclared. -/
def Fault.undeclared? : Fault → Option String
  | undeclaredVariable name => some name
  | _ => none

/-- The variables that are reported as undeclared. -/
def undeclared (log : List Diagnostic) : List (Nat × String) :=
  log.filterMap fun d => d.fault.undeclared?.map (d.line, ·)

@[simp] theorem undeclared_nil : undeclared [] = [] := rfl

@[simp] theorem undeclared_append (log more : List Diagnostic) :
    undeclared (log ++ more) = undeclared log ++ undeclared more :=
  filterMap_append

/-- Nothing is reported of variables. -/
def Silent (log : List Diagnostic) : Prop := duplicates log = [] ∧ undeclared log = []

namespace Silent

theorem nil : Silent [] := ⟨rfl, rfl⟩

theorem append (h : Silent log) (h' : Silent more) : Silent (log ++ more) :=
  ⟨by rw [duplicates_append, h.1, h'.1, append_nil], by rw [undeclared_append, h.2, h'.2, append_nil]⟩

theorem report {line : Nat} (h : fault.isVariableFault = false) : Silent [⟨line, fault⟩] := by
  cases fault with
  | undeclaredVariable | duplicateVariable => cases h
  | _ => exact ⟨rfl, rfl⟩

end Silent

/-- A variable in a tree, with its storage once that is known. -/
structure Occurrence where
  line : Nat
  name : String
  storage : Option Storage
deriving DecidableEq

mutual

/-- The variables of an expression, in the order in which they are typed. -/
def Expr.occurrences : Expr → List Occurrence
  | .int _ _ | .null _ | .this _ => []
  | .var mark name storage => [⟨mark.line, name, storage⟩]
  | .binary _ _ left right => left.occurrences ++ right.occurrences
  | .unary _ _ e | .field _ e _ _ | .cast _ _ e _ | .deref _ e | .convert _ e => e.occurrences
  | .assign _ target value => target.occurrences ++ value.occurrences
  | .call _ receiver _ args _ _ => Expr.occurrencesOfAll args ++ Expr.occurrencesOfReceiver receiver
  | .new _ _ args _ _ => Expr.occurrencesOfAll args

def Expr.occurrencesOfReceiver : Receiver Expr → List Occurrence
  | .implicit | .super => []
  | .object e => e.occurrences

def Expr.occurrencesOfAll : List Expr → List Occurrence
  | [] => []
  | e :: rest => e.occurrences ++ Expr.occurrencesOfAll rest

end

namespace Expr

theorem occurrencesOfAll_eq (es : List Expr) : occurrencesOfAll es = es.flatMap occurrences := by
  induction es with
  | nil => rfl
  | cons e rest ih => rw [occurrencesOfAll, ih, flatMap_cons]

@[simp] theorem occurrencesOfAll_nil : occurrencesOfAll [] = [] := rfl

@[simp] theorem occurrencesOfAll_cons (e : Expr) (rest : List Expr) :
    occurrencesOfAll (e :: rest) = e.occurrences ++ occurrencesOfAll rest := rfl

@[simp] theorem occurrences_widen (e : Expr) (ty : Ty) : (e.widen ty).occurrences = e.occurrences := by
  rw [widen, occurrences]

@[simp] theorem occurrences_withTy (e : Expr) (ty : Ty) : (e.withTy ty).occurrences = e.occurrences := by
  cases e <;> rfl

/-- Only a variable adds to the variables of its operands. -/
theorem occurrences_eq (h : e.isVar = false) : e.occurrences = e.inTypingOrder.flatMap occurrences := by
  cases e with
  | var => cases h
  | call _ receiver =>
    cases receiver <;> simp [occurrences, occurrencesOfReceiver, inTypingOrder, Receiver.operands,
      occurrencesOfAll_eq]
  | int | null | this | binary | unary | assign | field | new | cast | deref | convert =>
    simp [occurrences, inTypingOrder, operands, occurrencesOfAll_eq]

end Expr

/-- The fault of a node may be found before all its operands have types. -/
def Fault.isEarly : Fault → Bool
  | notAssignable | callWithoutReceiver _ | superOutsideMethod | callOnNonObject _ _ | undeclaredClass _
  | castToUndeclared _ => true
  | _ => false

/-- The type of a node and what is reported for it, where `faulty` says that an operand is in error. -/
structure Blames (faulty : Prop) (line : Nat) (ty : Ty) (log : List Diagnostic) : Prop where
  error_iff : ty = .error ↔ faulty ∨ log ≠ []
  own : log = [] ∨ ∃ fault : Fault, log = [⟨line, fault⟩] ∧ (faulty → fault.isEarly = true)

namespace Blames

variable {faulty : Prop} {line : Nat} {ty : Ty}

theorem silent (h : faulty) (hTy : ty = .error) : Blames faulty line ty [] :=
  ⟨iff_of_true hTy (.inl h), .inl rfl⟩

theorem typed (h : ¬ faulty) (hTy : ty ≠ .error) : Blames faulty line ty [] :=
  ⟨iff_of_false hTy (by simpa using h), .inl rfl⟩

theorem reported (h : faulty → fault.isEarly = true) (hTy : ty = .error) :
    Blames faulty line ty [⟨line, fault⟩] :=
  ⟨iff_of_true hTy (.inr (cons_ne_nil _ _)), .inr ⟨fault, rfl, h⟩⟩

end Blames

/-- One of the operands of a node is in error. -/
def Expr.Faulty (e : Expr) : Prop := ∃ o ∈ e.operands, o.ty = .error

theorem Expr.faulty_binary {mark : Mark} {op : BinaryOp} {left right : Expr} :
    (binary mark op left right).Faulty ↔ left.ty = .error ∨ right.ty = .error := by
  simp [Faulty, operands]

/-- What can be assigned to keeps its type, an expression in error is passed over, and anything else is
reported. -/
theorem Expr.assignTarget_cases (line : Nat) (target : Expr) :
    ∃ cell, cell.erase = target.erase ∧ cell.occurrences = target.occurrences ∧
      (target.assignTarget line = pure (cell, target.ty) ∨
        target.assignTarget line = ⟨(cell, .error), [⟨line, .notAssignable⟩]⟩) := by
  rw [assignTarget.eq_def]
  split
  case h_1 mark address => exact ⟨address, rfl, rfl, .inl rfl⟩
  case h_2 =>
    split
    case isTrue hError => exact ⟨target, rfl, rfl, .inl (by rw [hError])⟩
    case isFalse => exact ⟨target, rfl, rfl, .inr rfl⟩

namespace Env

/-- No type that an expression can take from the environment is the error type. -/
structure Untainted (env : Env) : Prop where
  reads : ∀ name ty storage, env.resolveVariable name = some (ty, storage) → ty ≠ .error
  fields : ∀ c name ty, env.types.lookupField c name = some ty → ty ≠ .error
  calls : ∀ c name args resolution, env.types.resolveMethod c name .method args = some resolution →
    (env.types.methodInfo resolution.method).returns.getD .error ≠ .error

/-- What typing makes of a node whose operands are typed. -/
structure Dresses (env : Env) (e : Expr) (x : Checked Expr) : Prop where
  erase : x.value.erase = e.erase
  occurrences : x.value.occurrences = e.occurrences
  silent : Silent x.log
  blames : env.Untainted → Blames e.Faulty e.line x.value.ty x.log

namespace Dresses

variable {env : Env} {e' : Expr} {line : Nat} (hErase : e'.erase = e.erase)
  (hOccurrences : e'.occurrences = e.occurrences)

include hErase hOccurrences

/-- A node with an operand in error is passed over. -/
theorem spread (hFaulty : e.Faulty) (hTy : e'.ty = .error) : env.Dresses e (pure e') :=
  ⟨hErase, hOccurrences, .nil, fun _ => .silent hFaulty hTy⟩

theorem typed (hClean : ¬ e.Faulty) (hTy : env.Untainted → e'.ty ≠ .error) : env.Dresses e (pure e') :=
  ⟨hErase, hOccurrences, .nil, fun h => .typed hClean (hTy h)⟩

theorem report (hLine : e.line = line) (hFault : fault.isVariableFault = false)
    (hEarly : e.Faulty → fault.isEarly = true) (hTy : e'.ty = .error) :
    env.Dresses e (do report line fault; return e') := by
  subst hLine
  exact ⟨hErase, hOccurrences, .report hFault, fun _ => .reported hEarly hTy⟩

end Dresses

variable (env : Env) (mark : Mark)

theorem dresses_analyzeThis : env.Dresses (.this mark) (env.analyzeThis mark.line) := by
  have hClean : ¬ (Expr.this mark).Faulty := by simp [Expr.Faulty, Expr.operands]
  rw [analyzeThis]
  split
  · exact .typed rfl rfl hClean fun _ => by rintro ⟨⟩
  · exact .report rfl rfl rfl rfl (fun h => absurd h hClean) rfl

/-- A comparison keeps its operands, perhaps under a conversion. An operand that is faulty makes the comparison
faulty, and nothing is reported again. -/
theorem dresses_analyzeEquality (left right : Expr) :
    env.Dresses (.binary mark .eq left right) (env.analyzeEquality mark.line left right) := by
  rw [analyzeEquality]
  split
  case h_1 hError => exact .spread rfl rfl (Expr.faulty_binary.mpr (.inl hError)) rfl
  case h_2 hError _ => exact .spread rfl rfl (Expr.faulty_binary.mpr (.inr hError)) rfl
  case h_3 hNull hRight =>
    exact .typed rfl rfl (by simpa [Expr.faulty_binary, hNull] using hRight) fun _ => by rintro ⟨⟩
  case h_4 hNull hLeft _ =>
    exact .typed rfl rfl (by simpa [Expr.faulty_binary, hNull] using hLeft) fun _ => by rintro ⟨⟩
  case h_5 hLeft hRight =>
    exact .typed rfl rfl (by simp [Expr.faulty_binary, hLeft, hRight]) fun _ => by rintro ⟨⟩
  case h_6 a b hLeft hRight =>
    have hClean : ¬ (Expr.binary mark .eq left right).Faulty := by
      simp [Expr.faulty_binary, hLeft, hRight]
    split
    · split
      · exact .typed (by simp [Expr.erase, Mark.erase]) (by simp [Expr.occurrences]) hClean
          fun _ => by rintro ⟨⟩
      · split <;> exact .typed (by simp [Expr.erase, Mark.erase]) (by simp [Expr.occurrences]) hClean
          fun _ => by rintro ⟨⟩
    · exact .report rfl rfl rfl rfl (fun h => absurd h hClean) rfl
  case h_7 hLeft _ hRight _ _ _ =>
    exact .report rfl rfl rfl rfl (fun h => ((Expr.faulty_binary.mp h).elim hLeft hRight).elim) rfl

/-- Arithmetic keeps its operands as they are. It is typed as an integer unless something is reported or an
operand is faulty. -/
theorem dresses_analyzeArithmetic (op : BinaryOp) (left right : Expr) :
    env.Dresses (.binary mark op left right) (env.analyzeArithmetic mark.line op left right) := by
  rw [analyzeArithmetic]
  split
  case isTrue hFaulty => exact .spread rfl rfl (Expr.faulty_binary.mpr hFaulty) rfl
  case isFalse hClean =>
    rw [← Expr.faulty_binary] at hClean
    split
    · exact .typed rfl rfl hClean fun _ => by rintro ⟨⟩
    · exact .report rfl rfl rfl rfl (fun h => absurd h hClean) rfl

theorem dresses_analyzeBinary (op : BinaryOp) (left right : Expr) :
    env.Dresses (.binary mark op left right) (env.analyzeBinary mark.line op left right) := by
  cases op with
  | eq => exact env.dresses_analyzeEquality mark left right
  | add | sub | mul | div | lt | gt => exact env.dresses_analyzeArithmetic mark _ left right

theorem dresses_analyzeUnary (op : UnaryOp) (operand : Expr) :
    env.Dresses (.unary mark op operand) (env.analyzeUnary mark.line op operand) := by
  have hFaulty : (Expr.unary mark op operand).Faulty ↔ operand.ty = .error := by
    simp [Expr.Faulty, Expr.operands]
  rw [analyzeUnary]
  split
  case h_1 hInt => exact .typed rfl rfl (by simp [hFaulty, hInt]) fun _ => by rintro ⟨⟩
  case h_2 hError => exact .spread rfl rfl (hFaulty.mpr hError) rfl
  case h_3 hClean => exact .report rfl rfl rfl rfl (fun h => absurd (hFaulty.mp h) hClean) rfl

/-- What is stored is the value, perhaps converted. The type that results is that of an error only with a report
or a faulty part. -/
theorem assignValue_spec (line : Nat) (ty : Ty) (value : Expr) :
    (env.assignValue line ty value).value.1.erase = value.erase ∧
      (env.assignValue line ty value).value.1.occurrences = value.occurrences ∧
      Silent (env.assignValue line ty value).log ∧
      Blames (ty = .error ∨ value.ty = .error) line (env.assignValue line ty value).value.2
        (env.assignValue line ty value).log := by
  rw [assignValue]
  split
  case isTrue hFaulty => exact ⟨rfl, rfl, .nil, .silent hFaulty rfl⟩
  case isFalse hClean =>
    have hReported {fault : Fault} (hFault : fault.isVariableFault = false) : Silent [⟨line, fault⟩] ∧
          Blames (ty = .error ∨ value.ty = .error) line .error [⟨line, fault⟩] :=
      ⟨.report hFault, .reported (fun hFaulty => absurd hFaulty hClean) rfl⟩
    have hTy : ty ≠ .error := fun hError => hClean (.inl hError)
    split
    · exact ⟨rfl, rfl, .nil, .typed hClean hTy⟩
    split
    · exact ⟨rfl, rfl, hReported rfl⟩
    split
    · exact ⟨rfl, rfl, hReported rfl⟩
    split
    · exact ⟨value.erase_widen ty, value.occurrences_widen ty, .nil, .typed hClean hTy⟩
    split
    · split <;> exact ⟨rfl, rfl, hReported rfl⟩
    · exact ⟨rfl, rfl, hReported rfl⟩

/-- An assignment keeps target and value. A target that is no cell is reported here, and then the value is not
converted. -/
theorem dresses_analyzeAssign (target value : Expr) :
    env.Dresses (.assign mark target value) (env.analyzeAssign mark.line target value) := by
  have hFaulty : (Expr.assign mark target value).Faulty ↔ target.ty = .error ∨ value.ty = .error := by
    simp [Expr.Faulty, Expr.operands]
  have hErase {cell stored : Expr} {ty : Ty} (hCell : cell.erase = target.erase)
      (hStored : stored.erase = value.erase) : (Expr.assign ⟨mark.line, ty⟩ cell stored).erase =
        (Expr.assign mark target value).erase := by
    rw [Expr.erase, Expr.erase, hCell, hStored]
    rfl
  have hOccurrences {cell stored : Expr} {ty : Ty} (hCell : cell.occurrences = target.occurrences)
      (hStored : stored.occurrences = value.occurrences) :
      (Expr.assign ⟨mark.line, ty⟩ cell stored).occurrences =
        (Expr.assign mark target value).occurrences := by
    rw [Expr.occurrences, Expr.occurrences, hCell, hStored]
  obtain ⟨cell, hCell, hCell', hTarget | hTarget⟩ := target.assignTarget_cases mark.line
  · obtain ⟨hStored, hStored', hSilent, hBlames⟩ := env.assignValue_spec mark.line target.ty value
    have hLog : (env.analyzeAssign mark.line target value).log =
        (env.assignValue mark.line target.ty value).log := by
      simp [analyzeAssign, hTarget]
    rw [← hFaulty] at hBlames
    refine ⟨?_, ?_, hLog ▸ hSilent, fun _ => hLog ▸ ?_⟩ <;> rw [analyzeAssign, hTarget]
    · exact hErase hCell hStored
    · exact hOccurrences hCell' hStored'
    · exact hBlames
  -- A target that is reported counts as in error, so the value is not reported as well.
  · have hValue : env.assignValue mark.line .error value = pure (value, .error) := by
      simp [assignValue]
    have hAssign : env.analyzeAssign mark.line target value =
        (do report mark.line .notAssignable; return .assign ⟨mark.line, .error⟩ cell value) := by
      rw [analyzeAssign, hTarget]
      exact Logged.ext (by simp [hValue]) (by simp [hValue, Checked.report])
    rw [hAssign]
    exact .report (hErase hCell rfl) (hOccurrences hCell' rfl) rfl rfl (fun _ => rfl) rfl

/-- An access to a field adds an offset. A field that the class does not have is reported with the line of the
access. -/
theorem dresses_analyzeField (object : Expr) (name : String) (offset : Option Nat) :
    env.Dresses (.field mark object name offset) (env.analyzeField mark.line object name) := by
  have hFaulty : (Expr.field mark object name offset).Faulty ↔ object.ty = .error := by
    simp [Expr.Faulty, Expr.operands]
  rw [analyzeField]
  split
  case h_1 hError => exact .spread rfl rfl (hFaulty.mpr hError) rfl
  case h_2 c hClass =>
    have hClean : ¬ (Expr.field mark object name offset).Faulty := by simp [hFaulty, hClass]
    split
    case h_1 ty offset hType _ => exact .typed rfl rfl hClean fun h => h.fields c name ty hType
    case h_2 => exact .report rfl rfl rfl rfl (fun h => absurd h hClean) rfl
  case h_3 hClean _ => exact .report rfl rfl rfl rfl (fun h => absurd (hFaulty.mp h) hClean) rfl

/-- No argument is lost when some of them are widened. -/
theorem map_convertArgs {α : Type} {g : Expr → α} (hWiden : ∀ e ty, g (e.widen ty) = g e)
    (h : env.types.resolveMethod c name kind (args.map Expr.ty) = some resolution) :
    (env.convertArgs resolution args).map g = args.map g := by
  obtain ⟨m, exact⟩ := resolution
  rw [convertArgs]
  cases exact with
  | true => rfl
  | false =>
    have hLength : (env.types.methodInfo m).params.types.length = args.length := by
      rw [Bindings.types, length_map, Registry.length_params_of_widened h, length_map]
    have hSame : ∀ arg : Expr, ∀ ty, g (if arg.ty = ty then arg else arg.widen ty) = g arg := by
      intro arg ty
      split
      · rfl
      · exact hWiden arg ty
    simp only [Bool.false_eq_true, if_false, map_map, Function.comp_def, hSame]
    rw [← Function.comp_def g Prod.fst, ← map_map, map_fst_zip (Nat.le_of_eq hLength.symm)]

theorem occurrences_convertArgs (h : env.types.resolveMethod c name kind (args.map Expr.ty) = some resolution) :
    Expr.occurrencesOfAll (env.convertArgs resolution args) = Expr.occurrencesOfAll args := by
  rw [Expr.occurrencesOfAll_eq, Expr.occurrencesOfAll_eq, flatMap_def, flatMap_def,
    env.map_convertArgs Expr.occurrences_widen h]

/-- The class in which a method is looked up is known, or the receiver is in error, or the receiver is
reported. -/
theorem receiverClass_cases (line : Nat) (name : String) (receiver : Receiver Expr) :
    (∃ c, env.receiverClass line name receiver = pure (some c) ∧ ∀ o ∈ receiver.operands, o.ty ≠ .error) ∨
      (env.receiverClass line name receiver = pure none ∧ ∃ o ∈ receiver.operands, o.ty = .error) ∨
      ∃ fault : Fault, fault.isEarly = true ∧ fault.isVariableFault = false ∧
        env.receiverClass line name receiver = ⟨none, [⟨line, fault⟩]⟩ := by
  have hNone : ∀ o ∈ ([] : List Expr), o.ty ≠ .error := fun _ ho => absurd ho not_mem_nil
  cases receiver with
  | implicit =>
    rw [receiverClass]
    split
    · exact .inl ⟨_, rfl, hNone⟩
    · exact .inr (.inr ⟨.callWithoutReceiver name, rfl, rfl, rfl⟩)
  | super =>
    rw [receiverClass]
    split
    · exact .inl ⟨_, rfl, hNone⟩
    · exact .inr (.inr ⟨.superOutsideMethod, rfl, rfl, rfl⟩)
  | object e =>
    rw [receiverClass]
    split
    case h_1 c hClass => exact .inl ⟨c, rfl, by simp [Receiver.operands, hClass]⟩
    case h_2 hError => exact .inr (.inl ⟨rfl, e, mem_singleton_self e, hError⟩)
    case h_3 => exact .inr (.inr ⟨.callOnNonObject name _, rfl, rfl, rfl⟩)

/-- A call keeps its receiver and its arguments in order, and adds the method and the slot. Conversions of
arguments are left out of account. -/
theorem dresses_analyzeCall (receiver : Receiver Expr) (name : String) (args : List Expr)
    (method : Option MethodId) (slot : Option Nat) :
    env.Dresses (.call mark receiver name args method slot)
      (env.analyzeCall mark.line receiver name args) := by
  have hFaulty : (Expr.call mark receiver name args method slot).Faulty ↔
      (∃ o ∈ receiver.operands, o.ty = .error) ∨ ∃ o ∈ args, o.ty = .error := by
    simp only [Expr.Faulty, Expr.operands, mem_append, or_and_right, exists_or]
  rw [analyzeCall]
  rcases env.receiverClass_cases mark.line name receiver with
    ⟨c, hReceiver, hClean⟩ | ⟨hReceiver, hError⟩ | ⟨fault, hEarly, hFault, hReceiver⟩
  · rw [hReceiver, pure_bind]
    simp only [any_eq_true, decide_eq_true_eq]
    split
    case isTrue hError => exact .spread rfl rfl (hFaulty.mpr (.inr hError)) rfl
    case isFalse hArgs =>
      have hNot : ¬ (Expr.call mark receiver name args method slot).Faulty := by
        rw [hFaulty]
        rintro (⟨o, ho, hError⟩ | hError)
        · exact hClean o ho hError
        · exact hArgs hError
      split
      case h_1 resolution hFound =>
        refine .typed ?_ ?_ hNot fun h => h.calls c name _ resolution hFound
        · rw [Expr.erase, Expr.erase, Expr.eraseAll_eq, Expr.eraseAll_eq,
            env.map_convertArgs Expr.erase_widen hFound]
          rfl
        · rw [Expr.occurrences, Expr.occurrences, env.occurrences_convertArgs hFound]
      case h_2 => exact .report rfl rfl rfl rfl (fun h => absurd h hNot) rfl
  · rw [hReceiver, pure_bind]
    exact .spread rfl rfl (hFaulty.mpr (.inl hError)) rfl
  · rw [hReceiver]
    exact .report rfl rfl rfl hFault (fun _ => hEarly) rfl

/-- A new object keeps its arguments. Class and constructor are added, or a report says which of the two is
missing. -/
theorem dresses_analyzeNew (className : String) (args : List Expr) (cls : Option ClassId)
    (constructor : Option MethodId) :
    env.Dresses (.new mark className args cls constructor)
      (env.analyzeNew mark.line className args) := by
  rw [analyzeNew]
  split
  · exact .report rfl rfl rfl rfl (fun _ => rfl) rfl
  · simp only [any_eq_true, decide_eq_true_eq]
    split
    case isTrue hFaulty => exact .spread rfl rfl hFaulty rfl
    case isFalse hClean =>
      split
      case h_1 resolution hFound =>
        refine .typed ?_ (env.occurrences_convertArgs hFound) hClean fun _ => by rintro ⟨⟩
        rw [Expr.erase, Expr.erase, Expr.eraseAll_eq, Expr.eraseAll_eq,
          env.map_convertArgs Expr.erase_widen hFound]
        rfl
      case h_2 => exact .report rfl rfl rfl rfl (fun h => absurd h hClean) rfl

theorem dresses_analyzeCast (className : String) (operand : Expr) (cls : Option ClassId) :
    env.Dresses (.cast mark className operand cls) (env.analyzeCast mark.line className operand) := by
  have hFaulty : (Expr.cast mark className operand cls).Faulty ↔ operand.ty = .error := by
    simp [Expr.Faulty, Expr.operands]
  rw [analyzeCast]
  split
  · exact .report rfl rfl rfl rfl (fun _ => rfl) rfl
  · split
    case h_1 hError => exact .spread rfl rfl (hFaulty.mpr hError) rfl
    case h_2 hClass => exact .typed rfl rfl (by simp [hFaulty, hClass]) fun _ => by rintro ⟨⟩
    case h_3 hNull => exact .typed rfl rfl (by simp [hFaulty, hNull]) fun _ => by rintro ⟨⟩
    case h_4 hClean _ _ => exact .report rfl rfl rfl rfl (fun h => absurd (hFaulty.mp h) hClean) rfl

/-- What typing makes of any node but a variable. -/
theorem dresses_typeNode (hVar : e.isVar = false) (hNode : e.isSourceNode = true) :
    env.Dresses e (e.typeNode env) := by
  cases e with
  | var => cases hVar
  | deref | convert => cases hNode
  | int | null =>
    exact .typed rfl rfl (by simp [Expr.Faulty, Expr.operands]) fun _ => by rintro ⟨⟩
  | this mark => exact env.dresses_analyzeThis mark
  | binary mark op left right => exact env.dresses_analyzeBinary mark op left right
  | unary mark op operand => exact env.dresses_analyzeUnary mark op operand
  | assign mark target value => exact env.dresses_analyzeAssign mark target value
  | field mark object name offset => exact env.dresses_analyzeField mark object name offset
  | call mark receiver name args method slot =>
    exact env.dresses_analyzeCall mark receiver name args method slot
  | new mark className args cls constructor =>
    exact env.dresses_analyzeNew mark className args cls constructor
  | cast mark className operand cls => exact env.dresses_analyzeCast mark className operand cls

variable {env : Env}

/-- The variable bound to what its name stands for. -/
def bind (env : Env) (o : Occurrence) : Occurrence :=
  { o with storage := (env.resolveVariable o.name).map Prod.snd }

/-- The line and the name of a variable whose name stands for nothing. -/
def unresolved? (env : Env) (o : Occurrence) : Option (Nat × String) :=
  if (env.resolveVariable o.name).isNone then some (o.line, o.name) else none

/-- Some variables, how they are bound, and which of them are reported. -/
structure Binds (env : Env) (source typed : List Occurrence) (log : List Diagnostic) : Prop where
  bound : typed = source.map env.bind
  reported : undeclared log = source.filterMap env.unresolved?
  once : duplicates log = []

/-- Silent steps behind some variables change nothing. -/
theorem Binds.silent {source typed : List Occurrence} (h : env.Binds source typed log) (hMore : Silent more) :
    env.Binds source typed (log ++ more) :=
  ⟨h.bound, by rw [undeclared_append, hMore.2, append_nil, h.reported],
    by rw [duplicates_append, hMore.1, append_nil, h.once]⟩

/-- Expressions bind their variables if each of them does. -/
theorem Binds.flatMap {es : List Expr}
    (h : ∀ e ∈ es, env.Binds e.occurrences (e.analyze env).value.occurrences (e.analyze env).log) :
    env.Binds (es.flatMap Expr.occurrences) (es.flatMap fun e => (e.analyze env).value.occurrences)
      (es.flatMap fun e => (e.analyze env).log) := by
  induction es with
  | nil => exact ⟨rfl, rfl, rfl⟩
  | cons e es ih =>
    obtain ⟨hFirst, hRest⟩ := forall_mem_cons.mp h
    have hMore := ih hRest
    constructor
    · simp only [flatMap_cons, map_append, hFirst.bound, hMore.bound]
    · simp only [flatMap_cons, filterMap_append, undeclared_append, hFirst.reported,
        hMore.reported]
    · simp only [flatMap_cons, duplicates_append, hFirst.once, hMore.once, append_nil]

/-- A variable is bound to what its name stands for, or it is reported. -/
theorem binds_analyzeVar (env : Env) (mark : Mark) (name : String) (storage : Option Storage) :
    env.Binds [⟨mark.line, name, storage⟩] (env.analyzeVar mark.line name).value.occurrences
      (env.analyzeVar mark.line name).log := by
  cases hFound : env.resolveVariable name with
  | none =>
    constructor <;> simp [analyzeVar, hFound, Expr.occurrences, bind, unresolved?, undeclared, duplicates,
      Checked.report, Fault.undeclared?, Fault.isDuplicateVariable]
  | some found => constructor <;> simp [analyzeVar, hFound, Expr.occurrences, Expr.read, bind, unresolved?]

end Env

namespace Expr

variable (env : Env)

theorem erase_typeNode (e : Expr) : (e.typeNode env).value.erase = e.erase := by
  cases e with
  | var mark name =>
    rw [typeNode, Env.analyzeVar]
    split <;> rfl
  | deref mark operand => rw [typeNode, Logged.value_pure, erase]
  | convert mark operand => rw [typeNode, Logged.value_pure, erase_widen, erase]
  | int | null | this | binary | unary | assign | field | call | new | cast =>
    exact (env.dresses_typeNode rfl rfl).erase

/-- Changing the operands of a node does not show once types are erased, if it does not show in any of the
operands. -/
theorem erase_mapOperands {f : Expr → Expr} (h : ∀ o ∈ e.operands, (f o).erase = o.erase) :
    (e.mapOperands f).erase = e.erase := by
  cases e with
  | int | null | this | var => rfl
  | binary | unary | assign | field | cast | deref | convert => simp_all [mapOperands, operands, erase]
  | new => simpa [mapOperands, operands, erase] using h
  | call mark receiver =>
    simp only [operands, forall_mem_append] at h
    cases receiver <;> simp_all [mapOperands, Receiver.map, erase, eraseReceiver, Receiver.operands]

/-- Analysis only decorates expressions. -/
@[simp] theorem erase_analyze (e : Expr) : (e.analyze env).value.erase = e.erase := by
  induction e using byOperands with
  | node e ih => rw [value_analyze, erase_typeNode, withTyped, erase_mapOperands ih]

variable (args : List Expr)

@[simp] theorem erase_analyzeArgs : (analyzeArgs env args).value.map erase = args.map erase := by
  rw [value_analyzeArgs, map_map]
  exact map_congr_left fun arg _ => arg.erase_analyze env

/-- Typing an expression binds its variables. -/
theorem binds_analyze (e : Expr) :
    env.Binds e.occurrences (e.analyze env).value.occurrences (e.analyze env).log := by
  induction e using byOperands with
  | node e ih =>
    cases hVar : e.isVar with
    | true =>
      cases e with
      | var mark name storage => exact env.binds_analyzeVar mark name storage
      | _ => cases hVar
    | false =>
      have hTyped : (e.withTyped env).isVar = false := by rw [withTyped, isVar_mapOperands, hVar]
      have hOperands := Env.Binds.flatMap fun o ho => ih o (mem_inTypingOrder.mp ho)
      rw [← occurrences_eq hVar, ← flatMap_map, ← inTypingOrder_mapOperands, ← withTyped,
        ← occurrences_eq hTyped] at hOperands
      rw [value_analyze, log_analyze]
      cases hNode : e.isSourceNode with
      | false =>
        cases e with
        | deref | convert => exact hOperands.silent .nil
        | _ => cases hNode
      | true =>
        rw [← isSourceNode_mapOperands] at hNode
        have hDresses := env.dresses_typeNode hTyped hNode
        rw [← hDresses.occurrences] at hOperands
        exact hOperands.silent hDresses.silent

theorem binds_analyzeArgs :
    env.Binds (occurrencesOfAll args) (occurrencesOfAll (analyzeArgs env args).value)
      (analyzeArgs env args).log := by
  rw [occurrencesOfAll_eq, occurrencesOfAll_eq, value_analyzeArgs, log_analyzeArgs, flatMap_map]
  exact .flatMap fun arg _ => arg.binds_analyze env

/-- An expression declares no variables. -/
@[simp] theorem duplicates_analyze (e : Expr) : duplicates (e.analyze env).log = [] :=
  (e.binds_analyze env).once

@[simp] theorem duplicates_analyzeArgs : duplicates (analyzeArgs env args).log = [] :=
  (binds_analyzeArgs env args).once

end Expr

/-- The variables in the expressions of the given statements, without those of the statements inside
them. -/
def Stmt.occurrences (ss : List Stmt) : List Occurrence :=
  ss.flatMap fun s => Expr.occurrencesOfAll s.operands

@[simp] theorem Stmt.occurrences_nil : occurrences [] = [] := rfl

@[simp] theorem Stmt.occurrences_cons (s : Stmt) (ss : List Stmt) :
    occurrences (s :: ss) = Expr.occurrencesOfAll s.operands ++ occurrences ss := rfl

@[simp] theorem Stmt.occurrences_append (ss more : List Stmt) :
    occurrences (ss ++ more) = occurrences ss ++ occurrences more :=
  flatMap_append

/-- What typing makes of a statement whose expressions are typed. -/
structure Stmt.Dresses (s : Stmt) (x : Checked Stmt) : Prop where
  erase : x.value.erase = s.erase
  occurrences : Stmt.occurrences x.value.parts = Expr.occurrencesOfAll s.operands
  silent : Silent x.log

namespace Env

variable (env : Env) (line : Nat)

theorem silent_expectInt (e : Expr) (fault : String → Fault)
    (hFault : ∀ found, (fault found).isVariableFault = false) :
    Silent (env.expectInt line e fault).log := by
  rw [expectInt]
  split
  · exact .nil
  · exact .report (hFault _)

theorem silent_condition (construct : Conditional) (e : Expr) :
    Silent (env.expectInt e.line e (.conditionExpectsInt construct)).log :=
  env.silent_expectInt e.line e _ fun _ => rfl

theorem silent_resolveTypeName (type : TypeName) : Silent (env.resolveTypeName line type).log := by
  cases type with
  | int => exact .nil
  | named name =>
    rw [resolveTypeName]
    split
    · exact .nil
    · exact .report rfl

/-- A returned value is at most converted. No report of it is one about duplicate or undeclared names. -/
theorem returnValue_spec (method : MethodInfo) (value : Option Expr) :
    (env.returnValue line method value).value.map Expr.erase = value.map Expr.erase ∧
      Expr.occurrencesOfAll (env.returnValue line method value).value.toList =
        Expr.occurrencesOfAll value.toList ∧
      Silent (env.returnValue line method value).log := by
  have hCoerce : ∀ expected (e : Expr), (env.coerceReturn line expected e).value.erase = e.erase ∧
      (env.coerceReturn line expected e).value.occurrences = e.occurrences ∧
      Silent (env.coerceReturn line expected e).log := by
    intro expected e
    rw [coerceReturn]
    split
    · exact ⟨rfl, rfl, .nil⟩
    split
    · exact ⟨e.erase_widen expected, e.occurrences_widen expected, .nil⟩
    · exact ⟨e.erase_withTy .error, e.occurrences_withTy .error, .report rfl⟩
  unfold returnValue
  cases method.kind with
  | constructor | destructor =>
    cases value with
    | none => exact ⟨rfl, rfl, .nil⟩
    | some e => exact ⟨rfl, rfl, .report rfl⟩
  | method =>
    cases value with
    | none => exact ⟨rfl, rfl, .report rfl⟩
    | some e =>
      cases method.returns with
      | none => exact ⟨rfl, rfl, .nil⟩
      | some expected =>
        obtain ⟨hErase, hOccurrences, hSilent⟩ := hCoerce expected e
        exact ⟨congrArg some hErase, congrArg (· ++ []) hOccurrences, hSilent.append .nil⟩

theorem dresses_analyzeReturn (value : Option Expr) (exitLabel : Option String) :
    (Stmt.ret line value exitLabel).Dresses (env.analyzeReturn line value) := by
  rw [analyzeReturn]
  split
  case h_1 method _ =>
    obtain ⟨hErase, hOccurrences, hSilent⟩ := env.returnValue_spec line method value
    refine ⟨?_, (append_nil _).trans hOccurrences, hSilent.append .nil⟩
    rw [Logged.value_bind, Logged.value_pure, Stmt.erase, Stmt.erase, hErase]
  case h_2 =>
    split
    · refine ⟨rfl, append_nil _, ?_⟩
      cases value with
      | none => exact .nil
      | some e => exact (env.silent_expectInt line e .mainReturnsInt fun _ => rfl).append .nil
    · exact ⟨rfl, append_nil _, .report rfl⟩

theorem dresses_analyzeDelete (target : Expr) :
    (Stmt.delete line target).Dresses (env.analyzeDelete line target) := by
  rw [analyzeDelete]
  cases target.ty with
  | ofClass | error => exact ⟨rfl, append_nil _, .nil⟩
  | int | null | untyped | address | ofMethod => exact ⟨rfl, append_nil _, .report rfl⟩

/-- Whatever goes wrong with a call of a constructor, it is not reported as a duplicate or an undeclared
variable. -/
theorem silent_resolveDelegate (delegate : Delegate) (args : List Expr) (current : MethodId) :
    Silent (env.resolveDelegate line delegate args current).log := by
  unfold resolveDelegate
  extract_lets owner target
  cases target with
  | none => exact .nil
  | some c =>
    simp only
    split
    · exact .nil
    split
    · split
      · exact .report rfl
      · exact .nil
    · exact .report rfl

/-- The constructor that another one hands over to is found among those of some class. -/
theorem exists_resolve_of_resolveDelegate {delegate : Delegate} {current : MethodId}
    (h : (env.resolveDelegate line delegate args current).value = some resolution) :
    ∃ c name, env.types.resolveMethod c name .constructor (args.map Expr.ty) = some resolution := by
  unfold resolveDelegate at h
  extract_lets owner target at h
  clear_value target
  cases target with
  | none => cases h
  | some c =>
    simp only at h
    split at h
    · cases h
    split at h
    case h_1 hResolve =>
      split at h
      · cases h
      · cases h
        exact ⟨c, _, hResolve⟩
    case h_2 => cases h

/-- A call of a constructor keeps its arguments in order, wherever it stands. Only the number of the constructor
is added. -/
theorem dresses_analyzeConstruct (first : Bool) (delegate : Delegate) (args : List Expr)
    (constructor : Option MethodId) : (Stmt.construct line delegate args constructor).Dresses
      (env.analyzeConstruct first line delegate args) := by
  have hOpen : (Stmt.construct line delegate args none).erase =
      (Stmt.construct line delegate args constructor).erase ∧
        Stmt.occurrences [.construct line delegate args none] = Expr.occurrencesOfAll args :=
    ⟨rfl, append_nil _⟩
  rw [analyzeConstruct]
  split
  · exact ⟨hOpen.1, hOpen.2, .report rfl⟩
  case h_2 current _ =>
    split
    · have hSilent := env.silent_resolveDelegate line delegate args current
      cases hResolve : (env.resolveDelegate line delegate args current).value with
      | none =>
        refine ⟨?_, ?_, ?_⟩ <;> simp only [Logged.value_bind, Logged.log_bind, hResolve]
        · exact hOpen.1
        · exact hOpen.2
        · exact hSilent.append .nil
      | some resolution =>
        obtain ⟨c, name, hFound⟩ := env.exists_resolve_of_resolveDelegate line hResolve
        refine ⟨?_, ?_, ?_⟩ <;> simp only [Logged.value_bind, Logged.log_bind, hResolve]
        · simp only [Logged.value_pure, Stmt.erase, env.map_convertArgs Expr.erase_widen hFound]
        · exact (append_nil _).trans (env.occurrences_convertArgs hFound)
        · exact hSilent.append .nil
    · exact ⟨hOpen.1, hOpen.2, .report rfl⟩

end Env
end TLang
