import TLang.Proofs.Annotations
import TLang.Proofs.Registry.Widening
import TLang.Proofs.Renumbering.Trees

/-! Typed expressions are typed to themselves. If analysis reports nothing, then analysis of its result
reports nothing either and gives the same result: reads are dropped and put back, widenings keep their
types, and calls with widened arguments are resolved to the same routines. Since expressions are widened
to types of stored values only, the result does not depend on the numbers of methods, annotations
apart. -/
namespace TLang

open Registry Analysis List

variable {c : ClassId} {operand value target e e' left right : Expr} {className name : String}
  {r : Registry} {ty : Ty} {args : List Expr}

namespace Logged

variable {ε α β : Type} {x : Logged ε α}

/-- Steps write nothing together if each of them writes nothing. -/
theorem bind_eq_pure {f : α → Logged ε β} {b : β} : x >>= f = pure b ↔ ∃ a, x = pure a ∧ f a = pure b := by
  constructor
  · intro h
    have hLog : x.log ++ (f x.value).log = [] := congrArg Logged.log h
    have hValue : (f x.value).value = b := congrArg Logged.value h
    obtain ⟨hFirst, hRest⟩ := append_eq_nil_iff.mp hLog
    exact ⟨x.value, Logged.ext rfl hFirst, Logged.ext hValue hRest⟩
  · rintro ⟨a, rfl, hf⟩
    rw [pure_bind, hf]

theorem pure_inj {a b : α} : (pure a : Logged ε α) = pure b ↔ a = b :=
  ⟨fun h => congrArg Logged.value h, fun h => h ▸ rfl⟩

theorem eq_pure_of_log (h : x.log = []) : x = pure x.value := Logged.ext rfl h

end Logged

theorem Checked.report_bind_ne_pure {α : Type} {line : Nat} {fault : Fault} {f : Unit → Checked α} {a : α} :
    Checked.report line fault >>= f ≠ pure a := by
  intro h
  have hLog := congrArg Logged.log h
  simp [Checked.report] at hLog

theorem Registry.PlainlyNamed.of_interface {r' : Registry} (h : r.PlainlyNamed)
    (hInterface : SameInterface r r') : r'.PlainlyNamed where
  lineal := h.lineal.of_outline hInterface.outline
  coherent := hInterface.coherent h.coherent
  classes := by
    rw [hInterface.classes, hInterface.classInfo]
    exact h.classes

/-- The types of stored values. -/
theorem Registry.eq_of_isStored (h : r.IsStored ty) : ty = .int ∨ ∃ c, ty = .ofClass c := by
  cases ty with
  | int => exact .inl rfl
  | ofClass c => exact .inr ⟨c, rfl⟩
  | null | untyped | error | address | ofMethod _ => exact h.elim

/-- What a value is widened to is a class. -/
theorem Registry.eq_ofClass_of_isAssignable {wider : Ty} (h : r.isAssignable ty wider = true)
    (hProper : ty ≠ wider) : ∃ c, wider = .ofClass c := by
  rcases isAssignable_iff.mp h with hSame | ⟨-, c, rfl⟩ | ⟨-, c, -, rfl, -⟩
  · exact absurd hSame hProper
  · exact ⟨c, rfl⟩
  · exact ⟨c, rfl⟩

namespace Expr

variable {env : Env}

/-- Annotations apart, the expression does not depend on the numbers of methods. -/
def Portable (e : Expr) : Prop := ∀ ρ : Renumbering, ρ.cls = id → (e.renumber ρ).strip = e.strip

theorem Portable.read (h : e.Portable) (ty : Ty) : (e.read ty).Portable := h

theorem stripAll_renumber (h : ∀ arg ∈ args, arg.Portable) {ρ : Renumbering} (hρ : ρ.cls = id) :
    stripAll (args.map (renumber ρ)) = stripAll args := by
  induction args with
  | nil => rfl
  | cons arg rest ih =>
    rw [forall_mem_cons] at h
    rw [map_cons, stripAll, stripAll, h.1 ρ hρ, ih h.2]

/-- Analysis leaves the expression as it is and finds no fault with it. -/
structure Typed (env : Env) (e : Expr) : Prop where
  again : e.analyze env = pure e
  portable : e.Portable

@[simp] theorem ty_widen (e : Expr) (ty : Ty) : (e.widen ty).ty = ty := rfl

/-- A conversion to an integer or to a class is a typed tree again. It is not typed a second time, as it was not
there when the tree was read. -/
theorem Typed.widen (h : e.Typed env) (hTy : ty = .int ∨ ∃ c, ty = .ofClass c) :
    (e.widen ty).Typed env where
  again := by
    have hUntyped : ty ≠ .untyped := by
      rintro rfl
      simp at hTy
    show (e.analyze env >>= fun e => pure (e.widen (if ty = .untyped then e.ty else ty))) = _
    rw [h.again, pure_bind, if_neg hUntyped]
  portable := by
    intro ρ hρ
    have hSame : ty.renumber ρ = ty := by
      rcases hTy with rfl | ⟨c, rfl⟩
      · rfl
      · rw [Ty.renumber, hρ, id]
    rw [renumber_widen, hSame, Expr.widen, Expr.widen, strip, strip, h.portable ρ hρ, line_renumber]

/-- With typed operands, only the node is left to type. -/
theorem analyze_of_typed (h : ∀ o ∈ e.operands, o.Typed env) : e.analyze env = e.typeNode env := by
  have hSame : e.withTyped env = e := mapOperands_eq_self fun o ho => congrArg Logged.value (h o ho).again
  apply Logged.ext
  · rw [value_analyze, hSame]
  · rw [log_analyze, hSame, flatMap_eq_nil_iff.mpr, nil_append]
    exact fun o ho => congrArg Logged.log (h o (mem_inTypingOrder.mp ho)).again

/-- A node carries no number of a class but in its type and in the class it names, and erasing types removes the
former. -/
theorem portable_of_operands (hNode : e.isSourceNode = true) (h : ∀ o ∈ e.operands, o.Portable) :
    e.Portable := by
  intro ρ hρ
  cases e with
  | int | null | this | var => rfl
  | deref | convert => cases hNode
  | binary | unary | assign | field | cast =>
    simp only [operands, forall_mem_cons] at h
    rw [renumber, strip, strip]
    grind [Mark.erase, Mark.renumber, Portable]
  | new mark className args =>
    rw [operands] at h
    rw [renumber, strip, strip, renumberAll_eq, stripAll_renumber h hρ]
    rfl
  | call mark receiver name args =>
    rw [operands, forall_mem_append] at h
    have hReceiver : stripReceiver (renumberReceiver ρ receiver) = stripReceiver receiver := by
      cases receiver with
      | implicit | super => rfl
      | object e => rw [renumberReceiver, stripReceiver, stripReceiver, h.1 e (mem_singleton.mpr rfl) ρ hρ]
    rw [renumber, strip, strip, hReceiver, renumberAll_eq, stripAll_renumber h.2 hρ]
    rfl

/-- A node whose operands are typed is typed if it is what is made of them. -/
theorem Typed.node (hNode : e.isSourceNode = true) (hOperands : ∀ o ∈ e.operands, o.Typed env)
    (h : e.typeNode env = pure e) : e.Typed env :=
  ⟨(analyze_of_typed hOperands).trans h, portable_of_operands hNode fun o ho => (hOperands o ho).portable⟩

theorem forall_typed_pair (h : e.Typed env) (h' : e'.Typed env) : ∀ o ∈ [e, e'], o.Typed env := by
  simp [h, h']

theorem analyzeArgs_of_typed (h : ∀ arg ∈ args, arg.Typed env) : analyzeArgs env args = pure args := by
  induction args with
  | nil => rfl
  | cons arg rest ih =>
    rw [forall_mem_cons] at h
    rw [analyzeArgs, h.1.again, pure_bind, ih h.2]
    rfl

end Expr

namespace Env

variable {env : Env} {line : Nat}

/-- What was resolved for some arguments is resolved again for the arguments that are passed. -/
theorem exists_resolution_convertArgs (h : env.types.PlainlyNamed) {kind : MethodKind}
    (hKind : kind ≠ .destructor) (hArgs : ∀ arg ∈ args, arg.Typed env)
    (hErrors : args.any (·.ty = .error) = false) {resolution : Resolution}
    (hFound : env.types.resolveMethod c name kind (args.map Expr.ty) = some resolution) :
    let passed := env.convertArgs resolution args
    (∀ arg ∈ passed, arg.Typed env) ∧ passed.any (·.ty = .error) = false ∧
      ∃ again : Resolution, again.method = resolution.method ∧
        env.types.resolveMethod c name kind (passed.map Expr.ty) = some again ∧
        env.convertArgs again passed = passed := by
  intro passed
  obtain ⟨m, exact⟩ := resolution
  cases exact with
  | true => exact ⟨hArgs, hErrors, ⟨m, true⟩, rfl, hFound, rfl⟩
  | false =>
    obtain ⟨hAgain, hLength, hStored⟩ := h.resolveMethod_widened hKind hFound
    have hTypes : passed.map Expr.ty = (env.types.methodInfo m).params.types := by
      have hPair : ∀ pair : Expr × Ty,
          (if pair.1.ty = pair.2 then pair.1 else pair.1.widen pair.2).ty = pair.2 := by
        intro pair
        split
        · assumption
        · rfl
      simp only [passed, convertArgs, Bool.false_eq_true, if_false, map_map, Function.comp_def, hPair]
      rw [← unzip_snd, unzip_zip_right]
      simpa [Bindings.types] using Nat.le_of_eq hLength
    have hPassed : ∀ arg ∈ passed, arg.Typed env := by
      intro arg hArg
      simp only [passed, convertArgs, Bool.false_eq_true, if_false, mem_map] at hArg
      obtain ⟨⟨arg, ty⟩, hPair, rfl⟩ := hArg
      have hTyped := hArgs arg (of_mem_zip hPair).1
      have hTy := hStored ty (of_mem_zip hPair).2
      split
      · exact hTyped
      · exact hTyped.widen (eq_of_isStored hTy)
    refine ⟨hPassed, ?_, ⟨m, true⟩, rfl, hTypes ▸ hAgain, rfl⟩
    rw [any_eq_false]
    intro arg hArg hError
    have hTy := hStored arg.ty (hTypes ▸ mem_map_of_mem hArg)
    rw [of_decide_eq_true hError] at hTy
    exact hTy

/-- Once one side is widened, both sides are of the same class. -/
theorem analyzeEquality_of_same (hLeft : left.ty = .ofClass c) (hRight : right.ty = .ofClass c) :
    env.analyzeEquality line left right = pure (.binary ⟨line, .int⟩ .eq left right) := by
  have hSelf : env.types.related c c = some c := by rw [related, isSubclass_self, if_pos rfl]
  simp [analyzeEquality, hLeft, hRight, hSelf]

/-- A comparison that is accepted is typed to itself: the conversions that it inserts give both sides one type. -/
theorem typed_analyzeEquality (hLeft : left.Typed env) (hRight : right.Typed env)
    (h : env.analyzeEquality line left right = pure e) : e.Typed env := by
  have hNode := h
  rw [analyzeEquality] at h
  split at h
  case h_6 a b hA hB =>
    split at h
    case h_1 ancestor hRelated =>
      split at h
      case isTrue hDiffers =>
        obtain rfl := Logged.pure_inj.mp h
        obtain ⟨rfl, -⟩ := (related_eq_some hRelated).resolve_right fun h => hDiffers h.1.symm
        exact .node rfl (Expr.forall_typed_pair (hLeft.widen (.inr ⟨_, rfl⟩)) hRight) (analyzeEquality_of_same rfl hB)
      case isFalse hEqual =>
        obtain rfl := not_not.mp hEqual
        split at h
        case isTrue =>
          obtain rfl := Logged.pure_inj.mp h
          exact .node rfl (Expr.forall_typed_pair hLeft (hRight.widen (.inr ⟨_, rfl⟩))) (analyzeEquality_of_same hA rfl)
        case isFalse =>
          obtain rfl := Logged.pure_inj.mp h
          exact .node rfl (Expr.forall_typed_pair hLeft hRight) hNode
    case h_2 => exact absurd h Checked.report_bind_ne_pure
  case h_7 => exact absurd h Checked.report_bind_ne_pure
  all_goals
    obtain rfl := Logged.pure_inj.mp h
    exact .node rfl (Expr.forall_typed_pair hLeft hRight) hNode

theorem typed_analyzeBinary {op : BinaryOp} (hLeft : left.Typed env) (hRight : right.Typed env)
    (h : env.analyzeBinary line op left right = pure e) : e.Typed env := by
  by_cases hOp : op = .eq
  · subst hOp
    exact typed_analyzeEquality hLeft hRight h
  · have hNode := h
    have hArithmetic : env.analyzeBinary line op left right = env.analyzeArithmetic line op left right := by
      cases op with
      | eq => exact absurd rfl hOp
      | add | sub | mul | div | lt | gt => rfl
    rw [hArithmetic, analyzeArithmetic] at h
    split at h
    · obtain rfl := Logged.pure_inj.mp h
      exact .node rfl (Expr.forall_typed_pair hLeft hRight) hNode
    · split at h
      · obtain rfl := Logged.pure_inj.mp h
        exact .node rfl (Expr.forall_typed_pair hLeft hRight) hNode
      · exact absurd h Checked.report_bind_ne_pure

theorem typed_analyzeUnary {op : UnaryOp} (hOperand : operand.Typed env)
    (h : env.analyzeUnary line op operand = pure e) : e.Typed env := by
  have hNode := h
  rw [analyzeUnary] at h
  split at h
  case h_3 => exact absurd h Checked.report_bind_ne_pure
  all_goals
    obtain rfl := Logged.pure_inj.mp h
    exact .node rfl (forall_mem_singleton.mpr hOperand) hNode

/-- A value that was stored is stored again as it is. -/
theorem assignValue_again (hValue : value.Typed env) {result : Expr × Ty}
    (h : env.assignValue line ty value = pure result) :
    result.1.Typed env ∧ env.assignValue line ty result.1 = pure result := by
  have hNode := h
  simp only [assignValue] at h
  split at h
  · obtain rfl := Logged.pure_inj.mp h
    exact ⟨hValue, hNode⟩
  · split at h
    · obtain rfl := Logged.pure_inj.mp h
      exact ⟨hValue, hNode⟩
    · split at h
      · exact absurd h Checked.report_bind_ne_pure
      · split at h
        · exact absurd h Checked.report_bind_ne_pure
        · split at h
          case isTrue hError hDiffers _ _ hAssignable =>
            obtain rfl := Logged.pure_inj.mp h
            have hTy := eq_ofClass_of_isAssignable hAssignable (Ne.symm hDiffers)
            refine ⟨hValue.widen (.inr hTy), ?_⟩
            have hNoError : ty ≠ .error := fun hEq => hError (.inl hEq)
            simp [assignValue, hNoError]
          case isFalse =>
            split at h
            · split at h
              · exact absurd h Checked.report_bind_ne_pure
              · exact absurd h Checked.report_bind_ne_pure
            · exact absurd h Checked.report_bind_ne_pure

/-- A cell is the target without the read, which analysis of the cell puts back. -/
theorem analyze_assignTarget {cell : Expr} (hTarget : target.Typed env)
    (hCell : target.assignTarget line = pure (cell, ty)) : cell.analyze env = pure target ∧ cell.Portable := by
  unfold Expr.assignTarget at hCell
  split at hCell
  · obtain ⟨rfl, -⟩ := Prod.mk.inj (Logged.pure_inj.mp hCell)
    exact ⟨hTarget.again, hTarget.portable⟩
  · split at hCell
    · obtain ⟨rfl, -⟩ := Prod.mk.inj (Logged.pure_inj.mp hCell)
      exact ⟨hTarget.again, hTarget.portable⟩
    · exact absurd hCell Checked.report_bind_ne_pure

/-- An assignment that is accepted is typed to itself, with its target read from a cell as it was. -/
theorem typed_analyzeAssign (hTarget : target.Typed env) (hValue : value.Typed env)
    (h : env.analyzeAssign line target value = pure e) : e.Typed env := by
  obtain ⟨⟨cell, cellTy⟩, hCell, h⟩ := Logged.bind_eq_pure.mp h
  obtain ⟨⟨stored, ty⟩, hStored, h⟩ := Logged.bind_eq_pure.mp h
  obtain rfl := Logged.pure_inj.mp h
  obtain ⟨hTyped, hAgain⟩ := assignValue_again hValue hStored
  obtain ⟨hRead, hPortable⟩ := analyze_assignTarget hTarget hCell
  constructor
  · show (cell.analyze env >>= fun target => stored.analyze env >>= env.analyzeAssign line target) = _
    rw [hRead, pure_bind, hTyped.again, pure_bind, analyzeAssign, hCell, pure_bind]
    simp only [hAgain, pure_bind]
  · intro ρ hρ
    rw [Expr.renumber, Expr.strip, Expr.strip, hPortable ρ hρ, hTyped.portable ρ hρ]
    rfl

theorem typed_analyzeField {object : Expr} (hObject : object.Typed env)
    (h : env.analyzeField line object name = pure e) : e.Typed env := by
  have hOperands : ∀ o ∈ [object], o.Typed env := forall_mem_singleton.mpr hObject
  have hAgain : (Expr.field ⟨line, .address⟩ object name none).analyze env = pure e :=
    (Expr.analyze_of_typed (e := .field ⟨line, .address⟩ object name none) hOperands).trans h
  have hPortable : ∀ mark offset, (Expr.field mark object name offset).Portable :=
    fun mark offset => Expr.portable_of_operands rfl fun o ho => (hOperands o ho).portable
  rw [analyzeField] at h
  split at h
  · obtain rfl := Logged.pure_inj.mp h
    exact ⟨hAgain, hPortable _ _⟩
  · split at h
    · obtain rfl := Logged.pure_inj.mp h
      exact ⟨hAgain, (hPortable _ _).read _⟩
    · exact absurd h Checked.report_bind_ne_pure
  · exact absurd h Checked.report_bind_ne_pure

theorem typed_analyzeVar (h : env.analyzeVar line name = pure e) : e.Typed env := by
  have hNode := h
  rw [analyzeVar] at h
  split at h
  · obtain rfl := Logged.pure_inj.mp h
    exact ⟨hNode, fun _ _ => rfl⟩
  · exact absurd h Checked.report_bind_ne_pure

theorem typed_analyzeThis (h : env.analyzeThis line = pure e) : e.Typed env := by
  have hNode := h
  rw [analyzeThis] at h
  split at h
  · obtain rfl := Logged.pure_inj.mp h
    exact ⟨hNode, fun _ _ => rfl⟩
  · exact absurd h Checked.report_bind_ne_pure

theorem typed_analyzeCast (hOperand : operand.Typed env) (h : env.analyzeCast line className operand = pure e) :
    e.Typed env := by
  have hNode := h
  rw [analyzeCast] at h
  split at h
  · exact absurd h Checked.report_bind_ne_pure
  · split at h
    case h_4 => exact absurd h Checked.report_bind_ne_pure
    all_goals
      obtain rfl := Logged.pure_inj.mp h
      exact .node rfl (forall_mem_singleton.mpr hOperand) hNode

/-- A call that is accepted resolves to the same method again. Names have to be plain, since a separator inside
a name could mimic another signature. -/
theorem typed_analyzeCall (hNames : env.types.PlainlyNamed) {receiver : Receiver Expr}
    (hReceiver : ∀ o ∈ receiver.operands, o.Typed env) (hArgs : ∀ arg ∈ args, arg.Typed env)
    (h : env.analyzeCall line receiver name args = pure e) : e.Typed env := by
  have hNode := h
  obtain ⟨c, hClass, h⟩ := Logged.bind_eq_pure.mp h
  cases c with
  | none =>
    obtain rfl := Logged.pure_inj.mp h
    exact .node rfl (forall_mem_append.mpr ⟨hReceiver, hArgs⟩) hNode
  | some c =>
    simp only at h
    split at h
    case isTrue =>
      obtain rfl := Logged.pure_inj.mp h
      exact .node rfl (forall_mem_append.mpr ⟨hReceiver, hArgs⟩) hNode
    case isFalse hErrors =>
      split at h
      case h_1 resolution hFound =>
        obtain rfl := Logged.pure_inj.mp h
        obtain ⟨hPassed, hNoError, again, hMethod, hAgain, hSame⟩ :=
          exists_resolution_convertArgs hNames (by simp) hArgs (by simpa using hErrors) hFound
        refine .node rfl (forall_mem_append.mpr ⟨hReceiver, hPassed⟩) ?_
        rw [Expr.typeNode, analyzeCall, hClass]
        simp only [pure_bind, hNoError, Bool.false_eq_true, if_false, hAgain, hMethod, hSame]
      case h_2 => exact absurd h Checked.report_bind_ne_pure

/-- A new object is made by the same constructor again, since the arguments now have exactly the types of its
parameters. -/
theorem typed_analyzeNew (hNames : env.types.PlainlyNamed) (hArgs : ∀ arg ∈ args, arg.Typed env)
    (h : env.analyzeNew line className args = pure e) : e.Typed env := by
  have hNode := h
  rw [analyzeNew] at h
  split at h
  · exact absurd h Checked.report_bind_ne_pure
  case h_2 c hClass =>
    simp only at h
    split at h
    case isTrue =>
      obtain rfl := Logged.pure_inj.mp h
      exact .node rfl hArgs hNode
    case isFalse hErrors =>
      split at h
      case h_1 resolution hFound =>
        obtain rfl := Logged.pure_inj.mp h
        obtain ⟨hPassed, hNoError, again, hMethod, hAgain, hSame⟩ :=
          exists_resolution_convertArgs hNames (by simp) hArgs (by simpa using hErrors) hFound
        refine .node rfl hPassed ?_
        rw [Expr.typeNode, analyzeNew, hClass]
        simp only [hNoError, Bool.false_eq_true, if_false, hAgain, hMethod, hSame]
      case h_2 => exact absurd h Checked.report_bind_ne_pure

end Env

namespace Expr

variable {env : Env}

variable (hNames : env.types.PlainlyNamed)
include hNames

/-- Typing a node whose operands are typed, without a fault, gives a typed node. -/
theorem typed_typeNode (hNode : e.isSourceNode = true)
    (hOperands : ∀ o ∈ e.operands, o.Typed env) (h : e.typeNode env = pure e') : e'.Typed env := by
  cases e with
  | int | null =>
    obtain rfl := Logged.pure_inj.mp h
    exact ⟨rfl, fun _ _ => rfl⟩
  | this => exact Env.typed_analyzeThis h
  | var => exact Env.typed_analyzeVar h
  | binary => exact Env.typed_analyzeBinary (hOperands _ (by simp [operands])) (hOperands _ (by simp [operands])) h
  | unary => exact Env.typed_analyzeUnary (hOperands _ (by simp [operands])) h
  | assign => exact Env.typed_analyzeAssign (hOperands _ (by simp [operands])) (hOperands _ (by simp [operands])) h
  | field => exact Env.typed_analyzeField (hOperands _ (by simp [operands])) h
  | call =>
    rw [operands, forall_mem_append] at hOperands
    exact Env.typed_analyzeCall hNames hOperands.1 hOperands.2 h
  | new => exact Env.typed_analyzeNew hNames hOperands h
  | cast => exact Env.typed_analyzeCast (hOperands _ (by simp [operands])) h
  | deref | convert => cases hNode

/-- The result of an analysis that finds no fault is typed. -/
theorem typed_of_analyze (e : Expr) (hFresh : e.isFresh = true)
    (h : e.analyze env = pure e') : e'.Typed env := by
  induction e using byOperands generalizing e' with
  | node e ih =>
    have hLog := (e.log_analyze env).symm.trans (congrArg Logged.log h)
    have hValue := (e.value_analyze env).symm.trans (congrArg Logged.value h)
    obtain ⟨hLogs, hLog⟩ := append_eq_nil_iff.mp hLog
    refine typed_typeNode hNames ?_ ?_ (Logged.ext hValue hLog)
    · rw [withTyped, isSourceNode_mapOperands, isSourceNode_of_isFresh hFresh]
    · rw [withTyped, operands_mapOperands, forall_mem_map]
      intro o ho
      exact ih o ho (isFresh_operand hFresh ho) (Logged.eq_pure_of_log
        (flatMap_eq_nil_iff.mp hLogs o (mem_inTypingOrder.mpr ho)))

theorem typed_of_analyzeArgs (args : List Expr) (hFresh : areFresh args = true)
    {args' : List Expr} (h : analyzeArgs env args = pure args') : ∀ arg ∈ args', arg.Typed env := by
  have hLogs := (log_analyzeArgs env args).symm.trans (congrArg Logged.log h)
  obtain rfl := (value_analyzeArgs env args).symm.trans (congrArg Logged.value h)
  rw [forall_mem_map]
  intro arg hArg
  exact typed_of_analyze hNames arg ((areFresh_iff args).mp hFresh arg hArg)
    (Logged.eq_pure_of_log (flatMap_eq_nil_iff.mp hLogs arg hArg))

end Expr
end TLang
