import TLang.Proofs.Emission
import TLang.Proofs.Typing.Elaboration

/-! Code generation accepts what is well typed. An expression that carries the error type is refused,
and any other one that analysis yields is accepted. -/
namespace TLang

open Registry Emit

variable {name : String} {d : Meaning}

variable {ty : Ty} {e : Expr}

namespace Env

variable {names : String → Prop} {env : Env}

/-- A variable is declared with a type that can be stored. -/
theorem Declares.isStored (h : env.Sound names) {storage : Storage} (hDeclares : env.Declares name storage ty) :
    env.types.IsStored ty := by
  have hRoutine {m : MethodId} (hScope : env.position.scope = .method m) :
      ∃ c, env.types.RoutineOf c (env.types.methodInfo m) := by
    rcases h.method_cases with ⟨-, hPosition⟩ | ⟨c, m', -, -, -, -, hScope', hRoutine⟩
    · rw [hPosition] at hScope
      cases hScope
    · rw [hScope] at hScope'
      cases hScope'
      exact ⟨c, hRoutine⟩
  cases hDeclares with
  | mainVar _ hType => exact h.globals ty (Bindings.mem_types_of_type? hType)
  | @localVar m slot _ _ hType =>
    exact h.locals m ty (List.mem_map_of_mem (List.mem_of_getElem? hType))
  | param hScope hType =>
    obtain ⟨c, hRoutine⟩ := hRoutine hScope
    exact hRoutine.params ty (List.mem_map_of_mem (List.mem_of_getElem? hType))
  | field _ hType _ => exact h.isStored_field hType

/-- A cell holds values of a type that can be stored. -/
theorem isStored_of_cell (h : env.Sound names) {select : Selection}
    (hDenotes : Denotes env select e (.cell ty)) : env.types.IsStored ty := by
  cases hDenotes with
  | var _ hDeclares => exact hDeclares.isStored h
  | field _ _ hType _ => exact h.isStored_field hType

/-- A value is of none of the types that mark what is no value. -/
theorem IsStored.ne (h : env.types.IsStored ty) : ty ≠ .error ∧ ty ≠ .untyped ∧ ty ≠ .address := by
  refine ⟨?_, ?_, ?_⟩ <;> rintro rfl <;> exact h

variable (h : env.Sound names)
include h

theorem Selects.returns {c : ClassId} {args : List Expr} {m : MethodId}
    (hSelects : env.Selects names c .method name args m)
    (hReturns : (env.types.methodInfo m).returns = some ty) : env.types.IsStored ty := by
  obtain ⟨-, exact, hResolve, -⟩ := hSelects
  obtain ⟨a, -, hMem, hKind, -⟩ := h.settled.coherent.indexed.resolveMethod_eq_some hResolve
  obtain ⟨ty', hReturns', hTy⟩ := ((h.settled.coherent a).routine m hMem).returns hKind
  exact Option.some.inj (hReturns'.symm.trans hReturns) ▸ hTy

theorem Sound.value_ne (hDenotes : Denotes env (env.Selects names) e (.value ty)) :
    ty ≠ .error ∧ ty ≠ .untyped ∧ ty ≠ .address := by
  cases hDenotes with
  | int | null | this | arithmetic | equality | unary | new | cast => simp
  | read _ hAddress => exact IsStored.ne (isStored_of_cell h hAddress)
  | assign _ hTarget _ => exact IsStored.ne (isStored_of_cell h hTarget)
  | call _ _ _ _ hSelect hReturns _ => exact IsStored.ne (Selects.returns h hSelect hReturns)
  | widen _ _ hAssignable hProper =>
    unfold isAssignable at hAssignable
    rw [Bool.or_eq_true, beq_iff_eq] at hAssignable
    have hWider := hAssignable.resolve_left hProper
    split at hWider
    case h_1 => simp
    case h_2 => simp
    case h_3 => cases hWider

/-- A node of a well-typed tree is typed, and not as an error. -/
theorem Sound.ty_ne (hDenotes : Denotes env (env.Selects names) e d) : e.ty ≠ .error ∧ e.ty ≠ .untyped := by
  rw [hDenotes.ty_eq]
  cases d with
  | cell ty => simp [Meaning.mark]
  | value ty =>
    obtain ⟨hError, hUntyped, -⟩ := h.value_ne hDenotes
    exact ⟨hError, hUntyped⟩

/-- A value that is not widened is an int, null or an object of a registered class. -/
theorem Sound.isValue (hDenotes : Denotes env (env.Selects names) e (.value ty))
    (hUnwidened : e.unwidened = e) : env.types.IsValue ty := by
  cases hDenotes with
  | null => exact .inl rfl
  | int | arithmetic | equality | unary => exact .inr trivial
  | this _ hOwner => exact .inr (h.owner_registered hOwner)
  | read _ hAddress => exact .inr (isStored_of_cell h hAddress)
  | assign _ hTarget _ => exact .inr (isStored_of_cell h hTarget)
  | call _ _ _ _ hSelect hReturns _ => exact .inr (Selects.returns h hSelect hReturns)
  | new _ _ hClass _ => exact .inr ((h.settled.lineal.found _ _).mp hClass).1
  | cast _ _ _ hClass => exact .inr ((h.settled.lineal.found _ _).mp hClass).1
  | widen => exact absurd (congrArg sizeOf hUnwidened) (by simp [Expr.unwidened])

end Env

section Expressions

variable {names : String → Prop} {env : Env} {inLoop : Bool} {reason : Refusal → Prop}

theorem Emit.Settles.requireTyped {mark : Mark} (h : mark.ty ≠ .error ∧ mark.ty ≠ .untyped) :
    Settles inLoop reason false (requireTyped mark) := by
  rw [Emit.requireTyped]
  split
  case h_1 hTy => exact absurd hTy h.1
  case h_2 hTy => exact absurd hTy h.2
  case h_3 => exact .pure ()

theorem Expr.settles_codeArgs (types : Registry) (args : List Expr)
    (h : ∀ a ∈ args, Settles inLoop reason false (a.code types)) :
    Settles inLoop reason false (Expr.codeArgs types args) := by
  induction args with
  | nil => exact .pure ()
  | cons a rest ih =>
    exact .after (ih fun a' ha' => h a' (by simp [ha'])) fun _ => h a (by simp)

/-- A well-typed expression is accepted. -/
theorem Env.Sound.settles_code (h : env.Sound names) (types : Registry)
    (hDenotes : Denotes env (env.Selects names) e d) : Settles inLoop reason false (e.code types) := by
  induction hDenotes with
  | int | null | this => exact .after (.pure ()) fun _ => .instrs _
  | @var _ _ storage _ _ =>
    refine .after (.pure ()) fun _ => .require ?_
    cases storage <;> exact .instrs _
  | field _ _ _ _ ih =>
    exact .after (.pure ()) fun _ => .require <| .after ih fun _ => .after (.instrs _) fun _ =>
      .instrs _
  | read line hAddress ih =>
    exact .after (.requireTyped (h.ty_ne (.read line hAddress))) fun _ => .after ih fun _ =>
      .instrs _
  | assign line hTarget hValue ihTarget ihValue =>
    exact .after (.requireTyped (h.ty_ne (.assign line hTarget hValue))) fun _ =>
      .after ihTarget fun _ => .after ihValue fun _ => .instrs _
  | @arithmetic _ op _ _ _ _ _ ihLeft ihRight =>
    refine .after (.pure ()) fun _ => .after ihLeft fun _ => .after ihRight fun _ => ?_
    exact settles_applyBinary _ op
  | equality _ _ _ _ ihLeft ihRight =>
    exact .after (.pure ()) fun _ => .after ihLeft fun _ => .after ihRight fun _ => .instrs _
  | unary _ op _ ih =>
    refine .after (.pure ()) fun _ => .after ih fun _ => ?_
    cases op <;> exact .instrs _
  | @call line receiver _ args _ _ slot _ hReceiver hArgs hLooksIn hSelect hReturns hSlot ihReceiver
      ihArgs =>
      have hNode := h.ty_ne (.call line hReceiver hArgs hLooksIn hSelect hReturns hSlot)
      refine .after (.requireTyped hNode) fun _ => .require ?_
      refine .after (Expr.settles_codeArgs types args ihArgs) fun _ => ?_
      refine .after ?_ fun _ => .instrs _
      cases receiver with
      | super => exact .after (.instrs _) fun _ => .instrs _
      | implicit =>
        obtain ⟨s, rfl, -⟩ := hSlot
        exact .after (.instrs _) fun _ => .require (.instrs _)
      | object e =>
        obtain ⟨s, rfl, -⟩ := hSlot
        exact .after (ihReceiver e rfl) fun _ => .after (.instrs _) fun _ => .require (.instrs _)
  | @new _ _ args _ _ _ _ _ ihArgs =>
    refine .after (.pure ()) fun _ => .require (.require ?_)
    refine .after (Expr.settles_codeArgs types args ihArgs) fun _ => ?_
    exact settles_allocation types _ _ _ _
  | cast _ _ _ _ ih =>
    exact .after (.pure ()) fun _ => .require <| .after ih fun _ => .instrs _
  | widen line hOperand hAssignable hProper ih =>
    exact .after (.requireTyped (h.ty_ne (.widen line hOperand hAssignable hProper))) fun _ => ih

/-- An expression that carries the error type is refused. -/
theorem Expr.settles_error (types : Registry) (hError : e.ty = .error) (hReason : reason (.illTyped e.line)) :
    Settles inLoop reason true (e.code types) := by
  have hMark : Settles inLoop reason true (requireTyped e.mark) := by
    rw [requireTyped, show e.mark.ty = .error from hError]
    exact .throw hReason
  cases e <;> exact hMark.stop

/-- Whether an expression that analysis yields is refused shows in what was reported. -/
theorem Env.Checks.settles (h : env.Sound names) {log : List Diagnostic} (hChecks : env.Checks names log [e])
    (hReason : e.ty = .error → reason (.illTyped e.line)) (types : Registry) :
    Settles inLoop reason (anyUndeclared log) (e.code types) := by
  rcases hChecks.undeclared with ⟨hNone, hGood⟩ | ⟨hSome, e', he', hError⟩
  · rw [hNone]
    exact h.settles_code types (hGood e (by simp)).denotes
  · rw [hSome]
    rw [List.mem_singleton] at he'
    subst he'
    exact Expr.settles_error types hError (hReason hError)

end Expressions
end TLang
