import TLang.Proofs.Typing.Elaboration

/-! Typing the statements that need more than the types of their expressions: returns, releases, and
calls of another constructor. None of them is resolved in a way of its own if an expression of theirs is
in error. -/
namespace TLang

open Registry Analysis

variable {value : Option Expr} {current : MethodId}

variable {c : ClassId} {delegate : Delegate} {args : List Expr}

namespace Env

variable {names : String → Prop} {env : Env} {line : Nat}

theorem expectInt_quiet {e : Expr} {fault : String → Fault}
    (hFault : ∀ found, (fault found).severity = .terminal)
    (hQuiet : Quiet (env.expectInt line e fault).log) :
    env.expectInt line e fault = pure () ∧ (e.ty = .int ∨ e.ty = .error) := by
  rw [expectInt] at hQuiet ⊢
  split at hQuiet
  case isTrue hTy => exact ⟨if_pos hTy, hTy⟩
  case isFalse => exact absurd hQuiet (Quiet.not_report (hFault _))

/-- A returned value has the declared type, or is widened to it, or is in error. -/
theorem coerceReturn_quiet {expected : Ty} {value : Expr} (hExpected : env.types.IsStored expected)
    (hQuiet : Quiet (env.coerceReturn line expected value).log) :
    ∃ value', env.coerceReturn line expected value = pure value' ∧
      (env.Elaborates names value → Denotes env (env.Selects names) value' (.value expected)) ∧
      (value.ty = .error → value'.ty = .error) ∧ (env.Bound names value → env.Bound names value') := by
  have hNotError : expected ≠ .error := by
    rintro rfl
    exact hExpected
  rw [coerceReturn] at hQuiet ⊢
  split at hQuiet
  case isTrue hSame =>
    refine ⟨value, if_pos hSame, fun hGood => ?_, id, id⟩
    rcases hSame with hError | hError | hSame
    · exact absurd hError hGood.ty_ne_error
    · exact absurd hError hNotError
    · exact hSame ▸ hGood.denotes
  case isFalse hOther =>
    rw [if_neg hOther]
    split at hQuiet
    case isTrue hAssignable =>
      refine ⟨value.widen expected, if_pos hAssignable, fun hGood => ?_, fun hError => ?_,
        fun hBound => hBound.widen expected⟩
      · exact .widen _ hGood.denotes hAssignable fun hSame => hOther (.inr (.inr hSame))
      · exact absurd (.inl hError) hOther
    case isFalse => exact absurd hQuiet (Quiet.not_report_bind rfl)

theorem returnValue_quiet {m : MethodInfo} (hRoutine : env.types.RoutineOf c m)
    (hQuiet : Quiet (env.returnValue line m value).log) :
    ∃ value', env.returnValue line m value = pure value' ∧
      ((∀ e, value = some e → env.Elaborates names e) → env.ReturnsFrom (env.Selects names) m value') ∧
      (∀ e, value = some e → e.ty = .error → ∃ e', value' = some e' ∧ e'.ty = .error) ∧
      ((∀ e ∈ value.toList, env.Bound names e) → ∀ e ∈ value'.toList, env.Bound names e) := by
  cases hKind : m.kind with
  | method =>
    obtain ⟨ty, hReturns, hTy⟩ := hRoutine.returns hKind
    cases value with
    | none =>
      simp only [returnValue, hKind] at hQuiet
      exact absurd hQuiet (Quiet.not_report_bind rfl)
    | some e =>
      simp only [returnValue, hKind, hReturns, Logged.log_bind, Quiet.append_iff] at hQuiet ⊢
      obtain ⟨e', hCoerce, hGood, hFault, hBound⟩ := coerceReturn_quiet hTy hQuiet.1
      refine ⟨some e', by rw [hCoerce]; rfl, ?_, ?_, by simpa using hBound⟩
      · intro hValue
        simp only [ReturnsFrom, hKind]
        exact ⟨e', ty, rfl, hReturns, hGood (hValue e rfl)⟩
      · rintro e₀ hEq hError
        cases hEq
        exact ⟨e', rfl, hFault hError⟩
  | constructor | destructor =>
    cases value with
    | none =>
      refine ⟨none, by simp only [returnValue, hKind], ?_, nofun, id⟩
      simp only [ReturnsFrom, hKind, implies_true]
    | some e =>
      simp only [returnValue, hKind] at hQuiet
      exact absurd hQuiet (Quiet.not_report_bind rfl)

/-- What a return statement becomes. -/
theorem analyzeReturn_quiet (h : env.Sound names) (hQuiet : Quiet (env.analyzeReturn line value).log) :
    ∃ value', env.analyzeReturn line value = pure (.ret line value' (some env.exitLabel)) ∧
      ((∀ e, value = some e → env.Elaborates names e) → env.Returns (env.Selects names) value') ∧
      (∀ e, value = some e → e.ty = .error → ∃ e', value' = some e' ∧ e'.ty = .error) ∧
      ((∀ e ∈ value.toList, env.Bound names e) → ∀ e ∈ value'.toList, env.Bound names e) := by
  rcases h.method_cases with ⟨hNone, hPosition⟩ | ⟨c, m, hSome, -, -, -, -, hRoutine⟩
  · have hMain : env.position.inMain = true := by rw [hPosition]
    simp only [analyzeReturn, hNone, hMain, if_true, Env.exitLabel, Env.Returns] at hQuiet ⊢
    cases value with
    | none => exact ⟨none, rfl, fun _ _ => by rintro ⟨⟩, fun _ => by rintro ⟨⟩, id⟩
    | some e =>
      rw [Logged.log_bind, Quiet.append_iff] at hQuiet
      obtain ⟨hInt, hTy⟩ := expectInt_quiet (fun _ => rfl) hQuiet.1
      refine ⟨some e, ?_, ?_, ?_, id⟩
      · change (env.expectInt line e .mainReturnsInt >>= fun _ => pure _) = _
        rw [hInt]
        rfl
      · rintro hGood e' hEq
        cases hEq
        have hValue := hGood e rfl
        exact hTy.resolve_right hValue.ty_ne_error ▸ hValue.denotes
      · rintro e' hEq hError
        cases hEq
        exact ⟨e, rfl, hError⟩
  · simp only [analyzeReturn, hSome, Env.exitLabel, Env.Returns, Logged.log_bind,
      Quiet.append_iff] at hQuiet ⊢
    obtain ⟨value', hEq, hRest⟩ := returnValue_quiet hRoutine hQuiet.1
    exact ⟨value', by rw [hEq]; rfl, hRest⟩

theorem analyzeDelete_quiet {target : Expr} (hQuiet : Quiet (env.analyzeDelete line target).log) :
    env.analyzeDelete line target = pure (.delete line target) ∧
      (target.ty = .error ∨ ∃ c, target.ty = .ofClass c) := by
  rw [analyzeDelete] at hQuiet ⊢
  split at hQuiet
  case h_1 c hTy => exact ⟨rfl, .inr ⟨c, hTy⟩⟩
  case h_2 hTy => exact ⟨rfl, .inl hTy⟩
  case h_3 => exact absurd hQuiet (Quiet.not_report_bind rfl)
  case h_4 => exact absurd hQuiet (Quiet.not_report_bind rfl)
  case h_5 => exact absurd hQuiet (Quiet.not_report_bind rfl)

/-- A constructor hands over to its own class or to its parent, and either is there. -/
theorem exists_delegates (h : env.Sound names) {owner : ClassId} (hOwner : env.owner? = some owner)
    (delegate : Delegate) : ∃ c, env.Delegates delegate c := by
  cases delegate with
  | this => exact ⟨owner, hOwner⟩
  | super =>
    obtain ⟨p, hParent⟩ := h.owner_parent hOwner
    exact ⟨p, owner, hOwner, hParent⟩

/-- Once the class is known, both forms of the call resolve their constructor alike. -/
theorem resolveDelegate_eq (hOwner : env.owner? = some (env.types.methodInfo current).owner)
    (hDelegates : env.Delegates delegate c) :
    env.resolveDelegate line delegate args current = if args.any (·.ty = .error) then pure none
      else match env.types.resolveMethod c (env.types.classInfo c).name .constructor
          (args.map Expr.ty) with
        | some resolution =>
          if resolution.method = current then do
            Checked.report line (.constructorCallsItself (env.types.classInfo c).name)
            return none
          else pure (some resolution)
        | none => do
          Checked.report line (.noConstructor (env.types.classInfo c).name
            (env.describeCall (env.types.classInfo c).name args))
          return none := by
  cases delegate with
  | this =>
    have hSome : some (env.types.methodInfo current).owner = some c := hOwner.symm.trans hDelegates
    cases hSome
    rfl
  | super =>
    obtain ⟨owner, hOwner', hParent⟩ := hDelegates
    rw [hOwner] at hOwner'
    cases hOwner'
    rw [resolveDelegate]
    split
    case h_1 hNone => cases hNone.symm.trans hParent
    case h_2 hSome =>
      cases hSome.symm.trans hParent
      rfl

theorem resolveDelegate_quiet (hOwner : env.owner? = some (env.types.methodInfo current).owner)
    (hDelegates : env.Delegates delegate c)
    (hQuiet : Quiet (env.resolveDelegate line delegate args current).log) :
    (∃ a ∈ args, a.ty = .error) ∧ env.resolveDelegate line delegate args current = pure none ∨
      (∀ a ∈ args, a.ty ≠ .error) ∧ ∃ resolution,
        env.resolveDelegate line delegate args current = pure (some resolution) ∧
        env.types.resolveMethod c (env.types.classInfo c).name .constructor (args.map Expr.ty) =
          some resolution := by
  rw [resolveDelegate_eq hOwner hDelegates] at hQuiet ⊢
  split at hQuiet
  case isTrue hError => exact .inl ⟨any_error_iff.mp hError, if_pos hError⟩
  case isFalse hClean =>
    refine .inr ⟨?_, ?_⟩
    · rw [any_error_iff] at hClean
      simpa using hClean
    · rw [if_neg hClean]
      cases hResolve : env.types.resolveMethod c (env.types.classInfo c).name .constructor
          (args.map Expr.ty) with
      | none =>
        rw [hResolve] at hQuiet
        exact absurd hQuiet (Quiet.not_report_bind rfl)
      | some resolution =>
        simp only [hResolve] at hQuiet ⊢
        split at hQuiet
        case isTrue => exact absurd hQuiet (Quiet.not_report_bind rfl)
        case isFalse hOther => exact ⟨resolution, if_neg hOther, rfl⟩

/-- What the call of another constructor becomes. An argument in error leaves it unresolved. -/
theorem analyzeConstruct_quiet (h : env.Sound names) {first : Bool}
    (hQuiet : Quiet (env.analyzeConstruct first line delegate args).log) :
    (∃ a ∈ args, a.ty = .error) ∧ env.analyzeConstruct first line delegate args =
        pure (.construct line delegate args none) ∨
      (∀ a ∈ args, a.ty ≠ .error) ∧ ∃ c m args', env.analyzeConstruct first line delegate args =
          pure (.construct line delegate args' (some m)) ∧ env.Delegates delegate c ∧
        ((∀ a ∈ args, env.Elaborates names a) →
          (∀ a ∈ args', Denotes env (env.Selects names) a (.value a.ty)) ∧
          env.Selects names c .constructor (env.types.classInfo c).name args' m ∧
          ((∀ a ∈ args, env.Bound names a) →
            (Stmt.construct line delegate args' (some m)).Bound names env)) := by
  simp only [analyzeConstruct] at hQuiet ⊢
  cases hCurrent : env.position.method?.filter
      fun m => decide ((env.types.methodInfo m).kind = .constructor) with
  | none =>
    rw [hCurrent] at hQuiet
    exact absurd hQuiet (Quiet.not_report_bind rfl)
  | some current =>
    cases first with
    | false =>
      rw [hCurrent] at hQuiet
      exact absurd hQuiet (Quiet.not_report_bind rfl)
    | true =>
      simp only [hCurrent, if_true, Logged.log_bind, Quiet.append_iff] at hQuiet ⊢
      obtain ⟨owner, -, hOwner, -, hRoutine⟩ := h.of_method (Option.filter_eq_some_iff.mp hCurrent).1
      obtain ⟨c, hDelegates⟩ := exists_delegates h hOwner delegate
      rw [← hRoutine.owner] at hOwner
      obtain ⟨hError, hEq⟩ | ⟨hClean, ⟨m, exact⟩, hEq, hResolve⟩ :=
        resolveDelegate_quiet hOwner hDelegates hQuiet.1
      · exact .inl ⟨hError, by rw [hEq]; rfl⟩
      · refine .inr ⟨hClean, c, m, env.convertArgs ⟨m, exact⟩ args, by rw [hEq]; rfl, hDelegates, ?_⟩
        intro hGood
        obtain ⟨hSelects, hDenotes⟩ := selects_convertArgs h hGood hResolve rfl
        refine ⟨hDenotes, hSelects, fun hBound => ⟨bound_convertArgs hBound _, ?_⟩⟩
        rintro _ _ ⟨⟩
        exact .of_resolveMethod h hGood hResolve rfl

end Env
end TLang
