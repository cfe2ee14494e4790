import TLang.Proofs.Independence
import TLang.Proofs.Retyping.Expressions

/-! Typed bodies are typed to themselves. If analysis of the bodies of a class reports nothing, then
analysis of what it made of them reports nothing either, changes nothing in them, and declares the same
variables. -/
namespace TLang

open Registry Analysis

variable {line : Nat} {names : List String} {delegate : Delegate} {args : List Expr}
  {s' s : Stmt} {isConstructor first inLoop : Bool} {body' body : List Stmt} {env' env : Env}
  {value : Option Expr} {d : MethodDecl}

namespace Analysis

variable {α β : Type} {a : α}

/-- Steps report nothing together if each of them reports nothing. -/
theorem bind_eq_pure {x : Analysis α} {f : α → Analysis β} {r : β × Env} :
    (x >>= f) env = pure r ↔ ∃ a e, x env = pure (a, e) ∧ f a e = pure r := by
  have hBind : (x >>= f) env = x env >>= fun p => f p.1 p.2 := rfl
  rw [hBind, Logged.bind_eq_pure, Prod.exists]

theorem read_eq_pure {f : Env → Checked α} :
    Analysis.read f env = pure (a, env') ↔ f env = pure a ∧ env' = env := by
  constructor
  · intro h
    obtain ⟨a', hf, h⟩ := Logged.bind_eq_pure.mp h
    obtain ⟨rfl, rfl⟩ := Prod.mk.inj (Logged.pure_inj.mp h)
    exact ⟨hf, rfl⟩
  · rintro ⟨hf, rfl⟩
    exact Logged.bind_eq_pure.mpr ⟨a, hf, rfl⟩

theorem pure_eq_pure {b : α} : (pure a : Analysis α) env = pure (b, env') ↔ a = b ∧ env = env' := by
  constructor
  · intro h
    exact Prod.mk.inj (Logged.pure_inj.mp h)
  · rintro ⟨rfl, rfl⟩
    rfl

theorem last_eq_pure {x : Analysis α} {g : α → β} {b : β} :
    (x >>= fun a => pure (g a)) env = pure (b, env') ↔ ∃ a, x env = pure (a, env') ∧ g a = b := by
  simp only [bind_eq_pure, pure_eq_pure]
  exact exists_congr fun a => ⟨fun ⟨e, hx, hb, he⟩ => ⟨he ▸ hx, hb⟩, fun ⟨hx, hb⟩ => ⟨env', hx, hb, rfl⟩⟩

/-- If the steps of a pass give the same again, then so does the pass. -/
theorem mapM_again {f : α → Analysis α} (holds : Env → Prop) {good : α → Prop} {as as' : List α}
    (hStep : ∀ a ∈ as, ∀ a' e e', holds e → f a e = pure (a', e') →
      (f a' e = pure (a', e') ∧ good a') ∧ holds e')
    (hStart : holds env) (h : as.mapM f env = pure (as', env')) :
    as'.mapM f env = pure (as', env') ∧ ∀ a ∈ as', good a := by
  induction as generalizing env as' with
  | nil =>
    obtain ⟨rfl, rfl⟩ := pure_eq_pure.mp h
    exact ⟨rfl, fun _ ha => absurd ha List.not_mem_nil⟩
  | cons a as ih =>
    rw [List.forall_mem_cons] at hStep
    rw [List.mapM_cons] at h
    obtain ⟨a', e, ha, h⟩ := bind_eq_pure.mp h
    obtain ⟨rest, e', hRest, h⟩ := bind_eq_pure.mp h
    obtain ⟨rfl, rfl⟩ := pure_eq_pure.mp h
    obtain ⟨⟨hAgain, hGood⟩, hNext⟩ := hStep.1 a' env e hStart ha
    obtain ⟨hRestAgain, hRestGood⟩ := ih hStep.2 hNext hRest
    rw [List.mapM_cons, List.forall_mem_cons]
    exact ⟨bind_eq_pure.mpr ⟨a', e, hAgain, last_eq_pure.mpr ⟨rest, hRestAgain, rfl⟩⟩, hGood, hRestGood⟩

/-- Names that were all accepted are all kept. -/
theorem declareNames_eq_pure {ty : Ty} {names' : List String}
    (h : declareNames line ty names env = pure (names', env')) : names' = names := by
  induction names generalizing env names' with
  | nil => exact (pure_eq_pure.mp h).1.symm
  | cons name rest ih =>
    obtain ⟨accepted, e, hName, h⟩ := bind_eq_pure.mp h
    obtain ⟨rest', e', hRest, h⟩ := bind_eq_pure.mp h
    obtain ⟨rfl, rfl⟩ := pure_eq_pure.mp h
    rw [declareName_apply] at hName
    split at hName
    · exact absurd (congrArg Logged.log hName) (List.cons_ne_nil _ _)
    · obtain ⟨rfl, -⟩ := Prod.mk.inj (Logged.pure_inj.mp hName)
      rw [if_pos rfl, ih hRest]

end Analysis

namespace Env

/-- What a body needs so that its typed form is typed to itself. -/
structure Steady (env : Env) : Prop where
  names : env.types.PlainlyNamed
  keeps : env.KeepsScope

theorem Steady.of_allots (h : env.Steady) (hAllots : Allots names env env') : env'.Steady :=
  ⟨h.names.of_interface (hAllots.interface h.keeps), hAllots.keepsScope h.keeps⟩

/-- A value that was converted for a return has the expected type, so it is not converted once more. -/
theorem coerceReturn_again {expected : Ty} {value value' : Expr} (hValue : value.Typed env)
    (h : env.coerceReturn line expected value = pure value') :
    value'.Typed env ∧ env.coerceReturn line expected value' = pure value' := by
  have hNode := h
  rw [coerceReturn] at h
  split at h
  · obtain rfl := Logged.pure_inj.mp h
    exact ⟨hValue, hNode⟩
  case isFalse hOther =>
    split at h
    case isTrue hAssignable =>
      obtain rfl := Logged.pure_inj.mp h
      have hTy := eq_ofClass_of_isAssignable hAssignable fun hSame => hOther (.inr (.inr hSame))
      refine ⟨hValue.widen (.inr hTy), ?_⟩
      rw [coerceReturn, if_pos (.inr (.inr (Expr.ty_widen value expected)))]
    case isFalse => exact absurd h Checked.report_bind_ne_pure

/-- What is returned is typed to itself. Constructors and destructors return nothing, so there is nothing to
convert. -/
theorem returnValue_again {method : MethodInfo} {value' : Option Expr} (hValue : ∀ e ∈ value, e.Typed env)
    (h : env.returnValue line method value = pure value') :
    (∀ e ∈ value', e.Typed env) ∧ env.returnValue line method value' = pure value' := by
  have hNode := h
  unfold returnValue at h
  split at h
  case h_1 hKind =>
    split at h
    case h_1 expected hReturns =>
      obtain ⟨e', hCoerce, h⟩ := Logged.bind_eq_pure.mp h
      obtain rfl := Logged.pure_inj.mp h
      obtain ⟨hTyped, hAgain⟩ := coerceReturn_again (hValue _ rfl) hCoerce
      refine ⟨fun e he => Option.some.inj he ▸ hTyped, ?_⟩
      simp only [returnValue, hKind, hReturns, hAgain, pure_bind]
    case h_2 =>
      obtain rfl := Logged.pure_inj.mp h
      exact ⟨hValue, hNode⟩
  case h_2 => exact absurd h Checked.report_bind_ne_pure
  case h_3 => exact absurd h Checked.report_bind_ne_pure
  case h_4 =>
    obtain rfl := Logged.pure_inj.mp h
    exact ⟨hValue, hNode⟩

/-- A return is left as it is once its value is widened. -/
theorem analyzeReturn_again (hValue : ∀ e ∈ value, e.Typed env) (h : env.analyzeReturn line value = pure s) :
    ∃ value' label, s = .ret line value' label ∧
      (∀ e ∈ value', e.Typed env) ∧ env.analyzeReturn line value' = pure s := by
  have hNode := h
  rw [analyzeReturn] at h
  split at h
  case h_1 method hMethod =>
    obtain ⟨value', hReturn, h⟩ := Logged.bind_eq_pure.mp h
    obtain rfl := Logged.pure_inj.mp h
    obtain ⟨hTyped, hAgain⟩ := returnValue_again hValue hReturn
    refine ⟨value', _, rfl, hTyped, ?_⟩
    simp only [analyzeReturn, hMethod, hAgain, pure_bind]
  case h_2 =>
    split at h
    · obtain ⟨-, -, h⟩ := Logged.bind_eq_pure.mp h
      obtain rfl := Logged.pure_inj.mp h
      exact ⟨value, _, rfl, hValue, hNode⟩
    · exact absurd h Checked.report_bind_ne_pure

/-- The constructor that was handed over to is found again. -/
theorem resolveDelegate_again (hNames : env.types.PlainlyNamed) {current : MethodId} {resolution : Resolution}
    (hArgs : ∀ arg ∈ args, arg.Typed env)
    (h : env.resolveDelegate line delegate args current = pure (some resolution)) :
    let passed := env.convertArgs resolution args
    (∀ arg ∈ passed, arg.Typed env) ∧ ∃ again : Resolution, again.method = resolution.method ∧
      env.resolveDelegate line delegate passed current = pure (some again) ∧
      env.convertArgs again passed = passed := by
  intro passed
  simp only [resolveDelegate] at h
  split at h
  case h_1 => exact absurd (Logged.pure_inj.mp h) (by simp)
  case h_2 c hTarget =>
    split at h
    · exact absurd (Logged.pure_inj.mp h) (by simp)
    case isFalse hErrors =>
      split at h
      case h_1 found hFound =>
        split at h
        · exact absurd h Checked.report_bind_ne_pure
        case isFalse hOther =>
          obtain rfl := Option.some.inj (Logged.pure_inj.mp h)
          obtain ⟨hPassed, hNoError, again, hMethod, hAgain, hSame⟩ :=
            exists_resolution_convertArgs hNames (by simp) hArgs (by simpa using hErrors) hFound
          refine ⟨hPassed, again, hMethod, ?_, hSame⟩
          simp only [resolveDelegate, hTarget, passed, hNoError, Bool.false_eq_true, if_false, hAgain,
            hMethod, hOther]
      case h_2 => exact absurd h Checked.report_bind_ne_pure

/-- A call of a constructor resolves to the same one again, as its arguments have just the types of the
parameters. -/
theorem analyzeConstruct_again (hNames : env.types.PlainlyNamed) (hArgs : ∀ arg ∈ args, arg.Typed env)
    (h : env.analyzeConstruct first line delegate args = pure s) :
    ∃ args' target, s = .construct line delegate args' target ∧ (∀ arg ∈ args', arg.Typed env) ∧
      env.analyzeConstruct first line delegate args' = pure s := by
  have hNode := h
  simp only [analyzeConstruct] at h
  split at h
  · exact absurd h Checked.report_bind_ne_pure
  case h_2 current hCurrent =>
    split at h
    case isFalse => exact absurd h Checked.report_bind_ne_pure
    case isTrue hFirst =>
      obtain ⟨resolution, hResolve, h⟩ := Logged.bind_eq_pure.mp h
      cases resolution with
      | none =>
        obtain rfl := Logged.pure_inj.mp h
        exact ⟨args, none, rfl, hArgs, hNode⟩
      | some resolution =>
        obtain rfl := Logged.pure_inj.mp h
        obtain ⟨hPassed, again, hMethod, hAgain, hSame⟩ := resolveDelegate_again hNames hArgs hResolve
        refine ⟨_, _, rfl, hPassed, ?_⟩
        simp only [analyzeConstruct, hCurrent, hFirst, if_true, hAgain, pure_bind, hSame, hMethod]

theorem eq_delete_of_analyzeDelete {target : Expr} (h : env.analyzeDelete line target = pure s) :
    s = .delete line target := by
  rw [analyzeDelete] at h
  split at h
  case h_1 | h_2 => exact (Logged.pure_inj.mp h).symm
  all_goals exact absurd h Checked.report_bind_ne_pure

end Env

theorem Analysis.condition_again (h : env.Steady) {construct : Conditional} {e e' : Expr}
    (hFresh : e.isFresh = true) (hCondition : condition construct e env = pure (e', env')) :
    condition construct e' env = pure (e', env') ∧ e'.Portable ∧ env' = env := by
  obtain ⟨hRead, rfl⟩ := read_eq_pure.mp hCondition
  obtain ⟨e, hAnalyze, hRead⟩ := Logged.bind_eq_pure.mp hRead
  obtain ⟨_, hInt, hRead⟩ := Logged.bind_eq_pure.mp hRead
  obtain rfl := Logged.pure_inj.mp hRead
  have hTyped := Expr.typed_of_analyze h.names _ hFresh hAnalyze
  refine ⟨read_eq_pure.mpr ⟨?_, rfl⟩, hTyped.portable, rfl⟩
  rw [hTyped.again, pure_bind, hInt]
  rfl

namespace Stmt

/-- Annotations apart, the statement does not depend on the numbers of methods. -/
def Portable (s : Stmt) : Prop := ∀ ρ : Renumbering, ρ.cls = id → (s.renumber ρ).strip = s.strip

def PortableAll (body : List Stmt) : Prop :=
  ∀ ρ : Renumbering, ρ.cls = id → stripAll (renumberAll ρ body) = stripAll body

theorem PortableAll.cons {rest : List Stmt} (h : s.Portable) (hRest : PortableAll rest) :
    PortableAll (s :: rest) := by
  intro ρ hρ
  rw [renumberAll, stripAll, stripAll, h ρ hρ, hRest ρ hρ]

/-- What an analysis leaves steady. -/
theorem steady_analyze (h : env.Steady) (hAnalyze : s.analyze inLoop first env = pure (s', env')) :
    env'.Steady := by
  have hAllots := (walks_analyze inLoop first s env).allots
  rw [hAnalyze] at hAllots
  exact h.of_allots hAllots

/-- A return is typed to itself with the label that it has. The label depends on the method alone. -/
theorem ret_again {label : Option String} (hValue : ∀ e ∈ value, e.Typed env)
    (h : env.analyzeReturn line value = pure (.ret line value label)) :
    (ret line value label).analyze inLoop first env = pure (.ret line value label, env) ∧
      (ret line value label).Portable := by
  have hMap : (value.mapM fun e => e.analyze env) = pure value := by
    cases value with
    | none => rfl
    | some e => rw [Option.mapM_some, (hValue e rfl).again]; rfl
  constructor
  · rw [analyze]
    refine read_eq_pure.mpr ⟨?_, rfl⟩
    rw [hMap, pure_bind, h]
  · intro ρ hρ
    cases value with
    | none => rfl
    | some e => rw [renumber, strip, strip, Option.map_some, Option.map_some, (hValue e rfl).portable ρ hρ]; rfl

mutual

/-- The result of an analysis that reports nothing is analyzed to itself. -/
theorem analyze_again (inLoop first : Bool) : (s : Stmt) → s.isFresh = true → {s' : Stmt} →
    {env env' : Env} → env.Steady → s.analyze inLoop first env = pure (s', env') →
    s'.analyze inLoop first env = pure (s', env') ∧ s'.Portable
  | .expr line e, hFresh, _, env, _, hEnv, h => by
    rw [analyze] at h
    obtain ⟨e', _, hRead, hExpr⟩ := bind_eq_pure.mp h
    obtain ⟨hAnalyze, rfl⟩ := read_eq_pure.mp hRead
    obtain ⟨rfl, rfl⟩ := pure_eq_pure.mp hExpr
    have hTyped := Expr.typed_of_analyze hEnv.names e hFresh hAnalyze
    constructor
    · rw [analyze]
      exact bind_eq_pure.mpr ⟨e', _, read_eq_pure.mpr ⟨hTyped.again, rfl⟩, rfl⟩
    · intro ρ hρ
      rw [renumber, strip, strip, hTyped.portable ρ hρ]
  | .declare line type names, _, _, env, _, hEnv, h => by
    have hNode := h
    rw [analyze] at h
    obtain ⟨ty, _, -, h⟩ := bind_eq_pure.mp h
    obtain ⟨names', hNames, rfl⟩ := last_eq_pure.mp h
    obtain rfl := declareNames_eq_pure hNames
    exact ⟨hNode, fun _ _ => rfl⟩
  | .print line e, hFresh, _, env, _, hEnv, h => by
    rw [analyze] at h
    obtain ⟨h, rfl⟩ := read_eq_pure.mp h
    obtain ⟨e', hAnalyze, h⟩ := Logged.bind_eq_pure.mp h
    obtain ⟨_, hInt, h⟩ := Logged.bind_eq_pure.mp h
    obtain rfl := Logged.pure_inj.mp h
    have hTyped := Expr.typed_of_analyze hEnv.names e hFresh hAnalyze
    constructor
    · rw [analyze]
      refine read_eq_pure.mpr ⟨?_, rfl⟩
      rw [hTyped.again, pure_bind, hInt]
      rfl
    · intro ρ hρ
      rw [renumber, strip, strip, hTyped.portable ρ hρ]
  | .block line body, hFresh, _, env, _, hEnv, h => by
    rw [analyze] at h
    obtain ⟨body', hBody, rfl⟩ := last_eq_pure.mp h
    obtain ⟨hAgain, hPortable⟩ := analyzeAll_again inLoop body hFresh hEnv hBody
    constructor
    · rw [analyze]
      exact last_eq_pure.mpr ⟨body', hAgain, rfl⟩
    · intro ρ hρ
      rw [renumber, strip, strip, hPortable ρ hρ]
  | .branch line cond thenBranch elseBranch, hFresh, _, env, _, hEnv, h => by
    simp only [isFresh, Bool.and_eq_true] at hFresh
    rw [analyze] at h
    obtain ⟨cond', _, hCond, h⟩ := bind_eq_pure.mp h
    obtain ⟨thenBranch', env₁, hThen, h⟩ := bind_eq_pure.mp h
    obtain ⟨elseBranch', hElse, rfl⟩ := last_eq_pure.mp h
    obtain ⟨hCond, hCondPortable, rfl⟩ := condition_again hEnv hFresh.1.1 hCond
    obtain ⟨hThenAgain, hThenPortable⟩ := analyze_again inLoop false thenBranch hFresh.1.2 hEnv hThen
    obtain ⟨hElseAgain, hElsePortable⟩ :=
      analyzeElse_again inLoop elseBranch hFresh.2 (steady_analyze hEnv hThen) hElse
    constructor
    · rw [analyze]
      exact bind_eq_pure.mpr ⟨cond', _, hCond, bind_eq_pure.mpr ⟨thenBranch', _, hThenAgain,
        last_eq_pure.mpr ⟨elseBranch', hElseAgain, rfl⟩⟩⟩
    · intro ρ hρ
      rw [renumber, strip, strip, hCondPortable ρ hρ, hThenPortable ρ hρ, hElsePortable ρ hρ]
  | .loop line cond body, hFresh, _, env, _, hEnv, h => by
    simp only [isFresh, Bool.and_eq_true] at hFresh
    rw [analyze] at h
    obtain ⟨cond', _, hCond, h⟩ := bind_eq_pure.mp h
    obtain ⟨body', hBody, rfl⟩ := last_eq_pure.mp h
    obtain ⟨hCond, hCondPortable, rfl⟩ := condition_again hEnv hFresh.1 hCond
    obtain ⟨hAgain, hPortable⟩ := analyze_again true false body hFresh.2 hEnv hBody
    constructor
    · rw [analyze]
      exact bind_eq_pure.mpr ⟨cond', _, hCond, last_eq_pure.mpr ⟨body', hAgain, rfl⟩⟩
    · intro ρ hρ
      rw [renumber, strip, strip, hCondPortable ρ hρ, hPortable ρ hρ]
  | .ret line none label, _, _, env, _, hEnv, h => by
    rw [analyze] at h
    obtain ⟨h, rfl⟩ := read_eq_pure.mp h
    obtain ⟨value, hValue, h⟩ := Logged.bind_eq_pure.mp h
    obtain rfl := Logged.pure_inj.mp hValue
    obtain ⟨value', label', rfl, hTyped, hAgain⟩ := Env.analyzeReturn_again (by simp) h
    exact ret_again hTyped hAgain
  | .ret line (some e) label, hFresh, _, env, _, hEnv, h => by
    simp only [isFresh, Bool.and_eq_true, Option.all_some] at hFresh
    rw [analyze] at h
    obtain ⟨h, rfl⟩ := read_eq_pure.mp h
    obtain ⟨value, hValue, h⟩ := Logged.bind_eq_pure.mp h
    rw [Option.mapM_some, map_eq_pure_bind] at hValue
    obtain ⟨e', hAnalyze, hValue⟩ := Logged.bind_eq_pure.mp hValue
    obtain rfl := Logged.pure_inj.mp hValue
    have hTyped := Expr.typed_of_analyze hEnv.names e hFresh.1 hAnalyze
    obtain ⟨value', label', rfl, hTyped, hAgain⟩ := Env.analyzeReturn_again (by simpa using hTyped) h
    exact ret_again hTyped hAgain
  | .breakLoop line, _, _, env, _, hEnv, h | .continueLoop line, _, _, env, _, hEnv, h => by
    have hNode := h
    rw [analyze] at h
    obtain ⟨_, -, rfl⟩ := last_eq_pure.mp h
    exact ⟨hNode, fun _ _ => rfl⟩
  | .delete line target, hFresh, _, env, _, hEnv, h => by
    rw [analyze] at h
    obtain ⟨h, rfl⟩ := read_eq_pure.mp h
    obtain ⟨target', hAnalyze, h⟩ := Logged.bind_eq_pure.mp h
    obtain rfl := Env.eq_delete_of_analyzeDelete h
    have hTyped := Expr.typed_of_analyze hEnv.names target hFresh hAnalyze
    constructor
    · rw [analyze]
      refine read_eq_pure.mpr ⟨?_, rfl⟩
      rw [hTyped.again, pure_bind, h]
    · intro ρ hρ
      rw [renumber, strip, strip, hTyped.portable ρ hρ]
  | .construct line delegate args _, hFresh, _, env, _, hEnv, h => by
    simp only [isFresh, Bool.and_eq_true] at hFresh
    rw [analyze] at h
    obtain ⟨h, rfl⟩ := read_eq_pure.mp h
    obtain ⟨args', hArgs, h⟩ := Logged.bind_eq_pure.mp h
    obtain ⟨passed, target, rfl, hTyped, hAgain⟩ :=
      Env.analyzeConstruct_again hEnv.names (Expr.typed_of_analyzeArgs hEnv.names args hFresh.1 hArgs) h
    constructor
    · rw [analyze]
      refine read_eq_pure.mpr ⟨?_, rfl⟩
      rw [Expr.analyzeArgs_of_typed hTyped, pure_bind, hAgain]
    · intro ρ hρ
      rw [renumber, strip, strip, Expr.stripAll_renumber (fun arg hArg => (hTyped arg hArg).portable) hρ]
  | .empty line, _, _, env, _, hEnv, h => by
    obtain ⟨rfl, rfl⟩ := pure_eq_pure.mp h
    exact ⟨rfl, fun _ _ => rfl⟩

theorem analyzeElse_again (inLoop : Bool) : (s : Option Stmt) → isFreshElse s = true →
    {s' : Option Stmt} → {env env' : Env} → env.Steady → analyzeElse inLoop s env = pure (s', env') →
    analyzeElse inLoop s' env = pure (s', env') ∧
      ∀ ρ : Renumbering, ρ.cls = id → stripElse (renumberElse ρ s') = stripElse s'
  | none, _, _, env, _, hEnv, h => by
    obtain ⟨rfl, rfl⟩ := pure_eq_pure.mp h
    exact ⟨rfl, fun _ _ => rfl⟩
  | some s, hFresh, _, env, _, hEnv, h => by
    rw [analyzeElse] at h
    obtain ⟨s', hs, rfl⟩ := last_eq_pure.mp h
    obtain ⟨hAgain, hPortable⟩ := analyze_again inLoop false s hFresh hEnv hs
    constructor
    · rw [analyzeElse]
      exact last_eq_pure.mpr ⟨s', hAgain, rfl⟩
    · intro ρ hρ
      rw [renumberElse, stripElse, stripElse, hPortable ρ hρ]

theorem analyzeAll_again (inLoop : Bool) : (body : List Stmt) → areFresh body = true →
    {body' : List Stmt} → {env env' : Env} → env.Steady →
    analyzeAll inLoop body env = pure (body', env') →
    analyzeAll inLoop body' env = pure (body', env') ∧ PortableAll body'
  | [], _, _, env, _, hEnv, h => by
    obtain ⟨rfl, rfl⟩ := pure_eq_pure.mp h
    exact ⟨rfl, fun _ _ => rfl⟩
  | s :: rest, hFresh, _, env, _, hEnv, h => by
    rw [areFresh, Bool.and_eq_true] at hFresh
    rw [analyzeAll] at h
    obtain ⟨s', _, hs, h⟩ := bind_eq_pure.mp h
    obtain ⟨rest', hRest, rfl⟩ := last_eq_pure.mp h
    obtain ⟨hAgain, hPortable⟩ := analyze_again inLoop false s hFresh.1 hEnv hs
    obtain ⟨hRestAgain, hRestPortable⟩ :=
      analyzeAll_again inLoop rest hFresh.2 (steady_analyze hEnv hs) hRest
    refine ⟨?_, .cons hPortable hRestPortable⟩
    rw [analyzeAll]
    exact bind_eq_pure.mpr ⟨s', _, hAgain, last_eq_pure.mpr ⟨rest', hRestAgain, rfl⟩⟩

end

/-- A typed body is typed to itself, and it carries no number of a class but those that a renumbering of methods
leaves alone. -/
theorem analyzeBody_again (hFresh : areFresh body = true) (hEnv : env.Steady)
    (h : analyzeBody isConstructor body env = pure (body', env')) :
    analyzeBody isConstructor body' env = pure (body', env') ∧ PortableAll body' := by
  cases body with
  | nil =>
    obtain ⟨rfl, rfl⟩ := pure_eq_pure.mp h
    exact ⟨rfl, fun _ _ => rfl⟩
  | cons s rest =>
    rw [areFresh, Bool.and_eq_true] at hFresh
    obtain ⟨s', _, hs, h⟩ := bind_eq_pure.mp h
    obtain ⟨rest', hRest, rfl⟩ := last_eq_pure.mp h
    obtain ⟨hAgain, hPortable⟩ := analyze_again false isConstructor s hFresh.1 hEnv hs
    obtain ⟨hRestAgain, hRestPortable⟩ :=
      analyzeAll_again false rest hFresh.2 (steady_analyze hEnv hs) hRest
    exact ⟨bind_eq_pure.mpr ⟨s', _, hAgain, last_eq_pure.mpr ⟨rest', hRestAgain, rfl⟩⟩,
      .cons hPortable hRestPortable⟩

/-- A call of a constructor stays one, so it is still allowed as the first statement when the body is typed
again. -/
theorem isConstruct_of_analyze (hFresh : s.isFresh = true) (hEnv : env.Steady) (hs : s.isConstruct = true)
    (h : s.analyze inLoop first env = pure (s', env')) : s'.isConstruct = true := by
  cases s with
  | construct line delegate args target =>
    simp only [isFresh, Bool.and_eq_true] at hFresh
    rw [analyze] at h
    obtain ⟨h, rfl⟩ := read_eq_pure.mp h
    obtain ⟨args', hArgs, h⟩ := Logged.bind_eq_pure.mp h
    obtain ⟨passed, target, rfl, -⟩ :=
      Env.analyzeConstruct_again hEnv.names (Expr.typed_of_analyzeArgs hEnv.names args hFresh.1 hArgs) h
    rfl
  | _ => cases hs

/-- A body that opens with the call of a constructor still does so when it is typed. -/
theorem head_of_analyzeBody (hFresh : areFresh body = true) (hEnv : env.Steady)
    (hHead : body.head?.any isConstruct = true) (h : analyzeBody isConstructor body env = pure (body', env')) :
    body'.head?.any isConstruct = true := by
  cases body with
  | nil => cases hHead
  | cons s rest =>
    obtain ⟨s', _, hs, h⟩ := bind_eq_pure.mp h
    obtain ⟨rest', -, rfl⟩ := last_eq_pure.mp h
    rw [areFresh, Bool.and_eq_true] at hFresh
    exact isConstruct_of_analyze hFresh.1 hEnv hHead hs

end Stmt

namespace MethodDecl

theorem areFresh_fullBody (h : Stmt.areFresh d.body = true) : Stmt.areFresh d.fullBody = true := by
  rw [fullBody]
  split
  · rw [Stmt.areFresh, h]
    rfl
  · exact h

/-- The body that was typed is the whole body. -/
theorem fullBody_of_analyzeBody (hFresh : Stmt.areFresh d.body = true) (hEnv : env.Steady)
    (h : Stmt.analyzeBody (d.kind = .constructor) d.fullBody env = pure (body, env')) :
    { d with body }.fullBody = body := by
  by_cases hKind : d.kind = .constructor
  · have hHead : d.fullBody.head?.any Stmt.isConstruct = true := by
      rw [fullBody]
      split
      · rfl
      case isFalse hOpens => simpa [hKind] using hOpens
    simp [fullBody, Stmt.head_of_analyzeBody (areFresh_fullBody hFresh) hEnv hHead h]
  · simp [fullBody, hKind]

end MethodDecl

section Members

variable {c : ClassId}

/-- A routine is typed to itself. It has to be one of the class around it whose variables are not yet declared,
since they are declared again. -/
theorem MethodDecl.analyzeBody_again {d' : MethodDecl} (hFresh : Stmt.areFresh d.body = true)
    (hNames : env.types.PlainlyNamed) (hReady : env.Ready { inClass := some c } d.resolved.toList)
    (h : d.analyzeBody env = pure (d', env')) :
    d'.analyzeBody env = pure (d', env') ∧ Stmt.PortableAll d'.body := by
  cases hResolved : d.resolved with
  | none =>
    have hPure : d.analyzeBody = pure d := by rw [analyzeBody, hResolved]
    rw [hPure] at h
    obtain ⟨rfl, rfl⟩ := pure_eq_pure.mp h
    rw [hPure]
    refine ⟨rfl, fun ρ _ => ?_⟩
    rw [Stmt.renumberAll_of_areFresh ρ hFresh]
  | some m =>
    rw [hResolved] at hReady
    have hSteady : (inside m env).Steady := ⟨hNames, keepsScope_inside hReady⟩
    rw [analyzeBody_apply hResolved] at h
    generalize hBody : Stmt.analyzeBody (d.kind = .constructor) d.fullBody (inside m env) = typed at h
    obtain ⟨⟨body, final⟩, log⟩ := typed
    obtain ⟨hValue, rfl⟩ := Logged.mk.inj h
    obtain ⟨rfl, rfl⟩ := Prod.mk.inj hValue
    have hResolved' : { d with body }.resolved = some m := hResolved
    obtain ⟨hAgain, hPortable⟩ := Stmt.analyzeBody_again (areFresh_fullBody hFresh) hSteady hBody
    refine ⟨?_, hPortable⟩
    rw [analyzeBody_apply hResolved', fullBody_of_analyzeBody hFresh hSteady hBody, hAgain]
    rfl

theorem Member.analyzeBody_again {member member' : Member} (hFresh : Stmt.areFresh member.body = true)
    (hNames : env.types.PlainlyNamed) (hReady : env.Ready { inClass := some c } member.routine?.toList)
    (h : member.analyzeBody env = pure (member', env')) :
    member'.analyzeBody env = pure (member', env') ∧ Stmt.PortableAll member'.body := by
  cases member with
  | field d =>
    obtain ⟨rfl, rfl⟩ := pure_eq_pure.mp h
    exact ⟨rfl, fun _ _ => rfl⟩
  | method d =>
    obtain ⟨d', hBody, rfl⟩ := last_eq_pure.mp h
    obtain ⟨hAgain, hPortable⟩ := MethodDecl.analyzeBody_again hFresh hNames hReady hBody
    exact ⟨last_eq_pure.mpr ⟨d', hAgain, rfl⟩, hPortable⟩

/-- What analysis makes of the bodies of a class is analyzed to itself. -/
theorem ClassDecl.analyzeBodies_again {d d' : ClassDecl}
    (hFresh : ∀ member ∈ d.members, Stmt.areFresh member.body = true)
    (hNames : env.types.PlainlyNamed) (hReady : env.Ready {} d.routines)
    (h : d.analyzeBodies env = pure (d', env')) :
    d'.analyzeBodies env = pure (d', env') ∧ ∀ member ∈ d'.members, Stmt.PortableAll member.body := by
  cases hResolved : d.resolved with
  | none =>
    have hPure : d.analyzeBodies = pure d := by rw [analyzeBodies, hResolved]
    rw [hPure] at h
    obtain ⟨rfl, rfl⟩ := pure_eq_pure.mp h
    rw [hPure]
    refine ⟨rfl, fun member hMember ρ _ => ?_⟩
    rw [Stmt.renumberAll_of_areFresh ρ (hFresh member hMember)]
  | some c =>
    rw [analyzeBodies_apply hResolved] at h
    generalize hBodies : d.members.mapM Member.analyzeBody (inside c env) = typed at h
    obtain ⟨⟨members, final⟩, log⟩ := typed
    obtain ⟨hValue, rfl⟩ := Logged.mk.inj h
    obtain ⟨rfl, rfl⟩ := Prod.mk.inj hValue
    have hAgain : members.mapM Member.analyzeBody (inside c env) = pure (members, final) ∧
        ∀ member ∈ members, Stmt.PortableAll member.body := by
      refine mapM_again (fun e => e.types.PlainlyNamed ∧ e.Ready { inClass := some c } d.routines) ?_
        ⟨hNames, ready_inside c hReady⟩ hBodies
      rintro member hMember member' e e' ⟨hNames, hReady⟩ hBody
      have hOwn : e.Ready { inClass := some c } member.routine?.toList := by
        rw [routines_eq_flatMap] at hReady
        exact hReady.mono fun m hm => List.mem_flatMap.mpr ⟨member, hMember, hm⟩
      have hTouches := (member.local_analyzeBody c).touches e hOwn
      rw [hBody] at hTouches
      exact ⟨Member.analyzeBody_again (hFresh member hMember) hNames hOwn hBody,
        hNames.of_interface hTouches.interface, hTouches.ready hReady⟩
    have hResolved' : { d with members }.resolved = some c := hResolved
    rw [analyzeBodies_apply hResolved', hAgain.1]
    exact ⟨rfl, hAgain.2⟩

end Members

/-- The main block is typed to itself, if no class and no method is around it. -/
theorem MainBlock.analyze_again {m m' : MainBlock} (hFresh : Stmt.areFresh m.body = true)
    (hNames : env.types.PlainlyNamed) (hPosition : env.position = {}) (h : m.analyze env = pure (m', env')) :
    m'.analyze env = pure (m', env') ∧ Stmt.PortableAll m'.body := by
  rw [analyze_apply] at h
  generalize hBody : Stmt.analyzeBody false m.body (inside env) = typed at h
  obtain ⟨⟨body, final⟩, log⟩ := typed
  obtain ⟨hValue, rfl⟩ := Logged.mk.inj h
  obtain ⟨rfl, rfl⟩ := Prod.mk.inj hValue
  have hSteady : (inside env).Steady := ⟨hNames, keepsScope_inside hPosition⟩
  obtain ⟨hAgain, hPortable⟩ := Stmt.analyzeBody_again hFresh hSteady hBody
  refine ⟨?_, hPortable⟩
  simp only [analyze_apply, hAgain, Logged.value_pure, Logged.log_pure]
  rfl

end TLang
