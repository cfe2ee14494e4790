import TLang.Proofs.Parts
import TLang.Proofs.Registry.Interface
import TLang.Proofs.Steps

/-! The scope of a body. Typing a body declares variables, one after the other and each under a name
that is not taken, and changes nothing else in the environment: not what other bodies declare, and
nothing that other bodies can see. -/
namespace TLang

open Analysis

variable {m : MethodId}

variable {names more : List String} {env env' env'' : Env}

namespace Env

/-- A declaration at this position is recorded: the position is in the main block or in a method that
is registered. -/
def KeepsScope (env : Env) : Prop :=
  match env.position.scope with
  | .method m => m.index < env.types.methods.length
  | .cls _ => False
  | .program => True

/-- The name belongs to a parameter or to a variable of the scope. -/
def isTaken (env : Env) (name : String) : Bool :=
  env.method?.any (·.params.declares name) || env.scopeTable.names.declares name

/-- The environment with one more variable in its scope. -/
def allot (env : Env) (name : String) (ty : Ty) : Env :=
  env.setScopeTable { env.scopeTable with names := env.scopeTable.names ++ [(name, ty)] }

@[simp] theorem position_setScopeTable (env : Env) (table : SymbolTable) :
    (env.setScopeTable table).position = env.position := by
  rw [setScopeTable]
  split <;> rfl

@[simp] theorem position_allot (env : Env) (name : String) (ty : Ty) :
    (env.allot name ty).position = env.position :=
  position_setScopeTable env _

namespace KeepsScope

/-- The table of such a scope can be replaced. -/
theorem scopeTable_setScopeTable (h : env.KeepsScope) (table : SymbolTable) :
    (env.setScopeTable table).scopeTable = table := by
  rw [KeepsScope] at h
  cases hScope : env.position.scope with
  | method m =>
    rw [hScope] at h
    simp only [setScopeTable, scopeTable, hScope, Registry.methodInfo_updateMethod_self _ _ h]
  | cls c =>
    rw [hScope] at h
    exact h.elim
  | program => simp only [setScopeTable, scopeTable, hScope]

/-- Other bodies do not see the table. -/
theorem interface_setScopeTable (h : env.KeepsScope) (table : SymbolTable) :
    Registry.SameInterface env.types (env.setScopeTable table).types := by
  rw [KeepsScope] at h
  cases hScope : env.position.scope with
  | method m =>
    rw [hScope] at h
    simp only [setScopeTable, hScope]
    exact Registry.sameInterface_updateLocals h table
  | cls c =>
    rw [hScope] at h
    exact h.elim
  | program =>
    simp only [setScopeTable, hScope]
    exact .refl _

theorem setScopeTable (h : env.KeepsScope) (table : SymbolTable) :
    (env.setScopeTable table).KeepsScope := by
  have hLength := (h.interface_setScopeTable table).length
  rw [KeepsScope] at h ⊢
  rw [position_setScopeTable, hLength]
  exact h

end KeepsScope
end Env

/-- A declaration either finds the name taken, and then only reports it, or adds the variable to the
scope. -/
theorem Analysis.declareName_apply (line : Nat) (ty : Ty) (name : String) (env : Env) :
    declareName line ty name env =
      if env.isTaken name then ⟨(false, env), [⟨line, .duplicateVariable name⟩]⟩
      else ⟨(true, env.allot name ty), []⟩ := by
  by_cases hParam : env.method?.any (·.params.declares name) = true
  · have hTaken : env.isTaken name = true := by rw [Env.isTaken, hParam, Bool.true_or]
    rw [if_pos hTaken]
    apply Logged.ext <;> simp [declareName, hParam]
  · rw [Bool.not_eq_true] at hParam
    have hTaken : env.isTaken name = env.scopeTable.names.declares name := by
      rw [Env.isTaken, hParam, Bool.false_or]
    rw [hTaken]
    split
    case isTrue hName =>
      have hInstall : env.scopeTable.names.add? name ty = none :=
        Bindings.add?_eq_none_iff.mpr (Bindings.declares_iff.mp hName)
      apply Logged.ext <;>
        simp [declareName, hParam, SymbolTable.install?, hInstall]
    case isFalse hName =>
      have hNew : name ∉ env.scopeTable.names.names := fun h => hName (Bindings.declares_iff.mpr h)
      have hInstall : env.scopeTable.names.add? name ty = some (env.scopeTable.names ++ [(name, ty)]) :=
        Bindings.add?_eq_some_iff.mpr ⟨hNew, rfl⟩
      apply Logged.ext <;>
        simp [declareName, hParam, SymbolTable.install?, hInstall, Env.allot]

/-- Variables may have been added behind those that are there. -/
structure SymbolTable.Extends (t t' : SymbolTable) : Prop where
  names : t.names <+: t'.names
  methods : t'.methods = t.methods

theorem SymbolTable.Extends.refl (t : SymbolTable) : t.Extends t := ⟨List.prefix_rfl, rfl⟩

theorem SymbolTable.Extends.trans {t t' t'' : SymbolTable} (h : t.Extends t') (h' : t'.Extends t'') :
    t.Extends t'' :=
  ⟨h.names.trans h'.names, h'.methods.trans h.methods⟩

/-- The second environment is the first one after the names were declared, none of which was taken
when its turn came. -/
inductive Env.Allots : List String → Env → Env → Prop where
  | refl (env : Env) : Allots [] env env
  | step {name : String} {names : List String} {env env' : Env} (ty : Ty)
      (hFree : env.isTaken name = false) (hRest : Allots names (env.allot name ty) env') :
      Allots (name :: names) env env'

namespace Env.Allots

variable (h : Allots names env env')
include h

theorem position : env'.position = env.position := by
  induction h with
  | refl => rfl
  | step ty _ _ ih => rw [ih, position_allot]

theorem keepsScope (hKeeps : env.KeepsScope) : env'.KeepsScope := by
  induction h with
  | refl => exact hKeeps
  | step ty _ _ ih => exact ih (hKeeps.setScopeTable _)

/-- Nothing that other bodies see is changed. -/
theorem interface (hKeeps : env.KeepsScope) : Registry.SameInterface env.types env'.types := by
  induction h with
  | refl => exact .refl _
  | step ty _ _ ih => exact (hKeeps.interface_setScopeTable _).trans (ih (hKeeps.setScopeTable _))

theorem extends_scopeTable (hKeeps : env.KeepsScope) : env.scopeTable.Extends env'.scopeTable := by
  induction h with
  | refl => exact .refl _
  | step ty _ _ ih =>
    have hRest := ih (hKeeps.setScopeTable _)
    rw [allot, hKeeps.scopeTable_setScopeTable] at hRest
    exact ⟨(List.prefix_append _ _).trans hRest.names, hRest.methods⟩

/-- The names stand in the table of the scope, behind those that were there. -/
theorem scope_names (hKeeps : env.KeepsScope) :
    env'.scopeTable.names.names = env.scopeTable.names.names ++ names := by
  induction h with
  | refl => rw [List.append_nil]
  | step ty _ _ ih =>
    rw [ih (hKeeps.setScopeTable _), allot, hKeeps.scopeTable_setScopeTable,
      Bindings.names_append, List.append_assoc]
    rfl

/-- No name is declared twice. -/
theorem nodup (hKeeps : env.KeepsScope)
    (hNodup : env.scopeTable.names.names.Nodup) : env'.scopeTable.names.names.Nodup := by
  induction h with
  | refl => exact hNodup
  | @step name _ env _ ty hFree _ ih =>
    apply ih (hKeeps.setScopeTable _)
    rw [allot, hKeeps.scopeTable_setScopeTable, Bindings.names, ← List.concat_eq_append, List.map_concat]
    rw [isTaken, Bool.or_eq_false_iff] at hFree
    have hNew : name ∉ env.scopeTable.names.names := by
      rw [← Bindings.declares_iff, hFree.2]
      exact Bool.false_ne_true
    exact hNodup.concat hNew

/-- No parameter is declared again. -/
theorem disjoint_params (hKeeps : env.KeepsScope) (hScope : env.position.scope = .method m) :
    ∀ name ∈ names, name ∉ (env.types.methodInfo m).params.names := by
  induction h with
  | refl => exact fun _ hName => absurd hName List.not_mem_nil
  | @step first _ env _ ty hFree _ ih =>
    have hParams := (hKeeps.interface_setScopeTable
      { env.scopeTable with names := env.scopeTable.names ++ [(first, ty)] }).params m
    intro name hName
    rcases List.mem_cons.mp hName with rfl | hName
    · rw [isTaken, Bool.or_eq_false_iff] at hFree
      have hMethod : env.method? = some (env.types.methodInfo m) := by
        rcases hPosition : env.position with ⟨inMain, _ | c, _ | m'⟩ <;>
          simp_all [Position.scope, Env.method?, Position.method?]
      rw [hMethod, Option.any_some] at hFree
      rw [← Bindings.declares_iff, hFree.1]
      exact Bool.false_ne_true
    · have hRest := ih (hKeeps.setScopeTable _) (by rw [position_allot, hScope]) name hName
      rw [allot, hParams] at hRest
      exact hRest

/-- The variables of a method that is not the one around the scope stay as they are. -/
theorem methodInfo_of_ne (hOther : env.position.scope ≠ .method m) :
    env'.types.methodInfo m = env.types.methodInfo m := by
  induction h with
  | refl => rfl
  | @step name _ env _ ty _ _ ih =>
    rw [ih (by rwa [position_allot]), allot, setScopeTable]
    split
    case h_1 m' hScope =>
      have hne : m ≠ m' := by
        rintro rfl
        exact hOther hScope
      rw [Registry.methodInfo_updateMethod_of_ne _ _ hne]
    case h_2 => rfl
    case h_3 => rfl

/-- Outside classes the registry stays as it is. -/
theorem types_of_program (hScope : env.position.scope = .program) : env'.types = env.types := by
  induction h with
  | refl => rfl
  | step ty _ _ ih => rw [ih (by rwa [position_allot]), allot, setScopeTable, hScope]

/-- Outside the main block its variables stay as they are. -/
theorem globals (hScope : env.position.scope ≠ .program) : env'.globals = env.globals := by
  induction h with
  | refl => rfl
  | step ty _ _ ih =>
    rw [ih (by rwa [position_allot]), allot, setScopeTable]
    split
    case h_1 => rfl
    case h_2 => rfl
    case h_3 hProgram => exact absurd hProgram hScope

end Env.Allots

namespace Stmt

/-- The variables that a statement itself declares. -/
def declared : Stmt → List String
  | declare _ _ names => names
  | _ => []

/-- The variables that a body declares. -/
def declaredIn (body : List Stmt) : List String := (partsOfAll body).flatMap declared

end Stmt

/-! Bodies as sequences of events. -/

theorem Env.resolveTypeName_of_outline {env env' : Env} (h : env'.types.outline = env.types.outline)
    (line : Nat) (type : TypeName) : env'.resolveTypeName line type = env.resolveTypeName line type := by
  cases type with
  | int => rfl
  | named name => simp only [resolveTypeName, Registry.lookupClass_of_outline h]

/-- What a body does with names. -/
inductive ScopeEvent where
  | use (e : Expr)
  | declare (line : Nat) (type : TypeName) (name : String)

namespace Stmt

mutual

/-- The events of a statement, in the order in which they are typed. -/
def events : Stmt → List ScopeEvent
  | expr _ e | print _ e | delete _ e => [.use e]
  | declare line type names => names.map (.declare line type)
  | block _ body => eventsOfAll body
  | branch _ cond thenBranch elseBranch =>
    .use cond :: (thenBranch.events ++ eventsOfElse elseBranch)
  | loop _ cond body => .use cond :: body.events
  | ret _ value _ => value.toList.map .use
  | construct _ _ args _ => args.map .use
  | breakLoop _ | continueLoop _ | empty _ => []

def eventsOfElse : Option Stmt → List ScopeEvent
  | none => []
  | some s => s.events

def eventsOfAll : List Stmt → List ScopeEvent
  | [] => []
  | s :: rest => s.events ++ eventsOfAll rest

end

end Stmt

namespace Env

/-- The environment behind an event. -/
def step (env : Env) : ScopeEvent → Env
  | .use _ => env
  | .declare line type name =>
    (declareName line (env.resolveTypeName line type).value name env).value.2

/-- The environment behind some events. -/
def after (env : Env) (events : List ScopeEvent) : Env := events.foldl step env

/-- The names that are declared and were free when their turn came. -/
def accepted (env : Env) : List ScopeEvent → List String
  | [] => []
  | .use _ :: events => env.accepted events
  | .declare line type name :: events =>
    let rest := (env.step (.declare line type name)).accepted events
    if env.isTaken name then rest else name :: rest

section

variable (env)

@[simp] theorem after_nil : env.after [] = env := rfl

@[simp] theorem after_cons (event : ScopeEvent) (events : List ScopeEvent) :
    env.after (event :: events) = (env.step event).after events := rfl

@[simp] theorem after_append (events more : List ScopeEvent) :
    env.after (events ++ more) = (env.after events).after more :=
  List.foldl_append

/-- Declarations are accepted from left to right, each against those accepted before it. -/
theorem accepted_append (events more : List ScopeEvent) :
    env.accepted (events ++ more) = env.accepted events ++ (env.after events).accepted more := by
  induction events generalizing env with
  | nil => rfl
  | cons event events ih =>
    cases event with
    | use e => exact ih env
    | declare line type name =>
      have hRest := ih (env.step (.declare line type name))
      simp only [List.cons_append, accepted, hRest]
      split <;> rfl

/-- Classes keep their names and parents while variables are declared. -/
theorem outline_setScopeTable (table : SymbolTable) :
    (env.setScopeTable table).types.outline = env.types.outline := by
  rw [setScopeTable]
  split
  · rfl
  · refine Registry.outline_updateClass ?_ ?_ env.types
    · exact fun _ => rfl
    · exact fun _ => rfl
  · rfl

/-- A declaration finds the name taken or adds the variable. -/
theorem step_declare (line : Nat) (type : TypeName) (name : String) :
    env.step (.declare line type name) =
      if env.isTaken name then env else env.allot name (env.resolveTypeName line type).value := by
  rw [step, declareName_apply]
  split
  · rfl
  · rfl

theorem outline_step (event : ScopeEvent) : (env.step event).types.outline = env.types.outline := by
  cases event with
  | use e => rfl
  | declare line type name =>
    rw [step_declare]
    split
    · rfl
    · exact env.outline_setScopeTable _

/-- Events declare the names that are accepted and do nothing else. -/
theorem allots_after (events : List ScopeEvent) :
    Allots (env.accepted events) env (env.after events) := by
  induction events generalizing env with
  | nil => exact .refl env
  | cons event events ih =>
    cases event with
    | use e => exact ih env
    | declare line type name =>
      have hRest := ih (env.step (.declare line type name))
      rw [after_cons, accepted]
      rw [step_declare] at hRest ⊢
      by_cases hTaken : env.isTaken name = true
      · simp only [if_pos hTaken] at hRest ⊢
        exact hRest
      · simp only [if_neg hTaken] at hRest ⊢
        exact .step _ (by simpa using hTaken) hRest

end

/-- Typing goes through the events: it keeps the names that were free and leads to the environment behind. -/
structure Walks (events : List ScopeEvent) (names : List String) (env env' : Env) : Prop where
  names : names = env.accepted events
  env : env' = env.after events

namespace Walks

variable {events events' : List ScopeEvent}

theorem append (h : Walks events names env env') (h' : Walks events' more env' env'') :
    Walks (events ++ events') (names ++ more) env env'' where
  names := by rw [h.names, h'.names, h.env, accepted_append]
  env := by rw [h'.env, h.env, after_append]

theorem uses (es : List Expr) (env : Env) : Walks (es.map .use) [] env env := by
  induction es with
  | nil => exact ⟨rfl, rfl⟩
  | cons e es ih => exact ⟨ih.names, ih.env⟩

/-- Along the way variables are declared and nothing else happens. -/
theorem allots (h : Walks events names env env') : Allots names env env' := by
  obtain ⟨rfl, rfl⟩ := h
  exact env.allots_after events

end Walks
end Env

/-- Declaring names one by one walks over as many events. The type is resolved once, which makes no difference. -/
theorem Analysis.walks_declareNames (line : Nat) (type : TypeName) (names : List String) (env : Env) :
    let x := declareNames line (env.resolveTypeName line type).value names env
    Env.Walks (names.map (.declare line type)) x.value.1 env x.value.2 := by
  induction names generalizing env with
  | nil => exact ⟨rfl, rfl⟩
  | cons name rest ih =>
    have hRest := ih (env.step (.declare line type name))
    rw [Env.resolveTypeName_of_outline (env.outline_step _)] at hRest
    refine ⟨?_, hRest.env⟩
    simp only [declareNames, value_bind, pure_apply, List.map_cons, Env.accepted, ← hRest.names]
    rw [Env.step, declareName_apply]
    by_cases hTaken : env.isTaken name = true
    · simp [hTaken]
    · simp [hTaken]

namespace Env

variable (env : Env) (line : Nat)

theorem exists_analyzeReturn (value : Option Expr) :
    ∃ value' exitLabel, (env.analyzeReturn line value).value = .ret line value' exitLabel := by
  rw [analyzeReturn]
  split
  · exact ⟨_, _, rfl⟩
  · split <;> exact ⟨_, _, rfl⟩

theorem value_analyzeDelete (target : Expr) : (env.analyzeDelete line target).value = .delete line target := by
  rw [analyzeDelete]
  cases target.ty <;> rfl

/-- A call of a constructor declares no variable, whether it is accepted or not. -/
theorem declared_analyzeConstruct (first : Bool) (delegate : Delegate) (args : List Expr) :
    (env.analyzeConstruct first line delegate args).value.parts.flatMap Stmt.declared = [] := by
  rw [analyzeConstruct]
  split
  · rfl
  · split
    · rw [Logged.value_bind]
      split <;> rfl
    · rfl

end Env

namespace Stmt

mutual

/-- Typing a statement goes through its events, and the names that are kept are left in it. -/
theorem walks_analyze (inLoop first : Bool) : (s : Stmt) → (env : Env) →
    Env.Walks s.events ((s.analyze inLoop first env).value.1.parts.flatMap declared) env
      (s.analyze inLoop first env).value.2
  | .expr _ _, _ | .print _ _, _ | .empty _, _ => ⟨rfl, rfl⟩
  | .declare line type names, env => by
    have hNames := walks_declareNames line type names env
    simpa [analyze, parts, declared, events] using hNames
  | .block _ body, env => walks_analyzeAll inLoop body env
  | .branch _ cond thenBranch elseBranch, env => by
    have hCond := Env.Walks.uses [cond] env
    have hThen := walks_analyze inLoop false thenBranch env
    have hElse := walks_analyzeElse inLoop elseBranch (thenBranch.analyze inLoop false env).value.2
    simpa [analyze, condition, parts, declared, events] using hCond.append (hThen.append hElse)
  | .loop _ cond body, env => (Env.Walks.uses [cond] env).append (walks_analyze true false body env)
  | .ret line value _, env => by
    obtain ⟨_, _, hReturn⟩ := env.exists_analyzeReturn line (value.mapM fun e : Expr => e.analyze env).value
    simp only [analyze, value_read, Logged.value_bind, hReturn]
    exact .uses value.toList env
  | .breakLoop _, _ | .continueLoop _, _ => by cases inLoop <;> exact ⟨rfl, rfl⟩
  | .delete line target, env => by
    simp only [analyze, value_read, Logged.value_bind, Env.value_analyzeDelete]
    exact .uses [target] env
  | .construct line delegate args _, env => by
    simp only [analyze, value_read, Logged.value_bind, Env.declared_analyzeConstruct]
    exact .uses args env

theorem walks_analyzeElse (inLoop : Bool) : (s : Option Stmt) → (env : Env) →
    Env.Walks (eventsOfElse s) ((partsOfElse (analyzeElse inLoop s env).value.1).flatMap declared) env
      (analyzeElse inLoop s env).value.2
  | none, _ => ⟨rfl, rfl⟩
  | some s, env => walks_analyze inLoop false s env

theorem walks_analyzeAll (inLoop : Bool) : (body : List Stmt) → (env : Env) →
    Env.Walks (eventsOfAll body) (declaredIn (analyzeAll inLoop body env).value.1) env
      (analyzeAll inLoop body env).value.2
  | [], _ => ⟨rfl, rfl⟩
  | s :: rest, env => by
    have hFirst := walks_analyze inLoop false s env
    have hRest := walks_analyzeAll inLoop rest (s.analyze inLoop false env).value.2
    simpa [analyzeAll, declaredIn, partsOfAll, eventsOfAll] using hFirst.append hRest

end

/-- A body is walked over in the order of its text, and an inner block does not end at its bracket. -/
theorem walks_analyzeBody (isConstructor : Bool) (body : List Stmt) (env : Env) :
    Env.Walks (eventsOfAll body) (declaredIn (analyzeBody isConstructor body env).value.1) env
      (analyzeBody isConstructor body env).value.2 := by
  cases body with
  | nil => exact ⟨rfl, rfl⟩
  | cons s rest =>
    have hFirst := walks_analyze false isConstructor s env
    have hRest := walks_analyzeAll false rest (s.analyze false isConstructor env).value.2
    simpa [analyzeBody, declaredIn, partsOfAll, eventsOfAll] using hFirst.append hRest

/-- Typing a statement leads to the environment behind its events. -/
theorem analyze_after (inLoop first : Bool) (s : Stmt) (env : Env) :
    (s.analyze inLoop first env).value.2 = env.after s.events :=
  (walks_analyze inLoop first s env).env

/-- Typing a body declares the variables that are left in it. -/
theorem allots_analyzeBody (isConstructor : Bool) (body : List Stmt) (env : Env) :
    Env.Allots (declaredIn (analyzeBody isConstructor body env).value.1) env
      (analyzeBody isConstructor body env).value.2 :=
  (walks_analyzeBody isConstructor body env).allots

end Stmt
end TLang
