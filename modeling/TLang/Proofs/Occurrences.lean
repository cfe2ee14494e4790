import TLang.Proofs.Traversal

/-! Where variables stand. Typing binds each variable of a tree to its storage, or reports it, and moves,
drops and adds none. What a variable is bound to depends on its name and on the environment in which its
expression is used. -/
namespace TLang

open Registry List

/-- The variables used along some events, how they are bound, and which of them are reported. -/
structure Env.Follows (env : Env) (events : List ScopeEvent) (typed : List Occurrence)
    (log : List Diagnostic) : Prop where
  bound : typed = (env.uses events).flatMap fun t => t.1.occurrences.map t.2.bind
  reported : undeclared log = (env.uses events).flatMap fun t => t.1.occurrences.filterMap t.2.unresolved?

namespace Env.Follows

variable {env : Env} {events more : List ScopeEvent} {typed moreTyped : List Occurrence}
  {log moreLog : List Diagnostic}

theorem nil (hLog : undeclared log = []) : env.Follows [] [] log := ⟨rfl, hLog⟩

theorem append (h : env.Follows events typed log) (h' : (env.after events).Follows more moreTyped moreLog) :
    env.Follows (events ++ more) (typed ++ moreTyped) (log ++ moreLog) := by
  refine ⟨?_, ?_⟩
  · rw [h.bound, h'.bound, uses_append, flatMap_append]
  · rw [undeclared_append, h.reported, h'.reported, uses_append, flatMap_append]

/-- Checks behind an expression report no variables. -/
theorem checked (h : env.Follows events typed log) (hLog : Silent moreLog) :
    env.Follows events typed (log ++ moreLog) := by
  refine ⟨h.bound, ?_⟩
  rw [undeclared_append, hLog.2, append_nil, h.reported]

theorem uses (es : List Expr) (h : env.Binds (Expr.occurrencesOfAll es) typed log) :
    env.Follows (es.map .use) typed log := by
  have hUses : env.uses (es.map .use) = es.map (·, env) := by
    clear h
    induction es with
    | nil => rfl
    | cons e es ih => exact congrArg ((e, env) :: ·) ih
  refine ⟨?_, ?_⟩
  · rw [h.bound, hUses, Expr.occurrencesOfAll_eq, map_flatMap, flatMap_map]
  · rw [h.reported, hUses, Expr.occurrencesOfAll_eq, filterMap_flatMap, flatMap_map]

theorem use {e : Expr} (h : env.Binds e.occurrences typed log) : env.Follows [.use e] typed log :=
  uses [e] (by rwa [Expr.occurrencesOfAll, Expr.occurrencesOfAll, append_nil])

theorem declare (line : Nat) (type : TypeName) (names : List String) (hLog : undeclared log = []) :
    env.Follows (names.map (.declare line type)) [] log := by
  have hUses : env.uses (names.map (.declare line type)) = [] := by
    clear hLog
    induction names generalizing env with
    | nil => rfl
    | cons name names ih => exact ih
  exact ⟨by rw [hUses]; rfl, by rw [hUses]; exact hLog⟩

end Env.Follows

/-- Declaring names reports redeclarations, never names that are undeclared. -/
theorem Analysis.silent_declareNames (line : Nat) (ty : Ty) (names : List String) (env : Env) :
    undeclared (declareNames line ty names env).log = [] := by
  induction names generalizing env with
  | nil => rfl
  | cons name rest ih =>
    simp only [declareNames, log_bind, pure_apply, declareName_apply, undeclared_append]
    by_cases hTaken : env.isTaken name = true
    · simp only [hTaken, if_true, ih env]
      rfl
    · simp only [hTaken, Bool.false_eq_true, if_false, ih (env.allot name ty)]
      rfl

open Analysis

namespace Stmt

mutual

/-- Typing a statement binds the variables that are used along it. -/
theorem follows_analyze (inLoop first : Bool) : (s : Stmt) → (env : Env) →
    env.Follows s.events (occurrences (s.analyze inLoop first env).value.1.parts)
      (s.analyze inLoop first env).log
  | .expr line e, env => by
    simpa [analyze, parts, operands, events] using Env.Follows.use (e.binds_analyze env)
  | .declare line type names, env => by
    have hType := env.silent_resolveTypeName line type
    have hNames := silent_declareNames line (env.resolveTypeName line type).value names env
    refine Env.Follows.declare line type names ?_
    simp [analyze, hType.2, hNames]
  | .print line e, env => by
    have hInt := env.silent_expectInt line (e.analyze env).value .printExpectsInt fun _ => rfl
    have hUse := (Env.Follows.use (e.binds_analyze env)).checked hInt
    simpa [analyze, parts, operands, events] using hUse
  | .block line body, env => by
    simpa [analyze, parts, operands, events] using follows_analyzeAll inLoop body env
  | .branch line cond thenBranch elseBranch, env => by
    have hInt := env.silent_condition .branch (cond.analyze env).value
    have hCond := (Env.Follows.use (cond.binds_analyze env)).checked hInt
    have hThen := follows_analyze inLoop false thenBranch env
    have hElse := follows_analyzeElse inLoop elseBranch (thenBranch.analyze inLoop false env).value.2
    rw [analyze_after] at hElse
    have hBoth := hCond.append (hThen.append hElse)
    simpa [analyze, condition, parts, operands, events, analyze_after] using hBoth
  | .loop line cond s, env => by
    have hInt := env.silent_condition .loop (cond.analyze env).value
    have hCond := (Env.Follows.use (cond.binds_analyze env)).checked hInt
    have hBody := hCond.append (follows_analyze true false s env)
    simpa [analyze, condition, parts, operands, events] using hBody
  | .ret line value _, env => by
    have hBinds : env.Binds (Expr.occurrencesOfAll value.toList)
        (Expr.occurrencesOfAll (value.mapM (Expr.analyze env)).value.toList)
        (value.mapM (Expr.analyze env)).log := by
      cases value with
      | none => exact ⟨rfl, rfl, rfl⟩
      | some e => simpa using e.binds_analyze env
    have hStmt := env.dresses_analyzeReturn line (value.mapM (Expr.analyze env)).value none
    have hUses := (Env.Follows.uses value.toList hBinds).checked hStmt.silent
    have hOccurrences := hStmt.occurrences
    rw [operands] at hOccurrences
    rw [← hOccurrences] at hUses
    simpa [analyze, events] using hUses
  | .breakLoop line, env => by
    cases inLoop <;> exact .nil rfl
  | .continueLoop line, env => by
    cases inLoop <;> exact .nil rfl
  | .delete line target, env => by
    have hStmt := env.dresses_analyzeDelete line (target.analyze env).value
    have hUse := (Env.Follows.use (target.binds_analyze env)).checked hStmt.silent
    have hOne : Expr.occurrencesOfAll (delete line (target.analyze env).value).operands =
        (target.analyze env).value.occurrences := append_nil _
    rw [← hOne, ← hStmt.occurrences] at hUse
    simpa [analyze, events] using hUse
  | .construct line delegate args _, env => by
    have hStmt := env.dresses_analyzeConstruct line first delegate (Expr.analyzeArgs env args).value none
    have hUses := (Env.Follows.uses args (Expr.binds_analyzeArgs env args)).checked hStmt.silent
    have hOccurrences := hStmt.occurrences
    rw [operands] at hOccurrences
    rw [← hOccurrences] at hUses
    simpa [analyze, events] using hUses
  | .empty line, env => .nil rfl

theorem follows_analyzeElse (inLoop : Bool) : (s : Option Stmt) → (env : Env) →
    env.Follows (eventsOfElse s) (occurrences (partsOfElse (analyzeElse inLoop s env).value.1))
      (analyzeElse inLoop s env).log
  | none, _ => .nil rfl
  | some s, env => by
    simpa [analyzeElse, partsOfElse, eventsOfElse] using follows_analyze inLoop false s env

/-- Statements are followed one by one, so a use sees the declarations in front of it and none behind. -/
theorem follows_analyzeAll (inLoop : Bool) : (body : List Stmt) → (env : Env) →
    env.Follows (eventsOfAll body) (occurrences (partsOfAll (analyzeAll inLoop body env).value.1))
      (analyzeAll inLoop body env).log
  | [], _ => .nil rfl
  | s :: rest, env => by
    have hFirst := follows_analyze inLoop false s env
    have hRest := follows_analyzeAll inLoop rest (s.analyze inLoop false env).value.2
    rw [analyze_after] at hRest
    simpa [analyzeAll, partsOfAll, eventsOfAll, analyze_after] using hFirst.append hRest

end

/-- A body is followed likewise. The call of a constructor in front of it uses names as any other statement. -/
theorem follows_analyzeBody (isConstructor : Bool) (body : List Stmt) (env : Env) :
    env.Follows (eventsOfAll body) (occurrences (partsOfAll (analyzeBody isConstructor body env).value.1))
      (analyzeBody isConstructor body env).log := by
  cases body with
  | nil => exact .nil rfl
  | cons s rest =>
    have hFirst := follows_analyze false isConstructor s env
    have hRest := follows_analyzeAll false rest (s.analyze false isConstructor env).value.2
    rw [analyze_after] at hRest
    simpa [analyzeBody, partsOfAll, eventsOfAll, analyze_after] using hFirst.append hRest

end Stmt

/-- The variables used along some events, each with the events before its expression. -/
def ScopeEvent.sites (before : List ScopeEvent) : List ScopeEvent → List (List ScopeEvent × Occurrence)
  | [] => []
  | use e :: events => e.occurrences.map (before, ·) ++ sites (before ++ [use e]) events
  | declare line type name :: events => sites (before ++ [declare line type name]) events

/-- The variables of a body, each with the events before its expression. -/
def Stmt.sites (body : List Stmt) : List (List ScopeEvent × Occurrence) :=
  ScopeEvent.sites [] (eventsOfAll body)

/-- A variable is typed in the environment behind the events before its expression. -/
theorem Env.occurrences_uses (start : Env) (before events : List ScopeEvent) :
    (((start.after before).uses events).flatMap fun t => t.1.occurrences.map (t.2, ·)) =
      (ScopeEvent.sites before events).map fun t => (start.after t.1, t.2) := by
  induction events generalizing before with
  | nil => rfl
  | cons event events ih =>
    have hRest := ih (before ++ [event])
    rw [after_append, after_cons, after_nil] at hRest
    cases event with
    | use e =>
      rw [uses, ScopeEvent.sites, flatMap_cons, map_append, map_map, ← hRest]
      rfl
    | declare line type name => exact hRest

/-- Typing a body binds each variable to what its name stands for behind the events before it, and reports
those whose names stand for nothing. -/
theorem Stmt.sites_analyzeBody (isConstructor : Bool) (body : List Stmt) (start : Env) :
    occurrences (partsOfAll (analyzeBody isConstructor body start).value.1) =
        (sites body).map (fun t => (start.after t.1).bind t.2) ∧
      undeclared (analyzeBody isConstructor body start).log =
        (sites body).filterMap fun t => (start.after t.1).unresolved? t.2 := by
  have hFollows := follows_analyzeBody isConstructor body start
  have hSites := start.occurrences_uses [] (eventsOfAll body)
  rw [Env.after_nil] at hSites
  refine ⟨?_, ?_⟩
  · have hBound := congrArg (List.map fun t : Env × Occurrence => t.1.bind t.2) hSites
    rw [map_flatMap, map_map] at hBound
    simp only [map_map] at hBound
    exact hFollows.bound.trans hBound
  · have hReported := congrArg (List.filterMap fun t : Env × Occurrence => t.1.unresolved? t.2) hSites
    rw [filterMap_flatMap, filterMap_map] at hReported
    simp only [filterMap_map] at hReported
    exact hFollows.reported.trans hReported

end TLang
