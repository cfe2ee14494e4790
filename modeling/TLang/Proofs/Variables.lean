import TLang.Proofs.Outcome

/-! The variables of the main block. What analysis records of them are the names that the analyzed
tree declares, in order and each of them once: a declaration of a name that is taken is dropped from
the tree, and no body of a class declares a variable of the main block. -/
namespace TLang

open Analysis

/-- What every step of a pass keeps is kept by the pass. -/
theorem Analysis.invariant_mapM {α β : Type} {f : α → Analysis β} {invariant : Env → Prop}
    (hStep : ∀ a env, invariant env → invariant (f a env).value.2) (as : List α) {env : Env}
    (h : invariant env) : invariant ((as.mapM f) env).value.2 := by
  induction as generalizing env with
  | nil => exact h
  | cons a as ih =>
    rw [List.mapM_cons]
    exact ih (hStep a env h)

/-- The environment is inside a class or not, as `cls` says, and these are the variables of the main
block. -/
def Env.Holds (globals : List String) (cls : Option ClassId) (env : Env) : Prop :=
  env.globals.names.names = globals ∧ env.position.inClass = cls

variable {globals : List String} {env : Env}

theorem Member.holds_analyzeBody {c : ClassId} (member : Member) (h : env.Holds globals (some c)) :
    (member.analyzeBody env).value.2.Holds globals (some c) := by
  cases member with
  | field d => exact h
  | method d =>
    cases hResolved : d.resolved with
    | none => simpa [analyzeBody, MethodDecl.analyzeBody, hResolved] using h
    | some m =>
      have hBody := Stmt.allots_analyzeBody (d.kind = .constructor) d.fullBody
        (env.updatePosition (·.enterMethod m))
      have hGlobals := hBody.globals (by
        simp [Env.updatePosition, Position.enterMethod, Position.scope, h.2])
      simp only [analyzeBody, MethodDecl.analyzeBody, hResolved, value_bind, modify_apply, pure_apply]
      refine ⟨(congrArg (·.names.names) hGlobals).trans h.1, ?_⟩
      have hPosition := congrArg Position.inClass hBody.position
      exact hPosition.trans h.2

theorem ClassDecl.holds_analyzeBodies (d : ClassDecl) (h : env.Holds globals none) :
    (d.analyzeBodies env).value.2.Holds globals none := by
  cases hResolved : d.resolved with
  | none => simpa [analyzeBodies, hResolved] using h
  | some c =>
    have hEnter : (env.updatePosition (·.enterClass c)).Holds globals (some c) := ⟨h.1, rfl⟩
    have hMembers := invariant_mapM (fun member _ => member.holds_analyzeBody) d.members hEnter
    simp only [analyzeBodies, hResolved, value_bind, modify_apply, pure_apply]
    exact ⟨hMembers.1, rfl⟩

namespace Program

/-- Typing the bodies of a program records the variables that its main block declares. -/
theorem globals_analyzeBodies (p : Program) (h : env.Holds [] none) :
    (p.analyzeBodies env).value.2.globals.names.names =
        Stmt.declaredIn (p.analyzeBodies env).value.1.main.body ∧
      (p.analyzeBodies env).value.2.globals.names.names.Nodup := by
  have hClasses := invariant_mapM (fun d _ => d.holds_analyzeBodies) p.classes h
  generalize hEnv : (p.classes.mapM ClassDecl.analyzeBodies env).value.2 = env₁ at hClasses
  have hBody := Stmt.allots_analyzeBody false p.main.body (env₁.updatePosition (·.enterMain))
  have hScope : (env₁.updatePosition (·.enterMain)).position.scope = .program := by
    simp [Env.updatePosition, Position.enterMain, Position.scope, hClasses.2]
  have hKeeps : (env₁.updatePosition (·.enterMain)).KeepsScope := by
    rw [Env.KeepsScope, hScope]
    trivial
  have hTable : ∀ e : Env, e.position.scope = .program → e.scopeTable = e.globals := by
    intro e he
    rw [Env.scopeTable, he]
  have hStart : (env₁.updatePosition (·.enterMain)).globals.names.names = [] := hClasses.1
  have hEnd := hTable _ ((congrArg Position.scope hBody.position).trans hScope)
  have hNames := hBody.scope_names hKeeps
  have hNodup := hBody.nodup hKeeps
  rw [hTable _ hScope, hEnd, hStart] at hNames hNodup
  simp only [analyzeBodies, MainBlock.analyze, value_bind, modify_apply, pure_apply, hEnv]
  exact ⟨hNames, hNodup List.nodup_nil⟩

/-- The variables recorded of the main block are those that the analyzed tree declares there. -/
theorem globals_analyzed {p : Program} (hFresh : p.isFresh = true) (hQuiet : Quiet p.diagnostics) :
    p.env.globals.names.names = Stmt.declaredIn p.analyzed.main.body ∧
      p.env.globals.names.names.Nodup := by
  have hYields : Yields p.analyze {} fun _ p' env =>
      env.globals.names.names = Stmt.declaredIn p'.main.body ∧ env.globals.names.names.Nodup := by
    refine Yields.bind (ensures_declareClasses hFresh trivial (.trivial p)) ?_
    rintro log ds env ⟨-, hDeclared⟩ -
    apply globals_analyzeBodies
    exact ⟨by rw [hDeclared.globals]; rfl, by rw [hDeclared.position]⟩
  exact hYields hQuiet

end Program
end TLang
