import TLang.Proofs.Lookup
import TLang.Proofs.Traversal

/-! Expressions in error. The error type of an expression and the diagnostics found in it go together: a
node is in error if one of its operands is or if something is reported for the node itself. A node with an
operand in error is not reported for the types of its operands. -/
namespace TLang

open Registry List

variable {part e : Expr} {c : ClassId} {name : String} {ty : Ty}

theorem Env.Untainted.blames_analyzeVar {env : Env} (h : env.Untainted) (mark : Mark) (name : String)
    (storage : Option Storage) : Blames (Expr.var mark name storage).Faulty mark.line
      (env.analyzeVar mark.line name).value.ty (env.analyzeVar mark.line name).log := by
  have hClean : ¬ (Expr.var mark name storage).Faulty := by simp [Expr.Faulty, Expr.operands]
  rw [analyzeVar]
  split
  case h_1 ty storage hFound => exact .typed hClean (h.reads name ty storage hFound)
  case h_2 => exact .reported (fun hFaulty => absurd hFaulty hClean) rfl

namespace Expr

/-- All nodes of the expression can stand in a source. -/
def isPlain (e : Expr) : Bool := e.nodes.all isSourceNode

/-- How errors and diagnostics go together in an expression: it is in error if and only if something is
reported in it, what is reported in a part is reported in the whole, a part in error puts the whole in
error, and a node adds at most one diagnostic, which is not about the types of its operands if one of them
is in error. -/
structure Accounted (env : Env) (e : Expr) : Prop where
  error_iff : (e.analyze env).value.ty = .error ↔ (e.analyze env).log ≠ []
  kept : ∀ part, IsPart part e → (part.analyze env).log <:+: (e.analyze env).log
  spreads : ∀ part, IsPart part e → (part.analyze env).value.ty = .error → (e.analyze env).value.ty = .error
  added : ∀ node, IsPart node e → ∃ own,
    (node.analyze env).log = (node.inTypingOrder.flatMap fun o => (o.analyze env).log) ++ own ∧
      (own = [] ∨ ∃ fault : Fault, own = [⟨node.line, fault⟩] ∧
        ((∃ o ∈ node.operands, (o.analyze env).value.ty = .error) → fault.isEarly = true))

theorem nodes_subset_of_isPart (h : IsPart part e) : part.nodes ⊆ e.nodes := by
  induction h with
  | refl => exact List.Subset.refl _
  | step hOperand _ ih =>
    intro node hNode
    rw [nodes_eq]
    exact mem_cons_of_mem _ (mem_flatMap.mpr ⟨_, hOperand, ih hNode⟩)

theorem isPlain_of_isPart (h : IsPart part e) (hPlain : e.isPlain = true) : part.isPlain = true :=
  all_eq_true.mpr fun node hNode => all_eq_true.mp hPlain node (nodes_subset_of_isPart h hNode)

theorem isSourceNode_of_isPlain (hPlain : e.isPlain = true) : e.isSourceNode = true :=
  all_eq_true.mp hPlain e (mem_nodes_iff.mpr (.refl e))

variable {env : Env}

/-- Typing a node types its operands and then adds what it finds wrong with the node. -/
theorem blames_analyze (h : env.Untainted) (hNode : e.isSourceNode = true) :
    ∃ own, (e.analyze env).log = (e.inTypingOrder.flatMap fun o => (o.analyze env).log) ++ own ∧
      Blames (∃ o ∈ e.operands, (o.analyze env).value.ty = .error) e.line (e.analyze env).value.ty own := by
  have hBlames : Blames (e.withTyped env).Faulty e.line (e.analyze env).value.ty
      ((e.withTyped env).typeNode env).log := by
    rw [value_analyze]
    cases hVar : e.isVar with
    | false =>
      have hLine : (e.withTyped env).line = e.line := by cases e <;> rfl
      exact hLine ▸ (env.dresses_typeNode (by rw [withTyped, isVar_mapOperands, hVar])
        (by rw [withTyped, isSourceNode_mapOperands, hNode])).blames h
    | true =>
      cases e with
      | var mark name storage => exact h.blames_analyzeVar mark name storage
      | _ => cases hVar
  refine ⟨_, e.log_analyze env, ?_⟩
  simpa [Faulty, withTyped] using hBlames

/-- The log of a part is a segment of the log of the whole. -/
theorem log_part (h : env.Untainted) (hPart : IsPart part e) (hPlain : e.isPlain = true) :
    (part.analyze env).log <:+: (e.analyze env).log := by
  induction hPart with
  | refl => exact infix_rfl
  | @step operand node hOperand hPart ih =>
    obtain ⟨own, hLog, -⟩ := blames_analyze h (isSourceNode_of_isPlain hPlain)
    have hInner := ih (isPlain_of_isPart (.step hOperand (.refl _)) hPlain)
    have hSegment : (operand.analyze env).log <:+: node.inTypingOrder.flatMap fun o => (o.analyze env).log :=
      infix_of_mem_flatten (mem_map_of_mem (mem_inTypingOrder.mpr hOperand))
    rw [hLog]
    exact hInner.trans (hSegment.trans (prefix_append _ own).isInfix)

/-- An expression is in error exactly if something is reported in it. -/
theorem error_iff_log (h : env.Untainted) (e : Expr) (hPlain : e.isPlain = true) :
    (e.analyze env).value.ty = .error ↔ (e.analyze env).log ≠ [] := by
  obtain ⟨own, hLog, hBlames⟩ := blames_analyze h (isSourceNode_of_isPlain hPlain)
  have hOperands : (∃ o ∈ e.operands, (o.analyze env).value.ty = .error) ↔
      (e.inTypingOrder.flatMap fun o => (o.analyze env).log) ≠ [] := by
    simp only [ne_eq, flatMap_eq_nil_iff, not_forall, mem_inTypingOrder]
    constructor
    · rintro ⟨o, ho, hError⟩
      exact ⟨o, ho, (error_iff_log h o (isPlain_of_isPart (.step ho (.refl o)) hPlain)).mp hError⟩
    · rintro ⟨o, ho, hReported⟩
      exact ⟨o, ho, (error_iff_log h o (isPlain_of_isPart (.step ho (.refl o)) hPlain)).mpr hReported⟩
  rw [hBlames.error_iff, hOperands, hLog, ne_eq, ne_eq, ne_eq, append_eq_nil_iff, not_and_or]
termination_by sizeOf e
decreasing_by
  all_goals exact sizeOf_lt_of_mem_operands ho

theorem accounted (h : env.Untainted) (hPlain : e.isPlain = true) : e.Accounted env := by
  have hError := error_iff_log h e hPlain
  refine ⟨hError, fun part hPart => log_part h hPart hPlain, ?_, ?_⟩
  · intro part hPart hFaulty
    rw [hError]
    rw [error_iff_log h part (isPlain_of_isPart hPart hPlain)] at hFaulty
    exact fun hNil => hFaulty (infix_nil.mp (hNil ▸ log_part h hPart hPlain))
  · intro node hPart
    obtain ⟨own, hLog, hBlames⟩ :=
      blames_analyze h (isSourceNode_of_isPlain (isPlain_of_isPart hPart hPlain))
    exact ⟨own, hLog, hBlames.own⟩

end Expr

/-- No variable, parameter or field in sight, and no method that can be called, has the error type. -/
structure Env.ErrorFree (env : Env) : Prop where
  locals : ∀ method ∈ env.method?, .error ∉ method.locals.names.types
  params : ∀ method ∈ env.method?, .error ∉ method.params.types
  fields : ∀ info ∈ env.types.classes, .error ∉ info.fields.types
  globals : .error ∉ env.globals.names.types
  returns : ∀ info ∈ env.types.classes, ∀ m ∈ info.methods,
    (env.types.methodInfo m).returns ≠ some .error

instance (env : Env) : Decidable env.ErrorFree :=
  decidable_of_iff ((∀ method ∈ env.method?, .error ∉ method.locals.names.types) ∧
      (∀ method ∈ env.method?, .error ∉ method.params.types) ∧
      (∀ info ∈ env.types.classes, .error ∉ info.fields.types) ∧ .error ∉ env.globals.names.types ∧
      ∀ info ∈ env.types.classes, ∀ m ∈ info.methods, (env.types.methodInfo m).returns ≠ some .error)
    ⟨fun h => ⟨h.1, h.2.1, h.2.2.1, h.2.2.2.1, h.2.2.2.2⟩,
      fun h => ⟨h.locals, h.params, h.fields, h.globals, h.returns⟩⟩

/-- What holds of each class holds of what is found under any number. -/
theorem Registry.forall_classInfo {r : Registry} {P : ClassInfo → Prop} (h : ∀ info ∈ r.classes, P info)
    (hNone : P { name := "" }) (c : ClassId) : P (r.classInfo c) := by
  rw [classInfo]
  cases hInfo : r.classes[c.index]? with
  | none => exact hNone
  | some info => exact h info (mem_of_getElem? hInfo)

namespace Env.ErrorFree

variable {env : Env} (h : env.ErrorFree)

include h

/-- The type of a field is that of its nearest declaration. -/
theorem lookupField (hConsistent : env.types.Consistent) (hFound : env.types.lookupField c name = some ty) :
    ty ≠ .error := by
  have hc : c.index < env.types.classes.length := by
    by_contra hOut
    simp [Registry.lookupField, classInfo, List.getElem?_eq_none (Nat.le_of_not_lt hOut), Bindings.type?]
      at hFound
  rw [hConsistent.lookups c hc] at hFound
  obtain ⟨owner, -, hDeclared⟩ := nearestOn_of_fieldType hFound
  have hFields : .error ∉ (env.types.classInfo owner).fields.types :=
    Registry.forall_classInfo h.fields (by rintro ⟨⟩) owner
  rintro rfl
  exact hFields (Bindings.mem_types_of_type? hDeclared)

theorem resolveVariable (hConsistent : env.types.Consistent) (hKeeps : env.KeepsScope) {storage : Storage}
    (hFound : env.resolveVariable name = some (ty, storage)) : ty ≠ .error := by
  cases hScope : env.position.scope with
  | cls c =>
    rw [KeepsScope, hScope] at hKeeps
    exact hKeeps.elim
  | program =>
    rw [resolveVariable_of_program hScope] at hFound
    obtain ⟨ty', hType, hEq⟩ := Option.map_eq_some_iff.mp hFound
    cases hEq
    rintro rfl
    exact h.globals (Bindings.mem_types_of_type? hType)
  | method m =>
    have hMethod := method?_of_scope hScope
    rw [resolveVariable_of_method hScope, Option.or_eq_some_iff, Option.or_eq_some_iff] at hFound
    rcases hFound with (hLocal | ⟨-, hParam⟩) | ⟨-, hField⟩
    · simp only [MethodInfo.localVariable, Option.bind_eq_bind, Option.bind_eq_some_iff, Option.pure_def,
        Option.some.injEq, Prod.mk.injEq] at hLocal
      obtain ⟨slot, -, ty', hType, rfl, -⟩ := hLocal
      rintro rfl
      exact h.locals _ hMethod (Bindings.mem_types_of_type? hType)
    · simp only [MethodInfo.paramVariable, Option.bind_eq_bind, Option.bind_eq_some_iff, Option.pure_def,
        Option.some.injEq, Prod.mk.injEq] at hParam
      obtain ⟨index, -, ty', hType, rfl, -⟩ := hParam
      rintro rfl
      exact h.params _ hMethod (Bindings.mem_types_of_type? hType)
    · exact h.lookupField hConsistent ((fieldVariable_eq_some_iff hScope).mp hField).1

end Env.ErrorFree

namespace Program

variable {p : Program} {env : Env} {e : Expr}

/-- Each method that can be called has a type, be it the error type. -/
theorem exists_returns (hFresh : p.isFresh = true) {m : MethodId}
    (hm : m ∈ (p.outset.types.classInfo c).methods) (hKind : (p.outset.types.methodInfo m).kind = .method) :
    ∃ ty, (p.outset.types.methodInfo m).returns = some ty := by
  rcases (settles hFresh).ledger.sources hm with ⟨hRoot, hRecord⟩ | ⟨d, hd, routine, he, hRecord⟩
  · have hTyped : ∀ m ∈ (initial.classInfo object).methods, (initial.methodInfo m).kind = .method →
        (initial.methodInfo m).returns.isSome = true := by decide
    rw [hRecord] at hKind ⊢
    exact Option.isSome_iff_exists.mp (hTyped m hRoot hKind)
  · rw [hRecord] at hKind ⊢
    have hMethod : routine.kind = .method := hKind
    rw [Env.routineInfo, Analysis.resolveReturn.eq_def, hMethod]
    cases routine.returns with
    | none => exact ⟨_, rfl⟩
    | some name => exact ⟨_, rfl⟩

theorem Reaches.untainted (h : p.Reaches env) (hFresh : p.isFresh = true) (hTypes : env.ErrorFree) :
    env.Untainted := by
  obtain ⟨hKeeps, hInterface⟩ := h.interface hFresh
  have hConsistent : env.types.Consistent := hInterface.consistent
    (established_declareClasses fun d hd => resolved_of_isFresh hFresh hd).consistent
  refine ⟨fun name ty storage hFound => hTypes.resolveVariable hConsistent hKeeps hFound,
    fun c name ty hFound => hTypes.lookupField hConsistent hFound, ?_⟩
  rintro c name args ⟨m, exact⟩ hFound
  have hIndexed : env.types.Indexed := fun c => (hConsistent.tidy c).table
  obtain ⟨a, -, hm, hKind, -⟩ := hIndexed.resolveMethod_eq_some hFound
  have hReturns : (env.types.methodInfo m).returns ≠ some .error := by
    have hAll := Registry.forall_classInfo hTypes.returns (by rintro _ ⟨⟩) a
    exact hAll m hm
  rw [hInterface.classInfo] at hm
  rw [hInterface.kind] at hKind
  obtain ⟨ty, hTy⟩ := exists_returns hFresh hm hKind
  rw [hInterface.returns, hTy] at hReturns
  rw [hInterface.returns, hTy]
  exact fun hError => hReturns (congrArg some hError)

/-- Wherever bodies are typed and no type in sight is the error type, an expression is in error if and only if
something is reported in it. Where a declaration has failed this is left out: its name is in error wherever it
is used, and is not reported again. -/
theorem errors_accounted (hFresh : p.isFresh = true) (hReached : p.Reaches env) (hTypes : env.ErrorFree)
    (hPlain : e.isPlain = true) : e.Accounted env :=
  Expr.accounted (hReached.untainted hFresh hTypes) hPlain

/-- A class whose method declares a variable of the class. -/
def chained : Program where
  classes := [{ line := 1, name := "A", members := [
    .field { line := 2, type := .named "A", names := ["next"] },
    .field { line := 3, type := .int, names := ["size"] },
    .method { line := 4, name := "m", returns := some .int, params := [⟨4, .int, "k"⟩]
              body := [.declare 5 (.named "A") ["a"], .ret 6 (some (.int 6 1)) none] }] }]
  main := ⟨7, []⟩

/-- Behind the declaration of `a` in the method, `a.next.size + k` is typed, while `a.size + b` and
`this.m(a)` are each reported once and the product of the two is in error without a third report. -/
theorem errors_accounted_chained : let a : Expr := .var 6 "a" none
    let size : Expr → Expr := fun object => .field 6 object "size" none
    let sound : Expr := .binary 6 .add (size (.field 6 a "next" none)) (.var 6 "k" none)
    let faulty : Expr := .binary 6 .mul (.binary 6 .add (size a) (.var 6 "b" none))
      (.call 6 (.object (.this 6)) "m" [a] none none)
    chained.isFresh = true ∧ sound.isPlain = true ∧ faulty.isPlain = true ∧
      ∃ env, chained.Reaches env ∧ env.ErrorFree ∧ (sound.analyze env).value.ty = .int ∧
        (faulty.analyze env).log.length = 2 ∧ sound.Accounted env ∧ faulty.Accounted env := by
  intro a size sound faulty
  have hFresh : chained.isFresh = true := by decide
  have hSound : sound.isPlain = true := by decide
  have hFaulty : faulty.isPlain = true := by decide
  have hRun : ∃ s ∈ chained.methodStarts, (s.env.after ((Stmt.eventsOfAll s.decl.fullBody).take 1)).ErrorFree ∧
      (sound.analyze (s.env.after ((Stmt.eventsOfAll s.decl.fullBody).take 1))).value.ty = .int ∧
      (faulty.analyze (s.env.after ((Stmt.eventsOfAll s.decl.fullBody).take 1))).log.length = 2 := by
    decide +kernel
  obtain ⟨s, hs, hTypes, hTy, hLog⟩ := hRun
  have hReached : chained.Reaches (s.env.after ((Stmt.eventsOfAll s.decl.fullBody).take 1)) :=
    ⟨_, _, _, .method hs, take_prefix 1 _, rfl⟩
  exact ⟨hFresh, hSound, hFaulty, _, hReached, hTypes, hTy, hLog,
    errors_accounted hFresh hReached hTypes hSound, errors_accounted hFresh hReached hTypes hFaulty⟩

end Program
end TLang
