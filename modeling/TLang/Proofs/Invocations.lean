import TLang.Proofs.Soundness

/-! What invocations pass. A routine that was found by widening takes the arguments it is given. One
that was found by its signature takes them as well, unless the signature of the call is spelled like
one made of another name or of other types. -/
namespace TLang

open Registry

variable {m : MethodId} {types : List Ty} {args : List Expr}

namespace Registry

variable {r : Registry}

/-- The routine takes as many values as there are types, and each of them may stand for its
parameter. -/
def Takes (r : Registry) (m : MethodId) (types : List Ty) : Prop :=
  types.length = (r.methodInfo m).params.length ∧
    ∀ pair ∈ types.zip (r.methodInfo m).params.types, r.isAssignable pair.1 pair.2 = true

instance (r : Registry) (m : MethodId) (types : List Ty) : Decidable (r.Takes m types) :=
  inferInstanceAs (Decidable (types.length = (r.methodInfo m).params.length ∧
    ∀ pair ∈ types.zip (r.methodInfo m).params.types, r.isAssignable pair.1 pair.2 = true))

/-- The signature of the routine is spelled like that of a call by the name and with the types,
although it is made of another name or of other types. -/
def Confuses (r : Registry) (m : MethodId) (kind : MethodKind) (name : String)
    (types : List Ty) : Prop :=
  (r.methodInfo m).signature = r.signature name kind types ∧
    ((r.methodInfo m).name ≠ name ∨ (r.methodInfo m).params.types ≠ types)

theorem takes_params (h : (r.methodInfo m).params.types = types) : r.Takes m types := by
  subst h
  refine ⟨List.length_map _, fun pair hPair => ?_⟩
  rw [Bindings.types, List.zip_map'] at hPair
  obtain ⟨param, -, rfl⟩ := List.mem_map.mp hPair
  exact isAssignable_self r _

theorem takes_of_accepts {kind : MethodKind} {name : String} (h : r.accepts name kind types m = true) :
    r.Takes m types := by
  obtain ⟨-, -, hLength, hAll⟩ := accepts_iff.mp h
  exact ⟨hLength.symm, hAll⟩

end Registry

/-- The types of arguments before any of them was widened. -/
def Expr.writtenTypes (args : List Expr) : List Ty := args.map fun a => a.unwidened.ty

namespace Env

variable {names : String → Prop} {env : Env}

/-- A routine takes the arguments it is invoked with, or it was found by a signature that it shares
with a call of another name or other types. -/
theorem Resolves.takes_or_confuses (h : env.types.Settled names)
    (hResolves : env.Resolves names args m) :
    env.types.Takes m (Expr.writtenTypes args) ∨
      ∃ kind name, env.types.Confuses m kind name (Expr.writtenTypes args) := by
  obtain ⟨⟨c, kind, name, -, exact, hResolve, -⟩, -⟩ := hResolves
  obtain ⟨a, -, -, -, hFits⟩ := h.coherent.indexed.resolveMethod_eq_some hResolve
  cases exact with
  | false => exact .inl (takes_of_accepts hFits)
  | true =>
    by_cases hName : (env.types.methodInfo m).name = name
    · by_cases hParams : (env.types.methodInfo m).params.types = Expr.writtenTypes args
      · exact .inl (takes_params hParams)
      · exact .inr ⟨kind, name, hFits, .inr hParams⟩
    · exact .inr ⟨kind, name, hFits, .inl hName⟩

/-- No signature is taken for another one where all of them can be read back. -/
theorem Resolves.takes (h : env.types.Settled Unseparated)
    (hNames : ∀ name ∈ env.types.classes.map ClassInfo.name, ClassName name)
    (hResolves : env.Resolves Unseparated args m) :
    env.types.Takes m (Expr.writtenTypes args) := by
  obtain ⟨⟨c, kind, name, hCalled, exact, hResolve, -⟩, hValues⟩ := hResolves
  obtain ⟨a, ha, hMem, hKind, hFits⟩ := h.coherent.indexed.resolveMethod_eq_some hResolve
  cases exact with
  | false => exact takes_of_accepts hFits
  | true =>
    have hTypes : ∀ ty ∈ Expr.writtenTypes args, env.types.IsValue ty := by
      intro ty hTy
      obtain ⟨e, he, rfl⟩ := List.mem_map.mp hTy
      exact hValues e he
    exact takes_params (eq_of_signature h hNames hCalled ha hMem hKind hTypes hFits).2

end Env

namespace Program

/-- What the routines of a program are invoked with: every call, instantiation and hand-over to
another constructor for which a routine is recorded. -/
def invocations (p : Program) : List (List Expr × MethodId) :=
  p.statements.flatMap fun s =>
    s.invocation?.toList ++ (s.operands.flatMap Expr.nodes).filterMap Expr.invocation?

variable {names : String → Prop} {p : Program}

theorem resolves_of_mem_invocations {Γ : Env} (h : Stmt.AllBound names p.statements Γ)
    (hMem : (args, m) ∈ p.invocations) : Γ.Resolves names args m := by
  obtain ⟨s, hs, hMem⟩ := List.mem_flatMap.mp hMem
  rcases List.mem_append.mp hMem with hMem | hMem
  · exact (h s hs).2 args m (Option.mem_toList.mp hMem)
  · obtain ⟨e, he, hInvocation⟩ := List.mem_filterMap.mp hMem
    obtain ⟨root, hRoot, he⟩ := List.mem_flatMap.mp he
    exact (h s hs).1 root hRoot e args m (Expr.isPart_of_mem_nodes he) hInvocation

theorem resolves_of_quiet (hFresh : p.isFresh = true) (hEquals : names "equals") (hNames : p.MethodNames names)
    (hQuiet : Quiet p.diagnostics) (hMem : (args, m) ∈ p.analyzed.invocations) : p.env.Resolves names args m :=
  resolves_of_mem_invocations (analyzed_of_quiet hFresh hEquals hNames hQuiet).bound hMem

/-- Invocations in a program as it is read that analysis finds no terminal fault in, also where a
variable is not declared. Each passes as many arguments as its routine has parameters, of types that
may stand for theirs, or else the routine was found by a signature that is spelled like that of the
call and made of another name or of other types. The latter cannot be if the names of methods and
classes hold no separator and no class is named like a type of another kind. -/
theorem invocations_fit (p : Program) (hFresh : p.isFresh = true) (hQuiet : Quiet p.diagnostics) :
    (∀ args m, (args, m) ∈ p.analyzed.invocations → p.env.types.Takes m (Expr.writtenTypes args) ∨
        ∃ kind name, p.env.types.Confuses m kind name (Expr.writtenTypes args)) ∧
    (p.MethodNames Unseparated → (∀ d ∈ p.classes, ClassName d.name) →
      ∀ args m, (args, m) ∈ p.analyzed.invocations → p.env.types.Takes m (Expr.writtenTypes args)) := by
  constructor
  · intro args m hMem
    have hSettled := (analyzed_of_quiet hFresh trivial (.trivial p) hQuiet).wellFormed.settled
    exact (resolves_of_quiet hFresh trivial (.trivial p) hQuiet hMem).takes_or_confuses hSettled
  · intro hMethods hClasses args m hMem
    have hAnalyzed := analyzed_of_quiet hFresh (by decide) hMethods hQuiet
    refine (resolves_of_quiet hFresh (by decide) hMethods hQuiet hMem).takes
      hAnalyzed.wellFormed.settled ?_
    rw [hAnalyzed.classNames]
    intro name hName
    rcases List.mem_cons.mp hName with rfl | hName
    · decide
    · obtain ⟨d, hd, rfl⟩ := List.mem_map.mp hName
      exact hClasses d hd

/-- Invocations of all three kinds, some of them widened, beside a variable that is not declared. -/
def partlyDeclared : Program where
  classes := [
    { line := 1, name := "A", members := [
      .method { line := 2, kind := .constructor, name := "A", params := [⟨2, .named "A", "x"⟩] },
      .method {
        line := 3, name := "f", returns := some .int
        params := [⟨3, .named "A", "x"⟩]
        body := [.ret 4 (some (.int 4 1)) none] }] },
    { line := 6, name := "B", parent := some "A", members := [
      .method {
        line := 7, kind := .constructor, name := "B", params := [⟨7, .int, "n"⟩]
        body := [.construct 8 .super [.null 8] none] }] }]
  main := ⟨10, [
    .print 11 (.var 11 "y" none),
    .declare 12 (.named "A") ["a"],
    .print 13 (.call 13 (.object (.var 13 "a" none)) "f" [.new 13 "B" [.int 13 2] none none] none none)]⟩

theorem invocations_fit_partlyDeclared : partlyDeclared.isFresh = true ∧
    Quiet partlyDeclared.diagnostics ∧ partlyDeclared.MethodNames Unseparated ∧
    (∀ d ∈ partlyDeclared.classes, ClassName d.name) ∧
    partlyDeclared.analyzed.invocations.length = 4 ∧
    ∀ args m, (args, m) ∈ partlyDeclared.analyzed.invocations →
      partlyDeclared.env.types.Takes m (Expr.writtenTypes args) := by
  have hFresh : partlyDeclared.isFresh = true := by decide
  have hQuiet : Quiet partlyDeclared.diagnostics := by decide +kernel
  have hMethods : partlyDeclared.MethodNames Unseparated := ⟨by decide, by decide⟩
  have hClasses : ∀ d ∈ partlyDeclared.classes, ClassName d.name := by decide
  exact ⟨hFresh, hQuiet, hMethods, hClasses, by decide +kernel,
    (invocations_fit partlyDeclared hFresh hQuiet).2 hMethods hClasses⟩

/-- A method without parameters whose name looks like the signature of a call. -/
def mangled : Program where
  classes := [
    { line := 1, name := "A", members := [.method {
        line := 2, name := "f$int", returns := some .int
        body := [.ret 3 (some (.int 3 7)) none] }] }]
  main := ⟨5, [
    .print 6 (.call 6 (.object (.new 6 "A" [] none none)) "f" [.int 6 1] none none)]⟩

/-- A class that is named like the int type. -/
def disguised : Program where
  classes := [
    { line := 1, name := "int" },
    { line := 2, name := "A", members := [.method {
        line := 3, name := "f", returns := some .int
        params := [⟨3, .int, "n"⟩]
        body := [.ret 4 (some (.var 4 "n" none)) none] }] }]
  main := ⟨6, [
    .print 7 (.call 7 (.object (.new 7 "A" [] none none)) "f" [.new 7 "int" [] none none] none none)]⟩

/-- The types that invocations pass, and those of the parameters they pass them to. -/
def passed (p : Program) : List (List Ty × List Ty) :=
  p.analyzed.invocations.map fun i =>
    (Expr.writtenTypes i.1, (p.env.types.methodInfo i.2).params.types)

/-- By such names an argument is passed to a method without parameters, and an object to one that
expects an int, and nothing is reported. -/
theorem invocations_confused :
    (mangled.isFresh = true ∧ mangled.diagnostics = [] ∧ ([.int], []) ∈ mangled.passed) ∧
    (disguised.isFresh = true ∧ disguised.diagnostics = [] ∧
      ([.ofClass ⟨1⟩], [.int]) ∈ disguised.passed ∧
      disguised.env.types.isAssignable (.ofClass ⟨1⟩) .int = false) := by
  decide +kernel

end Program
end TLang
