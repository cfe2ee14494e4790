import TLang.Proofs.Consistency
import TLang.Proofs.Decoration
import TLang.Proofs.Registry.Resolution

/-! Overloading in whole programs. If nothing terminal is reported and the names that a program declares
can be read off signatures, then every call is resolved as the declarations say: to the routine with
exactly the parameters in the nearest class, and else to the first routine that the arguments can be
widened for. -/
namespace TLang

open Registry

theorem Registry.Legible.of_interface {r r' : Registry} (h : r.Legible) (hInterface : SameInterface r r') :
    r'.Legible where
  lineal := h.lineal.of_outline hInterface.outline
  coherent := hInterface.coherent h.coherent
  classes := hInterface.classes ▸ h.classes

/-- Completing a class adds no plain method. -/
theorem ClassDecl.Completes.exists_methodName {d d' : ClassDecl} (h : d.Completes d') {e : MethodDecl}
    (he : .method e ∈ d'.members) (hKind : e.kind = .method) :
    ∃ member ∈ d.members, e.name ∈ Program.methodName? member := by
  rcases h.exists_source he with ⟨e₀, he₀, hErase⟩ | hAdded
  · have hKind₀ : e₀.kind = .method := (congrArg MethodDecl.kind hErase :).trans hKind
    refine ⟨_, he₀, ?_⟩
    rw [Program.methodName?, if_pos hKind₀, Option.mem_some]
    exact (congrArg MethodDecl.name hErase :)
  · have hMade : e.kind = .constructor ∨ e.kind = .destructor := by
      rcases List.mem_pair.mp hAdded with hEq | hEq
      · exact .inl (congrArg MethodDecl.kind (Member.method.inj hEq) :)
      · exact .inr (congrArg MethodDecl.kind (Member.method.inj hEq) :)
    rw [hKind] at hMade
    rcases hMade with hMade | hMade <;> cases hMade

namespace Program

/-- The names of the classes and of the plain methods that a program declares can be read off
signatures. -/
structure PlainlyNamed (p : Program) : Prop where
  classes : ∀ d ∈ p.classes, ClassName d.name
  methods : ∀ d ∈ p.classes, ∀ member ∈ d.members, ∀ name ∈ methodName? member, Unseparated name

variable {p : Program}

/-- The plain methods in the registry are those of the program, and the one of the root. -/
theorem unseparated_methodInfo (hFresh : p.isFresh = true) (hNames : p.PlainlyNamed) {c : ClassId}
    {m : MethodId} (hm : m ∈ (p.outset.types.classInfo c).methods)
    (hKind : (p.outset.types.methodInfo m).kind = .method) :
    Unseparated (p.outset.types.methodInfo m).name := by
  rcases (settles hFresh).ledger.sources hm with ⟨hRoot, hRecord⟩ | ⟨d, hd, e, he, hRecord⟩
  · have hPlain : ∀ m ∈ (initial.classInfo object).methods, (initial.methodInfo m).kind = .method →
        Unseparated (initial.methodInfo m).name := by decide
    rw [hRecord] at hKind ⊢
    exact hPlain m hRoot hKind
  · rw [hRecord] at hKind ⊢
    obtain ⟨d₀, hd₀, hCompletes⟩ := exists_completes hd
    obtain ⟨member, hDeclared, hName⟩ := hCompletes.exists_methodName he hKind
    exact hNames.methods d₀ hd₀ member hDeclared e.name hName

/-- Signatures of a program with plain names can be read back once its classes are declared. -/
theorem legible_outset (hFresh : p.isFresh = true) (hQuiet : Quiet (declareClasses p.classes {}).log)
    (hNames : p.PlainlyNamed) : p.outset.types.Legible := by
  have hDeclared : Declared (fun _ => True) p.classes p.settledClasses p.outset :=
    declared_of_quiet hFresh hQuiet
  refine ⟨hDeclared.settled.lineal, ?_, ?_⟩
  · intro c
    exact { hDeclared.settled.coherent c with
      named := fun _ hm => unseparated_methodInfo hFresh hNames hm }
  · rw [hDeclared.classNames]
    intro name hName
    rcases List.mem_cons.mp hName with rfl | hName
    · decide
    · obtain ⟨d, hd, rfl⟩ := List.mem_map.mp hName
      exact hNames.classes d hd

/-- Typing bodies changes no signature. -/
theorem legible_of_quiet (hFresh : p.isFresh = true) (hQuiet : Quiet p.diagnostics)
    (hNames : p.PlainlyNamed) : p.env.types.Legible := by
  have hDeclare : Quiet (declareClasses p.classes {}).log := (Quiet.append_iff.mp hQuiet).1
  exact (legible_outset hFresh hDeclare hNames).of_interface (sameInterface_env hFresh)

/-- Overload resolution is as the declarations say, for every call that can be written with names of
which signatures can be read back. A call that is resolved is resolved as well from a subclass, if it is
one of a method, and with arguments that can be assigned to the ones it has. -/
theorem calls_resolved_as_declared (p : Program) (hFresh : p.isFresh = true)
    (hQuiet : Quiet p.diagnostics) (hNames : p.PlainlyNamed) (c : ClassId) (kind : MethodKind)
    (hKind : kind ≠ .destructor) (name : String) (hName : Unseparated name) (args : List Ty)
    (hArgs : ∀ ty ∈ args, p.env.types.IsValue ty) :
    p.env.types.ResolvesAsDeclared c kind name args ∧
      ((p.env.types.resolveMethod c name kind args).isSome = true →
        (∀ d, kind = .method → p.env.types.isSubclass d c = true →
          (p.env.types.resolveMethod d name kind args).isSome = true) ∧
        ∀ args', List.Forall₂ (fun arg' arg => p.env.types.isAssignable arg' arg = true) args' args →
          (p.env.types.resolveMethod c name kind args').isSome = true) := by
  have hLegible := legible_of_quiet hFresh hQuiet hNames
  have hResolves := hLegible.resolvesAsDeclared hKind hName hArgs
  refine ⟨hResolves c, fun hSome => ⟨?_, ?_⟩⟩
  · rintro d rfl hSub
    have hDeclared := (hResolves c).isSome_iff.mp hSome
    exact (hResolves d).isSome_iff.mpr (hDeclared.of_isSubclass hSub)
  · intro args' hAssignable
    have hArgs' : ∀ ty ∈ args', p.env.types.IsValue ty := by
      intro ty hTy
      obtain ⟨i, hi, rfl⟩ := List.getElem_of_mem hTy
      have hi' : i < args.length := hAssignable.length_eq ▸ hi
      exact hLegible.lineal.isValue_of_assignable (hArgs _ (List.getElem_mem hi')) (hAssignable.get hi hi')
    have hDeclared := (hResolves c).isSome_iff.mp hSome
    exact (hLegible.resolvesAsDeclared hKind hName hArgs' c).isSome_iff.mpr
      (hDeclared.of_assignable hAssignable)

/-- A class and its parent take each other, so that the nearer routine is not always the one that is
called. -/
def crossing : Program where
  classes := [
    { line := 1, name := "A", members := [.method {
        line := 2, name := "f", returns := some .int, params := [⟨2, .named "B", "b"⟩]
        body := [.ret 3 (some (.int 3 1)) none] }] },
    { line := 5, name := "B", parent := some "A", members := [.method {
        line := 6, name := "f", returns := some .int, params := [⟨6, .named "A", "a"⟩]
        body := [.ret 7 (some (.int 7 2)) none] }] },
    { line := 9, name := "C", parent := some "B" }]
  main := ⟨10, []⟩

theorem calls_resolved_as_declared_crossing : crossing.isFresh = true ∧ Quiet crossing.diagnostics ∧
    crossing.PlainlyNamed ∧ crossing.env.types.candidates ⟨2⟩ .method = [⟨2⟩, ⟨1⟩, object] ∧
    crossing.env.types.NearestAmong [⟨2⟩, ⟨1⟩, object]
      (crossing.env.types.TakesExactly .method "f" [.ofClass ⟨2⟩]) ⟨3⟩ ∧
    crossing.env.types.FirstAmong [⟨2⟩, ⟨1⟩, object]
      (crossing.env.types.TakesWidened .method "f" [.null]) ⟨4⟩ ∧
    ¬ crossing.env.types.DeclaredAmong [⟨2⟩, ⟨1⟩, object]
      (crossing.env.types.TakesWidened .method "f" [.int]) ∧
    (crossing.env.types.resolveMethod ⟨3⟩ "f" .method [.ofClass ⟨2⟩]).isSome = true ∧
    (crossing.env.types.resolveMethod ⟨2⟩ "f" .method [.ofClass ⟨3⟩]).isSome = true := by
  have hFresh : crossing.isFresh = true := by decide
  have hQuiet : Quiet crossing.diagnostics := by decide +kernel
  have hNames : crossing.PlainlyNamed := ⟨by decide, by decide⟩
  have hCandidates : crossing.env.types.candidates ⟨2⟩ .method = [⟨2⟩, ⟨1⟩, object] := by decide +kernel
  have hB : crossing.env.types.IsValue (.ofClass ⟨2⟩) := by
    have hLt : 2 < crossing.env.types.classes.length := by decide +kernel
    exact .inr hLt
  have hExact : crossing.env.types.resolveMethod ⟨2⟩ "f" .method [.ofClass ⟨2⟩] = some ⟨⟨3⟩, true⟩ := by
    decide +kernel
  obtain ⟨hOwn, hMore⟩ := calls_resolved_as_declared crossing hFresh hQuiet hNames ⟨2⟩ .method (by decide)
    "f" (by decide) [.ofClass ⟨2⟩] (by simpa using hB)
  obtain ⟨hNull, -⟩ := calls_resolved_as_declared crossing hFresh hQuiet hNames ⟨2⟩ .method (by decide)
    "f" (by decide) [.null] (by simp [IsValue])
  obtain ⟨hInt, -⟩ := calls_resolved_as_declared crossing hFresh hQuiet hNames ⟨2⟩ .method (by decide)
    "f" (by decide) [.int] (by simp [IsValue, IsStored])
  obtain ⟨hSubclass, hArgs⟩ := hMore (by rw [hExact]; rfl)
  refine ⟨hFresh, hQuiet, hNames, hCandidates, ?_, ?_, ?_, ?_, ?_⟩
  · exact hCandidates ▸ (hOwn.exact ⟨3⟩).mp hExact
  · exact hCandidates ▸ ((hNull.widened ⟨4⟩).mp (by decide +kernel)).2
  · exact hCandidates ▸ (hInt.none.mp (by decide +kernel)).2
  · exact hSubclass ⟨3⟩ rfl (by decide +kernel)
  · exact hArgs [.ofClass ⟨3⟩] (.cons (by decide +kernel) .nil)

end Program
end TLang
