import TLang.Proofs.Registry.Widening

/-! Overload resolution as it is specified. Where signatures can be read back, a routine is found by its
signature just if it has the name of the call and parameters of the types of the arguments, so that the
search in the tables of methods is one among declarations. A call that is resolved is resolved as well
from a subclass, and with arguments that may stand for those it has. -/
namespace TLang.Registry

variable {r : Registry}

/-- The routine is of the kind and the name, and its parameters are of exactly these types. -/
structure TakesExactly (r : Registry) (kind : MethodKind) (name : String) (args : List Ty)
    (m : MethodId) : Prop where
  kind : (r.methodInfo m).kind = kind
  name : (r.methodInfo m).name = name
  params : (r.methodInfo m).params.types = args

/-- The routine is of the kind and the name, and has one parameter for each argument, of a type that the
argument can be assigned to. -/
structure TakesWidened (r : Registry) (kind : MethodKind) (name : String) (args : List Ty)
    (m : MethodId) : Prop where
  kind : (r.methodInfo m).kind = kind
  name : (r.methodInfo m).name = name
  params : List.Forall₂ (fun arg param => r.isAssignable arg param = true) args
    (r.methodInfo m).params.types

/-- Some of the classes declares a routine with the property. -/
def DeclaredAmong (r : Registry) (places : List ClassId) (P : MethodId → Prop) : Prop :=
  ∃ a ∈ places, ∃ m ∈ (r.classInfo a).methods, P m

/-- The routine is the one with the property in the first of the classes that declares any. -/
def NearestAmong (r : Registry) (places : List ClassId) (P : MethodId → Prop) (m : MethodId) : Prop :=
  ∃ before a after, places = before ++ a :: after ∧ m ∈ (r.classInfo a).methods ∧ P m ∧
    (∀ m' ∈ (r.classInfo a).methods, P m' → m' = m) ∧ ¬ r.DeclaredAmong before P

/-- The routine is the first one with the property, class by class and in each class as they were
declared. -/
def FirstAmong (r : Registry) (places : List ClassId) (P : MethodId → Prop) (m : MethodId) : Prop :=
  ∃ before a after earlier later, places = before ++ a :: after ∧
    (r.classInfo a).methods = earlier ++ m :: later ∧ P m ∧ (∀ m' ∈ earlier, ¬ P m') ∧
    ¬ r.DeclaredAmong before P

theorem accepts_iff_takesWidened {name : String} {kind : MethodKind} {args : List Ty} {m : MethodId} :
    r.accepts name kind args m = true ↔ r.TakesWidened kind name args m := by
  rw [accepts_iff]
  constructor
  · rintro ⟨hKind, hName, hLength, hArgs⟩
    refine ⟨hKind, hName, List.forall₂_iff_zip.mpr ⟨?_, fun hPair => hArgs _ hPair⟩⟩
    rw [Bindings.types, List.length_map, hLength]
  · rintro ⟨hKind, hName, hParams⟩
    obtain ⟨hLength, hArgs⟩ := List.forall₂_iff_zip.mp hParams
    refine ⟨hKind, hName, ?_, fun _ hPair => hArgs hPair⟩
    rw [hLength, Bindings.types, List.length_map]

theorem TakesExactly.widened {kind : MethodKind} {name : String} {args : List Ty} {m : MethodId}
    (h : r.TakesExactly kind name args m) : r.TakesWidened kind name args m where
  kind := h.kind
  name := h.name
  params := h.params ▸ List.forall₂_same.mpr fun ty _ => isAssignable_self r ty

/-- Arguments that may stand for others are taken wherever these are. -/
theorem TakesWidened.of_assignable {kind : MethodKind} {name : String} {args args' : List Ty}
    {m : MethodId} (h : r.TakesWidened kind name args m)
    (hArgs : List.Forall₂ (fun arg' arg => r.isAssignable arg' arg = true) args' args) :
    r.TakesWidened kind name args' m := by
  obtain ⟨hKind, hName, hParams⟩ := h
  refine ⟨hKind, hName, ?_⟩
  generalize (r.methodInfo m).params.types = params at hParams
  induction hArgs generalizing params with
  | nil => exact hParams
  | cons hFirst _ ih =>
    cases hParams with
    | cons hFirst' hRest => exact .cons (isAssignable_trans hFirst hFirst') (ih _ hRest)

/-- What can be assigned to a value is one. -/
theorem Lineal.isValue_of_assignable (h : r.Lineal) {ty ty' : Ty} (hTy : r.IsValue ty)
    (hAssignable : r.isAssignable ty' ty = true) : r.IsValue ty' := by
  rcases isAssignable_iff.mp hAssignable with rfl | ⟨rfl, -⟩ | ⟨c, d, rfl, rfl, hSub⟩
  · exact hTy
  · exact .inl rfl
  · rcases hTy.cases with hTy | hTy | ⟨d', hTy, hd⟩
    · cases hTy
    · cases hTy
    · cases hTy
      exact .inr (h.acyclic.lt_of_mem_chain (isSubclass_iff.mp hSub) hd)

/-- All signatures can be read back. -/
structure Legible (r : Registry) : Prop where
  lineal : r.Lineal
  coherent : r.Coherent Unseparated
  classes : ∀ name ∈ r.classes.map ClassInfo.name, ClassName name

namespace Legible

theorem plainlyNamed (h : r.Legible) : r.PlainlyNamed where
  lineal := h.lineal
  coherent := h.coherent
  classes := by
    intro c hc
    obtain ⟨hPlain, hFree⟩ := className_classInfo h.classes hc
    refine ⟨hPlain, ?_⟩
    rintro hInt
    exact hFree (hInt ▸ by decide)

variable {a c : ClassId} {name : String} {kind : MethodKind} {args : List Ty} {m : MethodId}

section Call

variable (h : r.Legible) (hKind : kind ≠ .destructor) (hName : Unseparated name)
  (hArgs : ∀ ty ∈ args, r.IsValue ty)

include h hKind hName hArgs

/-- A class declares a routine under the signature of a call just if the routine is as the call wants
it. -/
theorem declaredAs_eq_some_iff : r.declaredAs a kind (r.signature name kind args) = some m ↔
    m ∈ (r.classInfo a).methods ∧ r.TakesExactly kind name args m := by
  constructor
  · intro hDeclared
    obtain ⟨hMem, hMethod, hSignature⟩ := h.coherent.indexed.declaredAs_eq_some hDeclared
    have hRoutine := (h.coherent a).routine m hMem
    have hName' := h.plainlyNamed.unseparated_name hMem (hMethod ▸ hKind)
    rw [hRoutine.signature, hMethod] at hSignature
    obtain ⟨hNames, hTypes⟩ := signature_inj h.lineal h.classes hName' hName hKind
      (fun ty hTy => .inr (hRoutine.params ty hTy)) hArgs hSignature
    exact ⟨hMem, hMethod, hNames, hTypes⟩
  · rintro ⟨hMem, hTakes⟩
    have hSignature : r.signature name kind args = (r.methodInfo m).signature := by
      rw [((h.coherent a).routine m hMem).signature, hTakes.kind, hTakes.name, hTakes.params]
    rw [hSignature]
    exact PlainlyNamed.declaredAs_self h.coherent hMem hTakes.kind

theorem declaredAs_eq_none_iff : r.declaredAs a kind (r.signature name kind args) = none ↔
    ∀ m ∈ (r.classInfo a).methods, ¬ r.TakesExactly kind name args m := by
  rw [Option.eq_none_iff_forall_ne_some]
  simp only [ne_eq, h.declaredAs_eq_some_iff hKind hName hArgs, not_and]

/-- The search by signature finds the routine with exactly these parameters in the nearest class. -/
theorem findSome?_declaredAs {places : List ClassId} :
    (places.findSome? fun a => r.declaredAs a kind (r.signature name kind args)) = some m ↔
      r.NearestAmong places (r.TakesExactly kind name args) m := by
  rw [List.findSome?_eq_some_iff]
  constructor
  · rintro ⟨before, a, after, hPlaces, hHere, hBefore⟩
    obtain ⟨hMem, hTakes⟩ := (h.declaredAs_eq_some_iff hKind hName hArgs).mp hHere
    refine ⟨before, a, after, hPlaces, hMem, hTakes, fun m' hm' hTakes' => ?_, ?_⟩
    · have hThere := (h.declaredAs_eq_some_iff hKind hName hArgs).mpr ⟨hm', hTakes'⟩
      exact Option.some.inj (hThere.symm.trans hHere)
    · rintro ⟨b, hb, m', hm', hTakes'⟩
      exact (h.declaredAs_eq_none_iff hKind hName hArgs).mp (hBefore b hb) m' hm' hTakes'
  · rintro ⟨before, a, after, hPlaces, hMem, hTakes, -, hBefore⟩
    refine ⟨before, a, after, hPlaces,
      (h.declaredAs_eq_some_iff hKind hName hArgs).mpr ⟨hMem, hTakes⟩, fun b hb => ?_⟩
    exact (h.declaredAs_eq_none_iff hKind hName hArgs).mpr fun m' hm' hTakes' =>
      hBefore ⟨b, hb, m', hm', hTakes'⟩

theorem findSome?_declaredAs_eq_none {places : List ClassId} :
    (places.findSome? fun a => r.declaredAs a kind (r.signature name kind args)) = none ↔
      ¬ r.DeclaredAmong places (r.TakesExactly kind name args) := by
  simp only [List.findSome?_eq_none_iff, h.declaredAs_eq_none_iff hKind hName hArgs, DeclaredAmong,
    not_exists, not_and]

end Call

end Legible

section Accepting

variable {places : List ClassId} {name : String} {kind : MethodKind} {args : List Ty} {m : MethodId}

theorem find?_accepts_eq_none {a : ClassId} :
    (r.classInfo a).methods.find? (r.accepts name kind args) = none ↔
      ∀ m ∈ (r.classInfo a).methods, ¬ r.TakesWidened kind name args m := by
  simp only [List.find?_eq_none, accepts_iff_takesWidened]

theorem findSome?_accepts_eq_none :
    (places.findSome? fun a => (r.classInfo a).methods.find? (r.accepts name kind args)) = none ↔
      ¬ r.DeclaredAmong places (r.TakesWidened kind name args) := by
  simp only [List.findSome?_eq_none_iff, find?_accepts_eq_none, DeclaredAmong, not_exists, not_and]

/-- The search by parameters finds the first routine that accepts the arguments. -/
theorem findSome?_accepts :
    (places.findSome? fun a => (r.classInfo a).methods.find? (r.accepts name kind args)) = some m ↔
      r.FirstAmong places (r.TakesWidened kind name args) m := by
  rw [List.findSome?_eq_some_iff]
  constructor
  · rintro ⟨before, a, after, hPlaces, hHere, hBefore⟩
    obtain ⟨hAccepts, earlier, later, hMethods, hEarlier⟩ := List.find?_eq_some_iff_append.mp hHere
    refine ⟨before, a, after, earlier, later, hPlaces, hMethods, accepts_iff_takesWidened.mp hAccepts,
      fun m' hm' hTakes => ?_, ?_⟩
    · have hNot := hEarlier m' hm'
      rw [accepts_iff_takesWidened.mpr hTakes] at hNot
      cases hNot
    · rintro ⟨b, hb, m', hm', hTakes⟩
      exact find?_accepts_eq_none.mp (hBefore b hb) m' hm' hTakes
  · rintro ⟨before, a, after, earlier, later, hPlaces, hMethods, hTakes, hEarlier, hBefore⟩
    refine ⟨before, a, after, hPlaces, List.find?_eq_some_iff_append.mpr
      ⟨accepts_iff_takesWidened.mpr hTakes, earlier, later, hMethods, fun m' hm' => ?_⟩, fun b hb => ?_⟩
    · rw [Bool.not_eq_true', Bool.eq_false_iff, ne_eq, accepts_iff_takesWidened]
      exact hEarlier m' hm'
    · exact find?_accepts_eq_none.mpr fun m' hm' hTakes => hBefore ⟨b, hb, m', hm', hTakes⟩

end Accepting

/-- What a call is resolved to, in terms of declarations. -/
structure ResolvesAsDeclared (r : Registry) (c : ClassId) (kind : MethodKind) (name : String)
    (args : List Ty) : Prop where
  exact : ∀ m, r.resolveMethod c name kind args = some ⟨m, true⟩ ↔
    r.NearestAmong (r.candidates c kind) (r.TakesExactly kind name args) m
  widened : ∀ m, r.resolveMethod c name kind args = some ⟨m, false⟩ ↔
    ¬ r.DeclaredAmong (r.candidates c kind) (r.TakesExactly kind name args) ∧
      r.FirstAmong (r.candidates c kind) (r.TakesWidened kind name args) m
  none : r.resolveMethod c name kind args = none ↔
    ¬ r.DeclaredAmong (r.candidates c kind) (r.TakesExactly kind name args) ∧
      ¬ r.DeclaredAmong (r.candidates c kind) (r.TakesWidened kind name args)

variable {name : String} {kind : MethodKind} {args : List Ty}

/-- The two searches are those among declarations. -/
theorem Legible.resolvesAsDeclared (h : r.Legible) (hKind : kind ≠ .destructor)
    (hName : Unseparated name) (hArgs : ∀ ty ∈ args, r.IsValue ty) (c : ClassId) :
    r.ResolvesAsDeclared c kind name args := by
  cases hSearch : (r.candidates c kind).findSome? fun a =>
      r.declaredAs a kind (r.signature name kind args) with
  | some m =>
    have hNearest := (h.findSome?_declaredAs hKind hName hArgs).mp hSearch
    have hDeclared : r.DeclaredAmong (r.candidates c kind) (r.TakesExactly kind name args) := by
      by_contra hNot
      rw [← h.findSome?_declaredAs_eq_none hKind hName hArgs, hSearch] at hNot
      cases hNot
    have hResolve : r.resolveMethod c name kind args = some ⟨m, true⟩ := by
      simp only [resolveMethod, hSearch]
    refine ⟨fun m' => ?_, fun m' => ?_, ?_⟩
    · rw [← h.findSome?_declaredAs hKind hName hArgs, hSearch, hResolve]
      simp
    · simp [hResolve, hDeclared]
    · simp [hResolve, hDeclared]
  | none =>
    have hNone := (h.findSome?_declaredAs_eq_none hKind hName hArgs).mp hSearch
    have hResolve : r.resolveMethod c name kind args = ((r.candidates c kind).findSome? fun a =>
        (r.classInfo a).methods.find? (r.accepts name kind args)).map fun m => ⟨m, false⟩ := by
      simp only [resolveMethod, hSearch]
    refine ⟨fun m' => ?_, fun m' => ?_, ?_⟩
    · rw [← h.findSome?_declaredAs hKind hName hArgs, hSearch, hResolve, Option.map_eq_some_iff]
      simp
    · rw [hResolve, ← findSome?_accepts, Option.map_eq_some_iff]
      simp [hNone]
    · rw [hResolve, Option.map_eq_none_iff, findSome?_accepts_eq_none]
      simp [hNone]

/-- A call is resolved just if some routine takes its arguments. -/
theorem ResolvesAsDeclared.isSome_iff {c : ClassId} (h : r.ResolvesAsDeclared c kind name args) :
    (r.resolveMethod c name kind args).isSome = true ↔
      r.DeclaredAmong (r.candidates c kind) (r.TakesWidened kind name args) := by
  rw [← Option.ne_none_iff_isSome, ne_eq, h.none]
  constructor
  · intro hFound
    by_contra hNot
    refine hFound ⟨fun ⟨a, ha, m, hm, hTakes⟩ => hNot ⟨a, ha, m, hm, hTakes.widened⟩, hNot⟩
  · exact fun hFound hNot => hNot.2 hFound

/-- What an ancestor declares is declared for its subclasses. -/
theorem DeclaredAmong.of_isSubclass {c d : ClassId} {P : MethodId → Prop}
    (h : r.DeclaredAmong (r.chain c) P) (hSub : r.isSubclass d c = true) :
    r.DeclaredAmong (r.chain d) P := by
  obtain ⟨a, ha, hDeclares⟩ := h
  exact ⟨a, isSubclass_iff.mp (isSubclass_trans hSub (isSubclass_iff.mpr ha)), hDeclares⟩

theorem DeclaredAmong.of_assignable {places : List ClassId} {args' : List Ty}
    (h : r.DeclaredAmong places (r.TakesWidened kind name args))
    (hArgs : List.Forall₂ (fun arg' arg => r.isAssignable arg' arg = true) args' args) :
    r.DeclaredAmong places (r.TakesWidened kind name args') := by
  obtain ⟨a, ha, m, hm, hTakes⟩ := h
  exact ⟨a, ha, m, hm, hTakes.of_assignable hArgs⟩

end TLang.Registry
