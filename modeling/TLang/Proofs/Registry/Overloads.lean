import TLang.Proofs.Registry.Contents

/-! Overload resolution. A routine that is found is declared by the class in question or, if it is a
plain method, by a class on its line. -/
namespace TLang.Registry

variable {names : String → Prop} {r : Registry}

theorem accepts_iff {name : String} {kind : MethodKind} {args : List Ty} {m : MethodId} :
    r.accepts name kind args m = true ↔ (r.methodInfo m).kind = kind ∧ (r.methodInfo m).name = name ∧
        (r.methodInfo m).params.length = args.length ∧
        ∀ pair ∈ args.zip (r.methodInfo m).params.types, r.isAssignable pair.1 pair.2 = true := by
  simp [accepts, and_assoc]

/-- The table of each class lists its routines under their signatures. -/
def Indexed (r : Registry) : Prop := ∀ c, (r.classInfo c).members.methods =
  (r.classInfo c).methods.map fun m => ((r.methodInfo m).signature, .ofMethod m)

theorem Coherent.indexed (h : r.Coherent names) : r.Indexed := fun c => (h c).table

/-- A method that is found under a signature is one of the class itself. Ancestors are not searched here. -/
theorem Indexed.declaredAs_eq_some (h : r.Indexed) {c : ClassId} {kind : MethodKind}
    {signature : String} {m : MethodId} (hFound : r.declaredAs c kind signature = some m) :
    m ∈ (r.classInfo c).methods ∧ (r.methodInfo m).kind = kind ∧
      (r.methodInfo m).signature = signature := by
  rw [declaredAs, h c] at hFound
  split at hFound
  case h_1 m' hType =>
    split at hFound
    case isTrue hKind =>
      cases hFound
      obtain ⟨entry, hEntry, hTy⟩ := Option.map_eq_some_iff.mp hType
      have hName := List.find?_some hEntry
      obtain ⟨m'', hMem, rfl⟩ := List.mem_map.mp (List.mem_of_find?_eq_some hEntry)
      cases hTy
      exact ⟨hMem, hKind, by simpa using hName⟩
    case isFalse => cases hFound
  case h_2 => cases hFound

/-- How the routine that was found fits the call. -/
def Fits (r : Registry) (name : String) (kind : MethodKind) (args : List Ty) (m : MethodId)
    (exact : Bool) : Prop :=
  if exact then (r.methodInfo m).signature = r.signature name kind args
  else r.accepts name kind args m = true

/-- A call is resolved to a method of a candidate class, found by its signature or by what it accepts. -/
theorem Indexed.resolveMethod_eq_some (h : r.Indexed) {c : ClassId} {name : String}
    {kind : MethodKind} {args : List Ty} {m : MethodId} {exact : Bool}
    (hFound : r.resolveMethod c name kind args = some ⟨m, exact⟩) :
    ∃ a ∈ r.candidates c kind, m ∈ (r.classInfo a).methods ∧ (r.methodInfo m).kind = kind ∧
      r.Fits name kind args m exact := by
  simp only [resolveMethod] at hFound
  split at hFound
  case h_1 m' hDeclared =>
    cases hFound
    obtain ⟨a, ha, hDeclared⟩ := List.exists_of_findSome?_eq_some hDeclared
    obtain ⟨hMem, hKind, hSignature⟩ := h.declaredAs_eq_some hDeclared
    exact ⟨a, ha, hMem, hKind, hSignature⟩
  case h_2 =>
    obtain ⟨m', hAccepts, hEq⟩ := Option.map_eq_some_iff.mp hFound
    cases hEq
    obtain ⟨a, ha, hAccepts⟩ := List.exists_of_findSome?_eq_some hAccepts
    have hm := List.find?_some hAccepts
    exact ⟨a, ha, List.mem_of_find?_eq_some hAccepts, (accepts_iff.mp hm).1, hm⟩

end TLang.Registry
