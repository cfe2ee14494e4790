import TLang.Proofs.Registry.Overloads
import TLang.Proofs.Registry.Signatures

/-! Overload resolution on widened arguments. A routine that was found because it accepts the arguments
is found again, now by its signature, once the arguments are widened to the types of its parameters. -/
namespace TLang.Registry

variable {r : Registry}

/-- Names by which a class can be told from the other type that can be declared, and from several parts
of a signature. -/
def DeclarableName (name : String) : Prop := Unseparated name ∧ name ≠ "int"

instance (name : String) : Decidable (DeclarableName name) :=
  inferInstanceAs (Decidable (Unseparated name ∧ name ≠ "int"))

/-- All that is declared can be told apart by its name. -/
structure PlainlyNamed (r : Registry) : Prop where
  lineal : r.Lineal
  coherent : r.Coherent Unseparated
  classes : ∀ c, c.index < r.classes.length → DeclarableName (r.classInfo c).name

namespace PlainlyNamed

section Names

variable (h : r.PlainlyNamed)

include h

theorem unseparated_typeName {ty : Ty} (hTy : r.IsStored ty) : Unseparated (r.typeName ty) := by
  cases ty with
  | int =>
    show Unseparated "int"
    decide
  | ofClass c => exact (h.classes c hTy).1
  | null | untyped | error | address | ofMethod _ => exact hTy.elim

/-- A type that can be declared is known by its name. -/
theorem typeName_inj {ty ty' : Ty} (hTy : r.IsStored ty) (hTy' : r.IsStored ty')
    (hName : r.typeName ty = r.typeName ty') : ty = ty' := by
  cases ty with
  | int =>
    cases ty' with
    | int => rfl
    | ofClass c => exact absurd hName.symm (h.classes c hTy').2
    | null | untyped | error | address | ofMethod _ => exact hTy'.elim
  | ofClass c =>
    cases ty' with
    | int => exact absurd hName (h.classes c hTy).2
    | ofClass c' => rw [h.lineal.found.eq_of_name hTy hTy' hName]
    | null | untyped | error | address | ofMethod _ => exact hTy'.elim
  | null | untyped | error | address | ofMethod _ => exact hTy.elim

variable {a b : ClassId} {m m' : MethodId}

theorem unseparated_name (hm : m ∈ (r.classInfo a).methods)
    (hKind : (r.methodInfo m).kind ≠ .destructor) : Unseparated (r.methodInfo m).name := by
  cases hMethod : (r.methodInfo m).kind with
  | method => exact (h.coherent a).named m hm hMethod
  | constructor =>
    rw [((h.coherent a).routine m hm).named hMethod]
    by_cases ha : a.index < r.classes.length
    · exact (h.classes a ha).1
    · rw [classInfo, List.getElem?_eq_none (Nat.le_of_not_lt ha)]
      show Unseparated ""
      decide
  | destructor => exact absurd hMethod hKind

/-- Routines of one signature accept the same. -/
theorem accepts_of_signature (hm : m ∈ (r.classInfo a).methods) (hm' : m' ∈ (r.classInfo b).methods)
    {kind : MethodKind} (hKind : kind ≠ .destructor) (hSame : (r.methodInfo m').kind = kind)
    (hSignature : (r.methodInfo m').signature = (r.methodInfo m).signature) {name : String}
    {args : List Ty} (hAccepts : r.accepts name kind args m = true) :
    r.accepts name kind args m' = true := by
  obtain ⟨hMethod, hName, hLength, hArgs⟩ := accepts_iff.mp hAccepts
  have hRoutine := (h.coherent a).routine m hm
  have hRoutine' := (h.coherent b).routine m' hm'
  rw [hRoutine.signature, hRoutine'.signature, hMethod, hSame] at hSignature
  obtain ⟨hNames, hTypes⟩ := signature_inj_of_types (h.unseparated_name hm' (hSame ▸ hKind))
    (h.unseparated_name hm (hMethod ▸ hKind)) hKind
    (fun _ hTy => h.unseparated_typeName (hRoutine'.params _ hTy))
    (fun _ hTy => h.unseparated_typeName (hRoutine.params _ hTy))
    (fun _ hTy _ hTy' => h.typeName_inj (hRoutine'.params _ hTy) (hRoutine.params _ hTy')) hSignature
  have hCount : (r.methodInfo m').params.length = (r.methodInfo m).params.length := by
    have hEq := congrArg List.length hTypes
    simpa [Bindings.types] using hEq
  exact accepts_iff.mpr ⟨hSame, hNames.trans hName, hCount.trans hLength, hTypes ▸ hArgs⟩

end Names

/-- A class declares a routine of its own under its signature. -/
theorem declaredAs_self (h : r.Coherent Unseparated) {a : ClassId} {m : MethodId}
    (hm : m ∈ (r.classInfo a).methods) {kind : MethodKind} (hKind : (r.methodInfo m).kind = kind) :
    r.declaredAs a kind (r.methodInfo m).signature = some m := by
  have hType : (r.classInfo a).members.methods.type? (r.methodInfo m).signature = some (.ofMethod m) := by
    have hSome : ((r.classInfo a).methods.find? fun m' =>
        (r.methodInfo m').signature == (r.methodInfo m).signature).isSome = true :=
      List.find?_isSome.mpr ⟨m, hm, beq_self_eq_true _⟩
    obtain ⟨m', hm'⟩ := Option.isSome_iff_exists.mp hSome
    have hSignature := List.find?_some hm'
    have hSame : m' = m := List.inj_on_of_nodup_map (h a).distinct (List.mem_of_find?_eq_some hm') hm
      (by simpa using hSignature)
    rw [(h a).table, Bindings.type?, List.find?_map, Function.comp_def, hm', hSame]
    rfl
  simp only [declaredAs, hType, hKind, if_true]

/-- Once the arguments are widened, their types are the signature of the routine. -/
theorem resolveMethod_widened (h : r.PlainlyNamed) {c : ClassId} {name : String} {kind : MethodKind}
    (hKind : kind ≠ .destructor) {args : List Ty} {m : MethodId}
    (hFound : r.resolveMethod c name kind args = some ⟨m, false⟩) :
    r.resolveMethod c name kind (r.methodInfo m).params.types = some ⟨m, true⟩ ∧
      (r.methodInfo m).params.length = args.length ∧
      ∀ ty ∈ (r.methodInfo m).params.types, r.IsStored ty := by
  have hSearch : ((r.candidates c kind).findSome? fun a =>
      (r.classInfo a).methods.find? (r.accepts name kind args)) = some m := by
    simp only [resolveMethod] at hFound
    split at hFound
    · cases hFound
    · obtain ⟨m', hFound, hEq⟩ := Option.map_eq_some_iff.mp hFound
      cases hEq
      exact hFound
  obtain ⟨before, a, after, hCandidates, hHere, hBefore⟩ := List.findSome?_eq_some_iff.mp hSearch
  have hm := List.mem_of_find?_eq_some hHere
  have hAccepts := List.find?_some hHere
  obtain ⟨hMethod, hName, hLength, -⟩ := accepts_iff.mp hAccepts
  have hRoutine := (h.coherent a).routine m hm
  have hSignature : r.signature name kind (r.methodInfo m).params.types = (r.methodInfo m).signature := by
    rw [hRoutine.signature, hMethod, hName]
  -- A nearer class that declares the signature would have accepted the arguments as they were.
  have hNearer : ∀ b ∈ before, r.declaredAs b kind (r.methodInfo m).signature = none := by
    intro b hb
    by_contra hSome
    obtain ⟨m', hm'⟩ := Option.ne_none_iff_exists'.mp hSome
    obtain ⟨hMem, hSame, hEq⟩ := h.coherent.indexed.declaredAs_eq_some hm'
    exact List.find?_eq_none.mp (hBefore b hb) m' hMem
      (h.accepts_of_signature hm hMem hKind hSame hEq hAccepts)
  have hExact : ((r.candidates c kind).findSome? fun a =>
      r.declaredAs a kind (r.methodInfo m).signature) = some m :=
    List.findSome?_eq_some_iff.mpr
      ⟨before, a, after, hCandidates, declaredAs_self h.coherent hm hMethod, hNearer⟩
  refine ⟨?_, hLength, hRoutine.params⟩
  simp only [resolveMethod, hSignature, hExact]

end PlainlyNamed
end TLang.Registry
