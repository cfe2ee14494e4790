import TLang.Analysis.Stmt
import TLang.Proofs.Registry.Interface
import TLang.Proofs.Renumbering.Trees

/-! Registries that differ in numbers only. Whatever is looked up in two such registries is the same up
to the numbers: lines of inheritance, assignability, overload resolution, the places of fields, and
dispatch slots. Messages and signatures name types, so they are the same in both. -/
namespace TLang.Registry

open List

/-- The second registry has the classes of the first under other numbers, with the same names and the
same parents. What the classes declare is not looked at. -/
structure RenumberedOutline (ρ : Renumbering) (r r' : Registry) : Prop where
  faithful : ρ.Faithful
  size : r'.classes.length = r.classes.length
  lookup : ∀ name, r'.lookupClass name = (r.lookupClass name).map ρ.cls
  name : ∀ c, (r'.classInfo (ρ.cls c)).name = (r.classInfo c).name
  parent : ∀ c, r'.parent (ρ.cls c) = (r.parent c).map ρ.cls

variable {ρ : Renumbering} {r r' : Registry}

namespace RenumberedOutline

section Lookup

variable (h : RenumberedOutline ρ r r')

include h

theorem mem_map_iff {c : ClassId} {cs : List ClassId} : ρ.cls c ∈ cs.map ρ.cls ↔ c ∈ cs := by
  refine ⟨?_, mem_map_of_mem⟩
  intro hMem
  obtain ⟨c', hc', hEq⟩ := mem_map.mp hMem
  exact h.faithful.cls hEq ▸ hc'

/-- Walks up the parents correspond step by step, also on a cycle. -/
theorem climb (steps : Nat) (seen : List ClassId) (current : ClassId) :
    r'.climb steps (seen.map ρ.cls) (ρ.cls current) = (r.climb steps seen current).map ρ.cls := by
  induction steps generalizing seen current with
  | zero => rfl
  | succ steps ih =>
    rw [Registry.climb, Registry.climb, h.parent]
    cases r.parent current with
    | none => rfl
    | some p =>
      simp only [Option.map_some, h.mem_map_iff]
      split
      · rfl
      · rw [← ih, map_append, map_singleton]

theorem chain (c : ClassId) : r'.chain (ρ.cls c) = (r.chain c).map ρ.cls := by
  rw [Registry.chain, Registry.chain, h.size, ← h.climb, map_singleton]

theorem isSubclass (c a : ClassId) : r'.isSubclass (ρ.cls c) (ρ.cls a) = r.isSubclass c a := by
  rw [Registry.isSubclass, Registry.isSubclass, h.chain, decide_eq_decide]
  exact h.mem_map_iff

theorem related (a b : ClassId) : r'.related (ρ.cls a) (ρ.cls b) = (r.related a b).map ρ.cls := by
  rw [Registry.related, Registry.related, h.isSubclass, h.isSubclass]
  split
  · rfl
  · split <;> rfl

/-- A type fits another under the new numbers exactly if it did under the old ones. -/
theorem isAssignable (source target : Ty) :
    r'.isAssignable (source.renumber ρ) (target.renumber ρ) = r.isAssignable source target := by
  have hSame : (source.renumber ρ == target.renumber ρ) = (source == target) := by
    rw [Bool.eq_iff_iff, beq_iff_eq, beq_iff_eq, Ty.renumber_inj h.faithful]
  unfold Registry.isAssignable
  rw [hSame]
  cases source with
  | ofClass sub =>
    cases target with
    | ofClass super => exact congrArg _ (h.isSubclass sub super)
    | int | null | untyped | error | address | ofMethod _ => rfl
  | null => cases target <;> rfl
  | int | untyped | error | address | ofMethod _ => rfl

/-- Types are called the same, those of methods apart. -/
theorem typeName {ty : Ty} (hTy : ∀ m, ty ≠ .ofMethod m) :
    r'.typeName (ty.renumber ρ) = r.typeName ty := by
  cases ty with
  | ofClass c => exact h.name c
  | ofMethod m => exact absurd rfl (hTy m)
  | int | null | untyped | error | address => rfl

theorem signature (name : String) (kind : MethodKind) {params : List Ty}
    (hParams : ∀ ty ∈ params, ∀ m, ty ≠ .ofMethod m) :
    r'.signature name kind (params.map (Ty.renumber ρ)) = r.signature name kind params := by
  refine signature_congr ?_ name kind
  rw [map_map]
  exact map_congr_left fun ty hTy => h.typeName (hParams ty hTy)

end Lookup

/-- Written types denote the same. -/
theorem resolveTypeName {env env' : Env} (h : RenumberedOutline ρ env.types env'.types) (line : Nat)
    (type : TypeName) :
    env'.resolveTypeName line type = Ty.renumber ρ <$> env.resolveTypeName line type := by
  cases type with
  | int => rfl
  | named name =>
    simp only [Env.resolveTypeName, h.lookup]
    cases env.types.lookupClass name <;> rfl

end RenumberedOutline

/-- The second registry is the first one under other numbers, apart from the variables of
bodies. -/
structure Renumbered (ρ : Renumbering) (r r' : Registry) : Prop where
  faithful : ρ.Faithful
  size : r'.classes.length = r.classes.length
  lookup : ∀ name, r'.lookupClass name = (r.lookupClass name).map ρ.cls
  classInfo : ∀ c, r'.classInfo (ρ.cls c) = (r.classInfo c).renumber ρ
  heading : ∀ m, (r'.methodInfo (ρ.method m)).heading = (r.methodInfo m).heading.renumber ρ

namespace Renumbered

/-- Registries that differ in the variables of bodies only. -/
theorem of_interface (h : SameInterface r r') : Renumbered .same r r' where
  faithful := ⟨id, id, rfl⟩
  size := by rw [h.classes]
  lookup := by simp [lookupClass, h.byName]
  classInfo := by simp [h.classInfo]
  heading := by simp [h.headings]

variable (h : Renumbered ρ r r')

include h

theorem outline : RenumberedOutline ρ r r' where
  faithful := h.faithful
  size := h.size
  lookup := h.lookup
  name := fun c => by rw [h.classInfo, ClassInfo.renumber]
  parent := fun c => by rw [Registry.parent, h.classInfo, ClassInfo.renumber, Registry.parent]

/-- What does not look at the variables of a routine follows the numbers. -/
theorem congr {α : Type} (g : MethodInfo → α) (hg : ∀ m, g m.heading = g m) (m : MethodId) :
    g (r'.methodInfo (ρ.method m)) = g ((r.methodInfo m).renumber ρ) := by
  rw [← hg, h.heading, ← hg ((r.methodInfo m).renumber ρ)]
  rfl

variable (m : MethodId)

theorem owner : (r'.methodInfo (ρ.method m)).owner = ρ.cls (r.methodInfo m).owner :=
  h.congr MethodInfo.owner (fun _ => rfl) m

theorem kind : (r'.methodInfo (ρ.method m)).kind = (r.methodInfo m).kind :=
  h.congr MethodInfo.kind (fun _ => rfl) m

theorem name : (r'.methodInfo (ρ.method m)).name = (r.methodInfo m).name :=
  h.congr MethodInfo.name (fun _ => rfl) m

theorem params : (r'.methodInfo (ρ.method m)).params = (r.methodInfo m).params.renumber ρ :=
  h.congr MethodInfo.params (fun _ => rfl) m

theorem returns : (r'.methodInfo (ρ.method m)).returns = (r.methodInfo m).returns.map (Ty.renumber ρ) :=
  h.congr MethodInfo.returns (fun _ => rfl) m

theorem routineSignature : (r'.methodInfo (ρ.method m)).signature = (r.methodInfo m).signature :=
  h.congr MethodInfo.signature (fun _ => rfl) m

theorem label : (r'.methodInfo (ρ.method m)).label = (r.methodInfo m).label :=
  h.congr MethodInfo.label (fun _ => rfl) m

theorem isVirtual : (r'.methodInfo (ρ.method m)).isVirtual = (r.methodInfo m).isVirtual := by
  rw [MethodInfo.isVirtual, h.kind, MethodInfo.isVirtual]

theorem typeName (ty : Ty) : r'.typeName (ty.renumber ρ) = r.typeName ty := by
  cases ty with
  | ofMethod m => exact h.routineSignature m
  | ofClass _ | int | null | untyped | error | address => exact h.outline.typeName (by simp)

variable (c : ClassId)

theorem typeName_ofClass : r'.typeName (.ofClass (ρ.cls c)) = r.typeName (.ofClass c) :=
  h.typeName (.ofClass c)

theorem typeName_ofMethod : r'.typeName (.ofMethod (ρ.method m)) = r.typeName (.ofMethod m) :=
  h.typeName (.ofMethod m)

variable (name : String) (kind : MethodKind)

theorem signature (params : List Ty) :
    r'.signature name kind (params.map (Ty.renumber ρ)) = r.signature name kind params := by
  simp only [Registry.signature, foldl_map, h.typeName]

theorem lookupField : r'.lookupField (ρ.cls c) name = (r.lookupField c name).map (Ty.renumber ρ) := by
  rw [Registry.lookupField, h.classInfo]
  exact Bindings.type?_renumber ρ _ name

theorem inheritedFields : r'.inheritedFields (ρ.cls c) = (r.inheritedFields c).renumber ρ := by
  have hRoot : ∀ c, ρ.cls c = object ↔ c = object := by
    intro c
    refine ⟨fun hc => h.faithful.cls (hc.trans h.faithful.root.symm), ?_⟩
    rintro rfl
    exact h.faithful.root
  simp only [Registry.inheritedFields, ancestors, h.outline.chain, ← map_tail,
    takeWhile_map, flatMap_map, Function.comp_def, h.classInfo, ClassInfo.renumber,
    Bindings.renumber, map_flatMap, ne_eq, hRoot]

theorem fieldOwner : r'.fieldOwner (ρ.cls c) name = (r.fieldOwner c name).map ρ.cls := by
  simp only [Registry.fieldOwner, h.outline.chain, List.find?_map, Function.comp_def, h.classInfo,
    ClassInfo.renumber, Bindings.declares_renumber]

theorem fieldLayout :
    r'.fieldLayout (ρ.cls c) = (r.fieldLayout c).map fun entry => (ρ.cls entry.1, entry.2) := by
  simp only [Registry.fieldLayout, h.outline.chain, ← map_reverse, flatMap_map,
    h.classInfo, ClassInfo.renumber, Bindings.names_renumber, map_flatMap, map_map,
    Function.comp_def]

/-- Fields are stored at the same places. -/
theorem fieldOffset : r'.fieldOffset (ρ.cls c) name = r.fieldOffset c name := by
  have hEntry : ∀ (entry : ClassId × String) (owner : ClassId),
      ((ρ.cls entry.1, entry.2) == (ρ.cls owner, name)) = (entry == (owner, name)) := by
    rintro ⟨c, n⟩ owner
    rw [Bool.eq_iff_iff, beq_iff_eq, beq_iff_eq, Prod.mk.injEq, Prod.mk.injEq]
    exact and_congr_left' ⟨h.faithful.cls, congrArg ρ.cls⟩
  rw [Registry.fieldOffset, Registry.fieldOffset, h.fieldOwner]
  cases r.fieldOwner c name with
  | none => rfl
  | some owner =>
    simp only [Option.map_some, Option.bind_eq_bind, Option.bind_some, h.fieldLayout,
      List.findIdx?_map, Function.comp_def, hEntry]

theorem slotOf (slots : List MethodId) (signature : String) :
    r'.slotOf (slots.map ρ.method) signature = r.slotOf slots signature := by
  simp only [Registry.slotOf, List.findIdx?_map, Function.comp_def, h.routineSignature]

theorem vmtSlot (signature : String) : r'.vmtSlot (ρ.cls c) signature = r.vmtSlot c signature := by
  rw [Registry.vmtSlot, h.classInfo]
  exact h.slotOf _ signature

theorem candidates : r'.candidates (ρ.cls c) kind = (r.candidates c kind).map ρ.cls := by
  cases kind with
  | method => exact h.outline.chain c
  | constructor | destructor => rfl

/-- The same method is found under a signature, since signatures are made of names and not of numbers. -/
theorem declaredAs (signature : String) :
    r'.declaredAs (ρ.cls c) kind signature = (r.declaredAs c kind signature).map ρ.method := by
  rw [Registry.declaredAs, Registry.declaredAs, h.classInfo]
  have hType : (((r.classInfo c).renumber ρ).members.methods).type? signature =
      ((r.classInfo c).members.methods.type? signature).map (Ty.renumber ρ) :=
    Bindings.type?_renumber ρ _ signature
  rw [hType]
  rcases (r.classInfo c).members.methods.type? signature with _ | ty
  · rfl
  · cases ty with
    | ofMethod m =>
      simp only [Option.map_some, Ty.renumber, h.kind]
      split <;> rfl
    | ofClass _ | int | null | untyped | error | address => rfl

theorem accepts (args : List Ty) (m : MethodId) :
    r'.accepts name kind (args.map (Ty.renumber ρ)) (ρ.method m) = r.accepts name kind args m := by
  simp only [Registry.accepts, h.kind, h.name, h.params, Bindings.length_renumber, length_map,
    Bindings.types_renumber, zip_map, all_map, Function.comp_def, Prod.map_fst,
    Prod.map_snd, h.outline.isAssignable]

/-- Calls are resolved to the same methods. -/
theorem resolveMethod (args : List Ty) :
    r'.resolveMethod (ρ.cls c) name kind (args.map (Ty.renumber ρ)) =
      (r.resolveMethod c name kind args).map (Resolution.renumber ρ) := by
  have hExact : ((r'.candidates (ρ.cls c) kind).findSome? fun c => r'.declaredAs c kind
        (r'.signature name kind (args.map (Ty.renumber ρ)))) =
      ((r.candidates c kind).findSome? fun c =>
        r.declaredAs c kind (r.signature name kind args)).map ρ.method := by
    simp only [h.candidates, List.findSome?_map, Function.comp_def, h.declaredAs, h.signature,
      map_findSome?]
  have hWidened : ((r'.candidates (ρ.cls c) kind).findSome? fun c =>
        (r'.classInfo c).methods.find? (r'.accepts name kind (args.map (Ty.renumber ρ)))) =
      ((r.candidates c kind).findSome? fun c =>
        (r.classInfo c).methods.find? (r.accepts name kind args)).map ρ.method := by
    simp only [h.candidates, List.findSome?_map, Function.comp_def, h.classInfo, ClassInfo.renumber,
      List.find?_map, h.accepts, map_findSome?]
  simp only [Registry.resolveMethod, hExact, hWidened]
  cases (r.candidates c kind).findSome? fun c =>
      r.declaredAs c kind (r.signature name kind args) with
  | some m => rfl
  | none =>
    simp only [Option.map_none, Option.map_map, Function.comp_def]
    rfl

theorem override (slots : List MethodId) (m : MethodId) :
    r'.override (slots.map ρ.method) (ρ.method m) = (r.override slots m).map ρ.method := by
  rw [Registry.override, Registry.override, h.routineSignature, h.slotOf]
  cases r.slotOf slots (r.methodInfo m).signature with
  | none => simp
  | some slot => simp

/-- Dispatch tables hold the same methods in the same slots. -/
theorem dispatchTable : r'.dispatchTable (ρ.cls c) = (r.dispatchTable c).map ρ.method := by
  have hFold : ∀ ms slots : List MethodId, (ms.map ρ.method).foldl r'.override (slots.map ρ.method) =
        (ms.foldl r.override slots).map ρ.method := by
    intro ms
    induction ms with
    | nil => exact fun _ => rfl
    | cons m ms ih =>
      intro slots
      rw [map_cons, foldl_cons, foldl_cons, h.override, ih]
  have hVirtual : r'.virtualMethods (ρ.cls c) = (r.virtualMethods c).map ρ.method := by
    simp only [virtualMethods, h.outline.chain, ← map_reverse, flatMap_map, h.classInfo,
      ClassInfo.renumber, filter_map, Function.comp_def, h.isVirtual, map_flatMap]
  rw [Registry.dispatchTable, Registry.dispatchTable, hVirtual, ← hFold, map_nil]

end Renumbered
end TLang.Registry
