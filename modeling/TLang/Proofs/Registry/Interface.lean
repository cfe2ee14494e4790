import TLang.Proofs.Registry.Tables

/-! Typing a body records its variables and nothing else. Everything that other bodies can see of a
registry stays as it is, and so does all that was settled before. -/
namespace TLang

/-- A routine without the variables of its body. -/
def MethodInfo.heading (m : MethodInfo) : MethodInfo := { m with locals := {} }

namespace Registry

variable {names : String → Prop} {r r' : Registry}

/-- The two registries differ at most in the variables of bodies. -/
structure SameInterface (r r' : Registry) : Prop where
  classes : r'.classes = r.classes
  byName : r'.byName = r.byName
  length : r'.methods.length = r.methods.length
  headings : ∀ m, (r'.methodInfo m).heading = (r.methodInfo m).heading

namespace SameInterface

theorem refl (r : Registry) : SameInterface r r := ⟨rfl, rfl, rfl, fun _ => rfl⟩

variable (h : SameInterface r r')
include h

theorem symm : SameInterface r' r :=
  ⟨h.classes.symm, h.byName.symm, h.length.symm, fun m => (h.headings m).symm⟩

theorem trans {r'' : Registry} (h' : SameInterface r' r'') : SameInterface r r'' :=
  ⟨h'.classes.trans h.classes, h'.byName.trans h.byName, h'.length.trans h.length,
    fun m => (h'.headings m).trans (h.headings m)⟩

/-- What does not look at the variables of a routine is the same in both registries. -/
theorem congr {α : Type} (g : MethodInfo → α)
    (hg : ∀ m, g m.heading = g m) (m : MethodId) : g (r'.methodInfo m) = g (r.methodInfo m) := by
  rw [← hg, h.headings m, hg]

theorem classInfo : r'.classInfo = r.classInfo := by
  funext c
  rw [Registry.classInfo, h.classes, Registry.classInfo]

theorem outline : r'.outline = r.outline := by
  rw [Registry.outline, h.classes, h.byName, Registry.outline]

variable (m : MethodId)

theorem kind : (r'.methodInfo m).kind = (r.methodInfo m).kind :=
  h.congr MethodInfo.kind (fun _ => rfl) m

theorem signature : (r'.methodInfo m).signature = (r.methodInfo m).signature :=
  h.congr MethodInfo.signature (fun _ => rfl) m

theorem params : (r'.methodInfo m).params = (r.methodInfo m).params :=
  h.congr MethodInfo.params (fun _ => rfl) m

theorem owner : (r'.methodInfo m).owner = (r.methodInfo m).owner :=
  h.congr MethodInfo.owner (fun _ => rfl) m

theorem name : (r'.methodInfo m).name = (r.methodInfo m).name :=
  h.congr MethodInfo.name (fun _ => rfl) m

theorem returns : (r'.methodInfo m).returns = (r.methodInfo m).returns :=
  h.congr MethodInfo.returns (fun _ => rfl) m

theorem typeName (ty : Ty) : r'.typeName ty = r.typeName ty := by
  cases ty with
  | int | null | untyped | error | address => rfl
  | ofClass c => rw [Registry.typeName, h.classInfo, Registry.typeName]
  | ofMethod m => exact h.signature m

theorem slotOf (slots : List MethodId) (signature : String) :
    r'.slotOf slots signature = r.slotOf slots signature := by
  simp only [Registry.slotOf, h.signature]

variable (c : ClassId)

theorem vmtSlot (signature : String) : r'.vmtSlot c signature = r.vmtSlot c signature := by
  rw [Registry.vmtSlot, h.classInfo, h.slotOf, Registry.vmtSlot]

theorem isAssignable (source target : Ty) :
    r'.isAssignable source target = r.isAssignable source target :=
  by simp only [Registry.isAssignable, isSubclass_of_outline h.outline]

/-- Calls are resolved to the same methods, whatever locals were declared in between. -/
theorem resolveMethod (name : String) (kind : MethodKind)
    (args : List Ty) : r'.resolveMethod c name kind args = r.resolveMethod c name kind args := by
  have hSignature : r'.signature name kind args = r.signature name kind args := by
    simp only [Registry.signature, h.typeName]
  have hDeclared : ∀ a signature, r'.declaredAs a kind signature = r.declaredAs a kind signature := by
    intro a signature
    simp only [declaredAs, h.classInfo, h.kind]
  have hAccepts : r'.accepts name kind args = r.accepts name kind args := by
    funext m
    simp only [accepts, h.kind, h.name, h.params, h.isAssignable]
  have hCandidates : r'.candidates c kind = r.candidates c kind := by
    cases kind with
    | method => exact chain_of_outline h.outline c
    | constructor | destructor => rfl
  simp only [Registry.resolveMethod, hSignature, hDeclared, hAccepts, hCandidates, h.classInfo]

theorem dispatchTable : r'.dispatchTable c = r.dispatchTable c := by
  have hOverride : r'.override = r.override := by
    funext slots m
    simp only [override, h.slotOf, h.signature]
  simp only [Registry.dispatchTable, virtualMethods, chain_of_outline h.outline, h.classInfo,
    MethodInfo.isVirtual, h.kind, hOverride]

theorem fieldType (name : String) : r'.fieldType c name = r.fieldType c name :=
  fieldType_congr h.outline (fun c => by rw [h.classInfo]) c name

theorem fieldOffset (name : String) : r'.fieldOffset c name = r.fieldOffset c name := by
  simp only [Registry.fieldOffset, fieldOwner, fieldLayout, chain_of_outline h.outline, h.classInfo]

theorem routineOf {c : ClassId} {m : MethodId}
    (hRoutine : r.RoutineOf c (r.methodInfo m)) : r'.RoutineOf c (r'.methodInfo m) := by
  have hOutline := hRoutine.of_outline h.outline
  refine ⟨?_, ?_, ?_, ?_, ?_, ?_⟩
  · rw [h.owner, hOutline.owner]
  · rw [h.signature, h.name, h.kind, h.params, ← hOutline.signature]
  · rw [h.congr MethodInfo.label (fun _ => rfl), h.signature, hOutline.label]
  · rw [h.params]
    exact hOutline.params
  · rw [h.kind, h.returns]
    exact hOutline.returns
  · rw [h.kind, h.name]
    exact hOutline.named

/-- Coherence reads the interface only, so it lasts while bodies are typed. -/
theorem coherent (hCoherent : r.Coherent names) : r'.Coherent names := by
  intro c
  have hOld := hCoherent c
  exact {
    table := by simp only [h.classInfo, h.signature, hOld.table]
    distinct := by
      simp only [h.classInfo, h.signature]
      exact hOld.distinct
    bounded := by
      rw [h.classInfo, h.length]
      exact hOld.bounded
    routine := by
      rw [h.classInfo]
      exact fun m hm => h.routineOf (hOld.routine m hm)
    named := by
      rw [h.classInfo]
      intro m hm
      rw [h.kind, h.name]
      exact hOld.named m hm
    fields := by
      rw [h.classInfo]
      exact fun f hf => (isStored_of_outline h.outline f.2).mpr (hOld.fields f hf) }

/-- So does all that the code needs to know about classes. -/
theorem settled (hSettled : r.Settled names) : r'.Settled names where
  lineal := hSettled.lineal.of_outline h.outline
  coherent := h.coherent hSettled.coherent
  destructor := by
    rw [h.classes, h.classInfo]
    exact hSettled.destructor
  lookups := by
    rw [h.classes]
    intro c hc name
    rw [h.fieldType, ← hSettled.lookups c hc name, lookupField, h.classInfo, lookupField]
  root := by
    rw [h.classInfo]
    exact hSettled.root
  tables := by
    rw [h.classes, h.classInfo]
    intro c hc
    rw [h.dispatchTable]
    exact hSettled.tables c hc

end SameInterface

/-- Other bodies do not see the variables of a routine. -/
theorem sameInterface_updateLocals {m : MethodId} (hm : m.index < r.methods.length) (table : SymbolTable) :
    SameInterface r (r.updateMethod m fun i => { i with locals := table }) := by
  refine ⟨rfl, rfl, length_methods_updateMethod _ _ _, ?_⟩
  intro k
  by_cases hk : k = m
  · rw [hk, methodInfo_updateMethod_self r _ hm]
    rfl
  · rw [methodInfo_updateMethod_of_ne r _ hk]

end Registry
end TLang
