import TLang.Proofs.Registry.Contents
import TLang.Proofs.Registry.Fields
import TLang.Registry.Initial

/-! Dispatch tables. Building the table of a class changes nothing but this table. In a settled registry
classes form a tree under the root, tables agree with declarations, every class answers for its inherited
fields, and every class has a destructor and a dispatch table. -/
namespace TLang

variable {c : ClassId} {signature : String} {slot : Nat}

/-- The class without its dispatch table. -/
def ClassInfo.untabled (c : ClassInfo) : ClassInfo := { c with vmt := [] }

namespace Registry

variable {names : String → Prop} {r r' : Registry}

/-- The registry once all classes are completed. -/
structure Complete (names : String → Prop) (r : Registry) : Prop where
  lineal : r.Lineal
  coherent : r.Coherent names
  destructor : ∀ c, c.index < r.classes.length → (r.classInfo c).destructor.isSome
  lookups : ∀ c, c.index < r.classes.length → ∀ name, r.lookupField c name = r.fieldType c name
  root : (r.classInfo object).methods ≠ []

/-- The registry with which bodies are typed and code is generated. -/
structure Settled (names : String → Prop) (r : Registry) : Prop extends r.Complete names where
  tables : ∀ c, c.index < r.classes.length → (r.classInfo c).vmt = r.dispatchTable c

/-- Only a registered class has slots. -/
theorem lt_of_vmtSlot (hSlot : r.vmtSlot c signature = some slot) : c.index < r.classes.length := by
  by_contra hOut
  simp [vmtSlot, slotOf, classInfo, List.getElem?_eq_none (Nat.le_of_not_lt hOut)] at hSlot

namespace Settled

/-- The slot that a class gives to a signature holds, in the table of each of its subclasses, the
method of this signature that is declared nearest to the subclass. -/
theorem getElem?_vmt_of_vmtSlot (h : r.Settled names) {d : ClassId} (hSlot : r.vmtSlot c signature = some slot)
    (hSub : r.isSubclass d c = true) :
    ∃ m, r.nearestVirtual d signature = some m ∧ (r.classInfo d).vmt[slot]? = some m := by
  have hMem : c ∈ r.chain d := isSubclass_iff.mp hSub
  have hc := lt_of_vmtSlot hSlot
  rw [vmtSlot, h.tables c hc] at hSlot
  rw [h.tables d (h.lineal.acyclic.lt_of_mem_chain hMem hc)]
  exact h.lineal.acyclic.getElem?_dispatchTable h.coherent.distinct hMem hSlot

/-- A method in the table of a class stands in the slot of its signature. -/
theorem vmtSlot_of_getElem? (h : r.Settled names) {m : MethodId} (hm : (r.classInfo c).vmt[slot]? = some m) :
    r.vmtSlot c (r.methodInfo m).signature = some slot := by
  have hc : c.index < r.classes.length := by
    by_contra hOut
    simp [classInfo, List.getElem?_eq_none (Nat.le_of_not_lt hOut)] at hm
  rw [vmtSlot, h.tables c hc]
  rw [h.tables c hc] at hm
  exact slotOf_of_getElem? (nodup_signatures_dispatchTable r c) hm

end Settled

/-- How building a dispatch table changes the registry. -/
structure Tabulates (r r' : Registry) : Prop where
  extension : Extends r r'
  methods : r'.methods = r.methods
  classes : ∀ c, (r'.classInfo c).untabled = (r.classInfo c).untabled
  tables : ∀ c, (r'.classInfo c).vmt = (r.classInfo c).vmt ∨ (r'.classInfo c).vmt = r.dispatchTable c

theorem dispatchTable_congr (hOutline : r'.outline = r.outline) (hMethods : r'.methods = r.methods)
    (hOwn : ∀ c, (r'.classInfo c).methods = (r.classInfo c).methods) (c : ClassId) :
    r'.dispatchTable c = r.dispatchTable c := by
  have hInfo : r'.methodInfo = r.methodInfo := by
    funext m
    rw [methodInfo, hMethods, methodInfo]
  have hOverride : r'.override = r.override := by
    funext slots m
    simp only [override, slotOf, hInfo]
  simp only [dispatchTable, virtualMethods, chain_of_outline hOutline, hOwn, hInfo, hOverride]

namespace Tabulates

/-- What does not look at the table of a class is the same before and after. -/
theorem congr (h : Tabulates r r') {α : Type} (g : ClassInfo → α) (hg : ∀ c, g c.untabled = g c)
    (c : ClassId) : g (r'.classInfo c) = g (r.classInfo c) := by
  rw [← hg, h.classes c, hg]

theorem own (h : Tabulates r r') (c : ClassId) : (r'.classInfo c).methods = (r.classInfo c).methods :=
  h.congr ClassInfo.methods (fun _ => rfl) c

theorem dispatchTable (h : Tabulates r r') (c : ClassId) : r'.dispatchTable c = r.dispatchTable c :=
  dispatchTable_congr h.extension.outline h.methods h.own c

theorem refl (r : Registry) : Tabulates r r where
  extension := .refl r
  methods := rfl
  classes := fun _ => rfl
  tables := fun _ => .inl rfl

theorem trans {r'' : Registry} (h : Tabulates r r') (h' : Tabulates r' r'') : Tabulates r r'' where
  extension := h.extension.trans h'.extension
  methods := h'.methods.trans h.methods
  classes := fun c => (h'.classes c).trans (h.classes c)
  tables := by
    intro c
    rcases h'.tables c with hSame | hTable
    · rw [hSame]
      exact h.tables c
    · exact .inr (hTable.trans (h.dispatchTable c))

/-- A table that is right stays so. -/
theorem vmt (h : Tabulates r r') (hTable : (r.classInfo c).vmt = r.dispatchTable c) :
    (r'.classInfo c).vmt = r'.dispatchTable c := by
  rw [h.dispatchTable]
  rcases h.tables c with hSame | hTable'
  · exact hSame.trans hTable
  · exact hTable'

end Tabulates

theorem tabulates_buildVMT {id : ClassId} (hId : id.index < r.classes.length) :
    Tabulates r (r.buildVMT id) ∧
      ((r.buildVMT id).classInfo id).vmt = (r.buildVMT id).dispatchTable id := by
  have hKeeps : KeepsDeclarations fun c => { c with vmt := r.dispatchTable id } := by
    constructor <;> simp
  have hTabulates : Tabulates r (r.buildVMT id) := {
    extension := (hKeeps.grows r).extension
    methods := rfl
    classes := by
      intro c
      rw [buildVMT, classInfo_updateClass_congr ClassInfo.untabled]
      exact fun _ => rfl
    tables := by
      intro c
      by_cases hc : c = id
      · right
        rw [hc, buildVMT, classInfo_updateClass_self r _ hId]
      · left
        rw [buildVMT, classInfo_updateClass_of_ne r _ hc] }
  refine ⟨hTabulates, ?_⟩
  rw [hTabulates.dispatchTable, buildVMT, classInfo_updateClass_self r _ hId]

/-- The table of the root class, which is never built, is right as it is. -/
theorem dispatchTable_root (hAcyclic : r.Acyclic)
    (hRoot : r.classInfo object = initial.classInfo object)
    (hMethods : initial.methods <+: r.methods) :
    (r.classInfo object).vmt = r.dispatchTable object := by
  have hParent : r.parent object = none := by rw [parent, hRoot]; rfl
  have hInfo : ∀ m ∈ (r.classInfo object).methods, r.methodInfo m = initial.methodInfo m := by
    intro m hm
    refine methodInfo_of_prefix hMethods ?_
    rw [hRoot] at hm
    revert m
    decide
  have hVirtual : r.ownVirtual object = [⟨2⟩] := by
    rw [ownVirtual, List.filter_congr fun m hm => by rw [hInfo m hm], hRoot]
    rfl
  rw [dispatchTable, virtualMethods_eq, hAcyclic.chain_of_root hParent, List.reverse_singleton,
    List.flatMap_singleton, hVirtual, hRoot]
  rfl

end Registry

end TLang
