import TLang.Proofs.Registry.Contents
import TLang.Proofs.Registry.Fields

/-! What holds of the tables of a registry whatever is reported. The methods of a class are listed under
different signatures and its fields under different names. Types need not be known for that, so it also
holds where a declaration was refused or names a class that does not exist. -/
namespace TLang.Registry

variable {r r' : Registry} {c id : ClassId}

/-- The table of a class lists its methods under their signatures, no two methods have one signature,
and no two fields have one name. -/
structure TidyAt (r : Registry) (c : ClassId) : Prop where
  table : (r.classInfo c).members.methods =
    (r.classInfo c).methods.map fun m => ((r.methodInfo m).signature, .ofMethod m)
  distinct : ((r.classInfo c).methods.map fun m => (r.methodInfo m).signature).Nodup
  bounded : ∀ m ∈ (r.classInfo c).methods, m.index < r.methods.length
  fields : (r.classInfo c).fields.names.Nodup

namespace TidyAt

/-- Recorded methods keep their records, so only the lists of the class matter. -/
theorem congr (h : r.TidyAt c) (hMethods : r.methods <+: r'.methods)
    (hOwn : (r'.classInfo c).methods = (r.classInfo c).methods)
    (hTable : (r'.classInfo c).members.methods = (r.classInfo c).members.methods)
    (hFields : (r'.classInfo c).fields = (r.classInfo c).fields) : r'.TidyAt c := by
  have hInfo : ∀ m ∈ (r.classInfo c).methods, r'.methodInfo m = r.methodInfo m :=
    fun m hm => methodInfo_of_prefix hMethods (h.bounded m hm)
  refine ⟨?_, ?_, ?_, hFields ▸ h.fields⟩
  · rw [hTable, hOwn, h.table]
    exact List.map_congr_left fun m hm => by rw [hInfo m hm]
  · rw [hOwn, List.map_congr_left fun m hm => congrArg MethodInfo.signature (hInfo m hm)]
    exact h.distinct
  · exact fun m hm => Nat.lt_of_lt_of_le (h.bounded m (hOwn ▸ hm)) hMethods.length_le

/-- A class that stays as it is stays tidy. -/
theorem of_same (h : r.TidyAt c) (hMethods : r.methods <+: r'.methods)
    (hSame : r'.classInfo c = r.classInfo c) : r'.TidyAt c :=
  h.congr hMethods (by rw [hSame]) (by rw [hSame]) (by rw [hSame])

theorem updateClass (h : r.TidyAt c) {f : ClassInfo → ClassInfo} (hf : KeepsDeclarations f) :
    (r.updateClass id f).TidyAt c :=
  h.congr List.prefix_rfl (classInfo_updateClass_congr ClassInfo.methods hf.methods r c)
    (classInfo_updateClass_congr (fun c => c.members.methods) hf.table r c)
    (classInfo_updateClass_congr ClassInfo.fields hf.fields r c)

/-- A method whose signature is taken is refused, so signatures stay different. -/
theorem addMethod (h : r.TidyAt id) (hId : id.index < r.classes.length) {m : MethodId}
    (hm : m.index < r.methods.length) (hAdd : r.addMethod id m = .ok r') : r'.TidyAt id := by
  obtain ⟨hNew, -, hMethods, -, hSelf⟩ := addMethod_eq_ok hId hAdd
  have hInfo : ∀ k, r'.methodInfo k = r.methodInfo k := by
    intro k
    rw [methodInfo, methodInfo, hMethods]
  have hSignatures : (r.classInfo id).members.methods.names =
      (r.classInfo id).methods.map fun k => (r.methodInfo k).signature := by
    simp [h.table, Bindings.names, Function.comp_def]
  rw [hSignatures] at hNew
  constructor
  all_goals simp only [hSelf, ClassInfo.withMethod, hInfo, hMethods, List.map_append, List.map_cons,
    List.map_nil]
  · rw [h.table]
  · rw [← List.concat_eq_append]
    exact h.distinct.concat hNew
  · intro k hk
    rcases List.mem_append.mp hk with hk | hk
    · exact h.bounded k hk
    · exact List.mem_singleton.mp hk ▸ hm
  · exact h.fields

/-- A field whose name is taken is refused, so names stay different. -/
theorem addField (h : r.TidyAt id) (hId : id.index < r.classes.length)
    (hOwn : (r.classInfo id).fields.names ⊆ (r.classInfo id).members.names.names) {name : String} {ty : Ty}
    (hAdd : r.addField id name ty = .ok r') : r'.TidyAt id := by
  obtain ⟨hNew, -, hMethods, -, hSelf⟩ := addField_eq_ok hId hAdd
  have hInfo : ∀ k, r'.methodInfo k = r.methodInfo k := by
    intro k
    rw [methodInfo, methodInfo, hMethods]
  constructor
  all_goals simp only [hSelf, ClassInfo.withField, hInfo, hMethods]
  · exact h.table
  · exact h.distinct
  · exact h.bounded
  · rw [Bindings.names, ← List.concat_eq_append, List.map_concat]
    exact h.fields.concat fun hOld => hNew (hOwn hOld)

end TidyAt

/-- The registry after analysis, whatever was reported: classes form a tree under the root, the tables
of each class agree, each class answers for its inherited fields, and each has its dispatch table. -/
structure Consistent (r : Registry) : Prop where
  lineal : r.Lineal
  tidy : ∀ c, r.TidyAt c
  lookups : ∀ c, c.index < r.classes.length → ∀ name, r.lookupField c name = r.fieldType c name
  tables : ∀ c, c.index < r.classes.length → (r.classInfo c).vmt = r.dispatchTable c

theorem Consistent.distinct (h : r.Consistent) : r.SignaturesDistinct := fun c => (h.tidy c).distinct

/-- The class is the nearest one on a line of inheritance that has the property. -/
structure NearestOn (r : Registry) (c : ClassId) (p : ClassId → Prop) (owner : ClassId) : Prop where
  has : p owner
  nearest : ∃ below above, r.chain c = below ++ owner :: above ∧ ∀ a ∈ below, ¬ p a

end TLang.Registry
