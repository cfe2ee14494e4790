import TLang.Proofs.Gathering
import TLang.Proofs.Registry.Consistency
import TLang.Proofs.Scopes
import TLang.Proofs.Settling

/-! The classes of any program once they are settled, whatever is reported. Each declaration that is
refused leaves the tables of its class as they were, so these agree with each other after every pass. -/
namespace TLang

open Registry Analysis List

variable {env' : Env} {ds : List ClassDecl}

variable {env : Env} {d : ClassDecl} {f : ClassDecl → Analysis ClassDecl}

/-! The fields that a class declares. -/

/-- The names of a declaration of fields, with their type. -/
def FieldDecl.entries (env : Env) (d : FieldDecl) : Bindings :=
  d.names.map fun name => (name, (env.resolveTypeName d.line d.type).value)

/-- The fields that a member stands for. -/
def Member.fieldEntries (env : Env) : Member → Bindings
  | .field d => d.entries env
  | .method _ => []

/-- All fields that a class asks for, in order of declaration. -/
def ClassDecl.fieldEntries (env : Env) (d : ClassDecl) : Bindings :=
  d.members.flatMap (Member.fieldEntries env)

theorem Member.fieldEntries_of_outline (h : env'.types.outline = env.types.outline) (member : Member) :
    member.fieldEntries env' = member.fieldEntries env := by
  cases member with
  | field d => simp only [fieldEntries, FieldDecl.entries, Env.resolveTypeName_of_outline h]
  | method d => rfl

theorem ClassDecl.fieldEntries_of_outline (h : env'.types.outline = env.types.outline) (d : ClassDecl) :
    d.fieldEntries env' = d.fieldEntries env :=
  flatMap_congr fun member _ => member.fieldEntries_of_outline h

/-! Declaring members. -/

namespace Analysis

variable {id : ClassId} {env' : Env}

/-- A class while its members are declared. -/
structure Tended (id : ClassId) (env : Env) : Prop where
  known : id.index < env.types.classes.length
  tidy : env.types.TidyAt id
  fieldsOpen : env.types.FieldsOpen id

/-- A declaration tends to its class and adds some fields to it, except those whose names are taken. -/
structure Tends (id : ClassId) (entries : Bindings) (env env' : Env) : Prop where
  tended : Tended id env'
  outline : env'.types.outline = env.types.outline
  fields : (env'.types.classInfo id).fields = (env.types.classInfo id).fields.extend entries

theorem Tends.refl (h : Tended id env) : Tends id [] env env := ⟨h, rfl, rfl⟩

theorem Tends.trans {entries more : Bindings} {env'' : Env} (h : Tends id entries env env')
    (h' : Tends id more env' env'') : Tends id (entries ++ more) env env'' where
  tended := h'.tended
  outline := h'.outline.trans h.outline
  fields := by rw [h'.fields, h.fields, Bindings.extend, Bindings.extend, Bindings.extend, foldl_append]

/-- A routine enters the list of the class and its table together, or neither of them. -/
theorem tidyAt_enlist (hId : id.index < env.types.classes.length) (h : env.types.TidyAt id)
    (d : MethodDecl) : (enlist id d env).value.2.types.TidyAt id := by
  rw [enlist_apply]
  simp only [value_bind, record_apply, attach_apply]
  generalize hTypes : (env.types.declareMethod id d.name d.kind _ _).2 = declared
  have hDeclared : declared.TidyAt id := hTypes ▸ h.of_same (prefix_append _ _) rfl
  have hId' : id.index < declared.classes.length := hTypes ▸ hId
  have hm : (⟨env.size⟩ : MethodId).index < declared.methods.length := by
    rw [← hTypes, Registry.declareMethod, length_append]
    exact Nat.lt_succ_self _
  cases hAdd : declared.addMethod id ⟨env.size⟩ with
  | error member => exact hDeclared
  | ok types =>
    have hAdded := hDeclared.addMethod hId' hm hAdd
    cases hSynthetic : d.synthetic with
    | true => simpa using hAdded
    | false =>
      have hKeeps : KeepsDeclarations (ClassInfo.noted d.kind) := by
        cases d.kind <;> constructor <;> exact fun _ => rfl
      simpa using hAdded.updateClass hKeeps

variable (h : Tended id env)
include h

theorem tends_enlist (d : MethodDecl) : Tends id [] env (enlist id d env).value.2 := by
  have hGrows := enlarges_enlist d env h.known
  have hSame := own_enlist (fun c => (c.members.names, c.fields)) h.known d (fun _ _ _ _ => rfl)
    (fun c => by cases d.kind <;> rfl)
  obtain ⟨hNames, hFields⟩ := Prod.mk.inj hSame
  refine ⟨⟨?_, tidyAt_enlist h.known h.tidy d, ?_⟩, hGrows.types.outline, hFields⟩
  · rw [length_classes_of_outline hGrows.types.outline]
    exact h.known
  · exact hNames.trans (h.fieldsOpen.trans hFields.symm)

/-- A field enters the table of its class unless the name is taken, in which case all stays as it was. -/
theorem tends_addField (line : Nat) (className name : String) {ty : Ty}
    (hTy : ∀ m, ty ≠ .ofMethod m) :
    Tends id [(name, ty)] env (addMember line id className name ty env).value.2 := by
  have hMember := env.types.addMember_eq_addField id name hTy
  have hGrows := enlarges_addMember line id className name ty env h.known
  have hExtend : ∀ fields : Bindings, fields.extend [(name, ty)] = (fields.add? name ty).getD fields :=
    fun _ => rfl
  have hOpen : (env.types.classInfo id).members.names = (env.types.classInfo id).fields := h.fieldsOpen
  rw [addMember_apply, hMember] at hGrows ⊢
  cases hAdd : env.types.addField id name ty with
  | error member =>
    refine ⟨h, rfl, ?_⟩
    rw [Registry.addField, hOpen] at hAdd
    split at hAdd
    · rename_i hTaken
      rw [hExtend, Bindings.add?_eq_none_iff.mpr hTaken]
      rfl
    · cases hAdd
  | ok types =>
    obtain ⟨hNew, hOutline, -, -, hSelf⟩ := addField_eq_ok h.known hAdd
    rw [hOpen] at hNew
    refine ⟨⟨?_, h.tidy.addField h.known (hOpen ▸ List.Subset.refl _) hAdd, ?_⟩, hOutline, ?_⟩
    · rw [length_classes_of_outline hOutline]
      exact h.known
    · rw [FieldsOpen, hSelf]
      simp only [ClassInfo.withField, hOpen]
    · rw [hSelf, hExtend, Bindings.add?_eq_some_iff.mpr ⟨hNew, rfl⟩]
      rfl

variable (className : String)

/-- A declaration of several fields enters those whose names are not taken, in order. -/
theorem tends_declareFields (d : FieldDecl) :
    Tends id (d.entries env) env (declareFields id className d env).value.2 := by
  have hTy := ne_ofMethod_resolveTypeName env d.line d.type
  rw [declareFields, value_bind, value_read, FieldDecl.entries]
  generalize (env.resolveTypeName d.line d.type).value = ty at hTy
  induction d.names generalizing env with
  | nil => exact .refl h
  | cons name rest ih =>
    have hFirst := tends_addField h d.line className name hTy
    exact hFirst.trans (ih hFirst.tended)

theorem tends_enroll (member : Member) :
    Tends id (member.fieldEntries env) env (enroll id className member env).value.2 := by
  cases member with
  | field d => exact tends_declareFields h className d
  | method d => exact tends_enlist h d

/-- The fields of a class end up in its table in the order in which they are declared, whatever is reported in
between. -/
theorem tends_enrollAll (members : List Member) :
    Tends id (members.flatMap (Member.fieldEntries env)) env
      (members.mapM (enroll id className) env).value.2 := by
  induction members generalizing env with
  | nil => exact .refl h
  | cons member rest ih =>
    have hFirst := tends_enroll h className member
    have hRest := ih hFirst.tended
    rw [flatMap_congr fun m _ => m.fieldEntries_of_outline hFirst.outline] at hRest
    rw [mapM_cons_apply, flatMap_cons]
    exact hFirst.trans hRest

end Analysis

theorem ClassDecl.tends_declareMembers {id : ClassId} (hResolved : d.resolved = some id) (h : Tended id env) :
    Tends id (d.fieldEntries env) env (d.declareMembers env).value.2 := by
  rw [declareMembers_eq hResolved]
  exact tends_enrollAll h d.name d.members

namespace ClassDecl

variable {id : ClassId}

/-- A class that is completed stays tidy and takes over the fields of its ancestors. -/
theorem tends_complete (hResolved : d.resolved = some id) (hId : id.index < env.types.classes.length)
    (h : env.types.TidyAt id) : (d.complete env).value.2.types.TidyAt id ∧
      ((d.complete env).value.2.types.classInfo id).members.names =
        ((env.types.inheritFields id).classInfo id).members.names := by
  have hKeeps : KeepsDeclarations fun c : ClassInfo =>
      { c with members.names := c.members.names.extend (env.types.inheritedFields id) } := by
    constructor <;> exact fun _ => rfl
  refine complete_induction (P := fun e => e.types.TidyAt id ∧ (e.types.classInfo id).members.names =
    ((env.types.inheritFields id).classInfo id).members.names) ?_ hResolved hId ⟨h.updateClass hKeeps, rfl⟩
  rintro e env hId ⟨hTidy, hNames⟩
  exact ⟨tidyAt_enlist hId hTidy e, (own_enlist (fun c => c.members.names) hId e (fun _ _ _ _ => rfl)
    fun _ => by cases e.kind <;> rfl).trans hNames⟩

end ClassDecl

/-! Passes. -/

section Passes

variable {as : List ClassDecl}

theorem Analysis.exists_turn (hd : d ∈ as) (env : Env) : ∃ e, (d, e) ∈ turns f as env := by
  rw [← map_fst_turns f as env] at hd
  obtain ⟨⟨d, e⟩, ht, rfl⟩ := mem_map.mp hd
  exact ⟨e, ht⟩

theorem Analysis.Placed.lt_of_resolved (h : Placed as env) (hd : d ∈ as) {c : ClassId}
    (hResolved : d.resolved = some c) : c.index < env.types.classes.length := by
  obtain ⟨c', hc', hLt⟩ := h.known d hd
  obtain rfl : c = c' := Option.some.inj (hResolved.symm.trans hc')
  exact hLt

/-- What every step does for its own class and nothing else disturbs, a pass does for all classes. -/
theorem Analysis.Ordered.forall_mapM (h : Ordered f as env) (holds : Registry → ClassId → Prop)
    (hSame : ∀ {r r' : Registry} {c}, r.methods <+: r'.methods → r'.classInfo c = r.classInfo c →
      holds r c → holds r' c)
    (hStep : ∀ d ∈ as, ∀ c, d.resolved = some c → ∀ e : Env, c.index < e.types.classes.length →
      holds e.types c → holds (f d e).value.2.types c) (hStart : ∀ c, holds env.types c) :
    (∀ t ∈ turns f as env, ∀ c, holds t.2.types c) ∧ ∀ c, holds (as.mapM f env).value.2.types c := by
  have hKept : ∀ d ∈ as, ∀ e : Env, (e.types.outline = env.types.outline ∧ ∀ c, holds e.types c) →
      (f d e).value.2.types.outline = env.types.outline ∧ ∀ c, holds (f d e).value.2.types c := by
    rintro d hd e ⟨hOutline, hHolds⟩
    obtain ⟨c, hResolved, hc⟩ := h.known d hd
    rw [← length_classes_of_outline hOutline] at hc
    have hGrows := h.enlarges d hd c hResolved e hc
    refine ⟨hGrows.types.outline.trans hOutline, ?_⟩
    intro c'
    by_cases hc' : c' = c
    · exact hc' ▸ hStep d hd c hResolved e hc (hHolds c)
    · exact hSame hGrows.types.methods (hGrows.types.others c' hc') (hHolds c')
  obtain ⟨hTurns, hFinal⟩ := invariant_turns
    (fun e => e.types.outline = env.types.outline ∧ ∀ c, holds e.types c) as hKept ⟨rfl, hStart⟩
  exact ⟨fun t ht => (hTurns t ht).2, hFinal.2⟩

/-- Classes while members are declared. -/
theorem tended_pass (hPlaced : Placed as env)
    (hStart : ∀ c, env.types.TidyAt c ∧ env.types.FieldsOpen c) :
    let final := (as.mapM ClassDecl.declareMembers env).value.2
    (∀ c, final.types.TidyAt c ∧ final.types.FieldsOpen c) ∧
      ∀ d ∈ as, ∀ c, d.resolved = some c → (final.types.classInfo c).fields =
        (env.types.classInfo c).fields.extend (d.fieldEntries env) := by
  intro final
  obtain ⟨hTurns, hFinal⟩ := hPlaced.declareMembers.forall_mapM
    (fun r c => r.TidyAt c ∧ r.FieldsOpen c) (fun hMethods hSame h =>
      ⟨h.1.of_same hMethods hSame, by rw [FieldsOpen, hSame]; exact h.2⟩) (by
    intro d _ c hResolved e hc h
    have hTends := ClassDecl.tends_declareMembers hResolved ⟨hc, h.1, h.2⟩
    exact ⟨hTends.tended.tidy, hTends.tended.fieldsOpen⟩) hStart
  refine ⟨hFinal, ?_⟩
  intro d hd c hResolved
  obtain ⟨e, ht⟩ := exists_turn (f := ClassDecl.declareMembers) hd env
  have hFramed := hPlaced.declareMembers.framed ht hResolved
  have hOutline := hFramed.before.outline
  have hc : c.index < e.types.classes.length :=
    length_classes_of_outline hOutline ▸ hPlaced.lt_of_resolved hd hResolved
  obtain ⟨hTidy, hOpen⟩ := hTurns _ ht c
  have hTends := ClassDecl.tends_declareMembers hResolved ⟨hc, hTidy, hOpen⟩
  rw [hFramed.left, hTends.fields, hFramed.found, d.fieldEntries_of_outline hOutline]

/-- Classes while they are completed. -/
theorem completed_pass (hPlaced : Placed as env) (hLineal : env.types.Lineal)
    (hRoot : (env.types.classInfo object).fields = [])
    (hStart : ∀ c, env.types.TidyAt c ∧ env.types.FieldsOpen c) :
    let final := (as.mapM ClassDecl.complete env).value.2
    (∀ c, final.types.TidyAt c) ∧ ∀ d ∈ as, ∀ c, d.resolved = some c →
      ∀ name, final.types.lookupField c name = final.types.fieldType c name := by
  intro final
  obtain ⟨hTurns, hFinal⟩ := hPlaced.complete.forall_mapM (fun r c => r.TidyAt c)
    (fun hMethods hSame h => h.of_same hMethods hSame)
    (fun d _ c hResolved e hc h => (d.tends_complete hResolved hc h).1) (fun c => (hStart c).1)
  obtain ⟨hFields, hOutlineFinal, hFieldsFinal⟩ := fields_turns hPlaced
  refine ⟨hFinal, ?_⟩
  intro d hd c hResolved name
  obtain ⟨e, ht⟩ := exists_turn (f := ClassDecl.complete) hd env
  have hFramed := hPlaced.complete.framed ht hResolved
  obtain ⟨hOutline, hFieldsTurn⟩ := hFields _ ht
  have hc : c.index < e.types.classes.length :=
    length_classes_of_outline hOutline ▸ hPlaced.lt_of_resolved hd hResolved
  have hNames := (d.tends_complete hResolved hc (hTurns _ ht c)).2
  have hLineal' := hLineal.of_outline hOutline
  have hOwn : e.types.lookupField c name = (e.types.classInfo c).fields.type? name := by
    have hOpen : (env.types.classInfo c).members.names = (env.types.classInfo c).fields := (hStart c).2
    rw [lookupField, hFramed.found, hOpen]
  have hRoot' : (e.types.classInfo object).fields = [] := (hFieldsTurn object).trans hRoot
  have hFull := lookupField_inheritFields hLineal'.acyclic hLineal'.root_parent hRoot' hc (.inl hOwn)
  rw [lookupField, hFramed.left, hNames, ← lookupField, hFull, fieldType_congr hOutline hFieldsTurn,
    fieldType_congr hOutlineFinal hFieldsFinal]

/-- Classes while their dispatch tables are built. -/
theorem tabulated_pass (hPlaced : Placed as env) : let final := (as.mapM ClassDecl.buildVMT env).value.2
    Tabulates env.types final.types ∧ ∀ d ∈ as, ∀ c, d.resolved = some c →
      (final.types.classInfo c).vmt = final.types.dispatchTable c := by
  intro final
  have hStep : ∀ {d : ClassDecl} {c : ClassId}, d.resolved = some c → ∀ e : Env,
      (d.buildVMT e).value.2.types = e.types.buildVMT c := by
    intro d c hResolved e
    simp only [ClassDecl.buildVMT, hResolved, value_bind, modify_apply, pure_apply]
  have hKept : ∀ d ∈ as, ∀ e : Env, Tabulates env.types e.types →
      Tabulates env.types (d.buildVMT e).value.2.types := by
    intro d hd e h
    obtain ⟨c, hResolved, hc⟩ := hPlaced.known d hd
    rw [← length_classes_of_outline h.extension.outline] at hc
    rw [hStep hResolved]
    exact h.trans (tabulates_buildVMT hc).1
  obtain ⟨hTurns, hFinal⟩ :=
    invariant_turns (fun e => Tabulates env.types e.types) as hKept (.refl _)
  refine ⟨hFinal, ?_⟩
  intro d hd c hResolved
  obtain ⟨e, ht⟩ := exists_turn (f := ClassDecl.buildVMT) hd env
  have hFramed := hPlaced.buildVMT.framed ht hResolved
  have hBefore := hTurns _ ht
  have hc : c.index < e.types.classes.length :=
    length_classes_of_outline hBefore.extension.outline ▸ hPlaced.lt_of_resolved hd hResolved
  obtain ⟨hTabulates, hTable⟩ := tabulates_buildVMT hc
  rw [hFramed.left, hStep hResolved, hTable, hTabulates.dispatchTable, hBefore.dispatchTable,
    hFinal.dispatchTable]

/-- The environment in which the classes of a program are settled. -/
structure Unsettled (as : List ClassDecl) (env : Env) : Prop extends Placed as env where
  lineal : env.types.Lineal
  start : ∀ c, env.types.TidyAt c ∧ env.types.FieldsOpen c
  root : env.types.classInfo object = initial.classInfo object
  methods : env.types.methods = initial.methods
  below : ∀ d ∈ as, d.resolved ≠ some object
  covered : env.types.CoveredBy as

/-- Passes over the other classes leave the root as it is. -/
theorem Analysis.Ordered.classInfo_root (h : Ordered f as env) (hBelow : ∀ d ∈ as, d.resolved ≠ some object) :
    (as.mapM f env).value.2.types.classInfo object = env.types.classInfo object := by
  refine (growsAmong_mapM h.known h.enlarges).types.others object ?_
  intro hMem
  obtain ⟨d, hd, hEq⟩ := mem_filterMap.mp hMem
  exact hBelow d hd hEq

/-- Classes that are settled are consistent, and their fields are those that were asked for, up to
names that were taken. -/
theorem Unsettled.consistent (h : Unsettled as env) :
    (settle as env).value.2.types.Consistent ∧ ∀ d ∈ as, ∀ c, d.resolved = some c →
      ((settle as env).value.2.types.classInfo c).fields =
        (env.types.classInfo c).fields.extend (d.fieldEntries env) := by
  let declared := as.mapM ClassDecl.declareMembers env
  let completed := declared.value.1.mapM ClassDecl.complete declared.value.2
  have hPlaced := h.toPlaced
  have hDeclared : Placed declared.value.1 declared.value.2 := hPlaced.declared
  have hCompleted : Placed completed.value.1 completed.value.2 := hDeclared.completed
  have hNumbers : declared.value.1.map ClassDecl.resolved = as.map ClassDecl.resolved :=
    resolved_mapM (fun d _ => d.resolved_declareMembers) env
  have hNumbers' : completed.value.1.map ClassDecl.resolved = as.map ClassDecl.resolved :=
    (resolved_mapM (fun d _ => d.resolved_complete) declared.value.2).trans hNumbers
  -- Every class has its turn in each of the passes.
  have hTurn : ∀ {as' : List ClassDecl}, as'.map ClassDecl.resolved = as.map ClassDecl.resolved →
      ∀ c, some c ∈ as.map ClassDecl.resolved → ∃ d ∈ as', d.resolved = some c := by
    intro as' hEq c hc
    rw [← hEq] at hc
    exact mem_map.mp hc
  have hBelow : ∀ {as' : List ClassDecl}, as'.map ClassDecl.resolved = as.map ClassDecl.resolved →
      ∀ d ∈ as', d.resolved ≠ some object := by
    intro as' hEq d hd hObject
    have hMem : d.resolved ∈ as.map ClassDecl.resolved := hEq ▸ mem_map_of_mem hd
    obtain ⟨d', hd', hSame⟩ := mem_map.mp hMem
    exact h.below d' hd' (hSame.trans hObject)
  have hFirst := (growsAmong_mapM hPlaced.known hPlaced.declareMembers.enlarges).types.extension
  have hSecond := (growsAmong_mapM hDeclared.known hDeclared.complete.enlarges).types.extension
  have hRoot : declared.value.2.types.classInfo object = initial.classInfo object :=
    (hPlaced.declareMembers.classInfo_root h.below).trans h.root
  have hRoot' : completed.value.2.types.classInfo object = initial.classInfo object :=
    (hDeclared.complete.classInfo_root (hBelow hNumbers)).trans hRoot
  have hLineal := h.lineal.of_outline hFirst.outline
  obtain ⟨hTended, hFields⟩ := tended_pass hPlaced h.start
  obtain ⟨hTidy, hLookups⟩ := completed_pass hDeclared hLineal (by rw [hRoot]; rfl) hTended
  obtain ⟨hTabulates, hTables⟩ := tabulated_pass hCompleted
  obtain ⟨-, -, hSameFields⟩ := fields_turns hDeclared
  have hLineal' := (hLineal.of_outline hSecond.outline).of_outline hTabulates.extension.outline
  have hLength : ∀ c : ClassId, c.index < (settle as env).value.2.types.classes.length →
      c.index < env.types.classes.length := by
    intro c hc
    rw [length_classes_of_outline hPlaced.growsAmong_settle.2.2.outline] at hc
    exact hc
  rw [settle_apply] at hLength ⊢
  have hClassFields := hTabulates.congr ClassInfo.fields fun _ => rfl
  have hMembers := hTabulates.congr ClassInfo.members fun _ => rfl
  refine ⟨⟨hLineal', ?_, ?_, ?_⟩, ?_⟩
  · intro c
    exact (hTidy c).congr hTabulates.extension.methods (hTabulates.own c) (by rw [hMembers c])
      (hClassFields c)
  · intro c hc name
    rw [lookupField, hMembers, ← lookupField, fieldType_congr hTabulates.extension.outline hClassFields]
    by_cases hObject : c = object
    · have hParent := (hLineal.of_outline hSecond.outline).root_parent
      rw [hObject, lookupField, fieldType, (hLineal.of_outline hSecond.outline).acyclic.chain_of_root hParent,
        List.findSome?_singleton, hRoot']
      rfl
    · obtain ⟨d, hd, hc⟩ := h.covered c (hLength c hc) hObject
      obtain ⟨d', hd', hc'⟩ := hTurn hNumbers c (hc ▸ mem_map_of_mem hd)
      exact hLookups d' hd' c hc' name
  · intro c hc
    by_cases hObject : c = object
    · have hRoot'' := (hCompleted.buildVMT.classInfo_root (hBelow hNumbers')).trans hRoot'
      rw [hObject]
      refine dispatchTable_root hLineal'.acyclic hRoot'' ?_
      rw [← h.methods]
      exact hFirst.methods.trans (hSecond.methods.trans hTabulates.extension.methods)
    · obtain ⟨d, hd, hc⟩ := h.covered c (hLength c hc) hObject
      obtain ⟨d', hd', hc'⟩ := hTurn hNumbers' c (hc ▸ mem_map_of_mem hd)
      exact hTables d' hd' c hc'
  · intro d hd c hResolved
    rw [hClassFields c, hSameFields c, hFields d hd c hResolved]

end Passes

/-! Whole programs. -/

namespace ClassDecl

variable {ds : List ClassDecl} {r : Registry}

/-- Numbers of classes in the order in which these are due. -/
theorem resolved_due (hFresh : ∀ d ∈ ds, d.resolved = none) :
    (due (r.declarationOrder (registered ds)) (registered ds)).map ClassDecl.resolved =
      (r.declarationOrder (registered ds)).map fun i => some (place ds i) := by
  rw [due, map_filterMap, ← filterMap_eq_map]
  refine filterMap_congr ?_
  intro i hi
  obtain ⟨d, c, hd, hc⟩ := mem_declarationOrder_iff.mp hi
  obtain ⟨d', hd', rfl⟩ := (resolved_registered_iff hFresh).mp ⟨d, hd, hc⟩
  rw [hd, Option.map_some, hc]
  rfl

end ClassDecl

namespace Gathered

open ClassDecl

variable {ds : List ClassDecl} {linked : Env}

/-- When classes are gathered they have no members, but for those of the root. -/
theorem tidyAt (h : Gathered ds linked env) (c : ClassId) : env.types.TidyAt c := by
  by_cases hc : c = object
  · have hRoot : env.types.CoherentAt (fun _ => True) object :=
      coherentAt_root trivial h.lineal.rooted h.linking.root (h.methods ▸ prefix_rfl)
    rw [hc]
    refine ⟨hRoot.table, hRoot.distinct, hRoot.bounded, ?_⟩
    rw [h.linking.root]
    exact nodup_nil
  · obtain ⟨name, hBare⟩ := h.linking.bare hc
    have hClass : env.types.CoherentAt (fun _ => True) c := coherentAt_bare hBare
    refine ⟨hClass.table, hClass.distinct, hClass.bounded, ?_⟩
    have hFields : (env.types.classInfo c).fields = [] := congrArg ClassInfo.fields hBare
    rw [hFields]
    exact nodup_nil

/-- The declarations that registered a class are those to be settled. -/
theorem unsettled (h : Gathered ds linked env) (hFresh : ∀ d ∈ ds, d.resolved = none) :
    Unsettled (due (env.types.declarationOrder (ClassDecl.registered ds)) (ClassDecl.registered ds)) env := by
  have hNumbers := resolved_due (r := env.types) hFresh
  have hNumber : ∀ d ∈ due (env.types.declarationOrder (ClassDecl.registered ds)) (ClassDecl.registered ds),
      ∃ i d', Registers ds i d' ∧ d.resolved = some (place ds i) := by
    intro d hd
    have hMem := hNumbers ▸ mem_map_of_mem (f := ClassDecl.resolved) hd
    obtain ⟨i, hi, hEq⟩ := mem_map.mp hMem
    obtain ⟨d', hd'⟩ := (mem_order_iff hFresh).mp hi
    exact ⟨i, d', hd', hEq.symm⟩
  exact {
    known := by
      intro d hd
      obtain ⟨i, d', hd', hResolved⟩ := hNumber d hd
      exact ⟨_, hResolved, (hd'.name_place h.names).1⟩
    distinct := by
      rw [hNumbers]
      refine List.Nodup.map_on ?_ (nodup_declarationOrder _ _)
      intro i hi j hj hEq
      obtain ⟨d, hd⟩ := (mem_order_iff hFresh).mp hi
      obtain ⟨d', hd'⟩ := (mem_order_iff hFresh).mp hj
      have hPlace := congrArg ClassId.index (Option.some.inj hEq)
      exact Nat.le_antisymm ((hd.place_le_iff hd').mp (Nat.le_of_eq hPlace))
        ((hd'.place_le_iff hd).mp (Nat.le_of_eq hPlace.symm))
    lineal := h.lineal
    start := fun c => ⟨h.tidyAt c, h.linking.fieldsOpen c⟩
    root := h.linking.root
    methods := h.methods
    below := by
      intro d hd hObject
      obtain ⟨i, d', -, hResolved⟩ := hNumber d hd
      exact Registers.place_ne_object ds i (Option.some.inj (hResolved.symm.trans hObject))
    covered := by
      intro c hc hBelow
      obtain ⟨i, d, hd, rfl⟩ := exists_registers_of_class h.names hc hBelow
      have hOrder := (mem_order_iff (r := env.types) hFresh).mpr ⟨d, hd⟩
      exact ⟨_, mem_filterMap.mpr ⟨i, hOrder, getElem?_registered hd⟩, rfl⟩ }

end Gathered

namespace Program

open ClassDecl

variable {p : Program}

/-- A program as it was read has no numbers yet, neither for its classes nor for their routines. -/
theorem resolved_of_isFresh (h : p.isFresh = true) (hd : d ∈ p.classes) :
    d.resolved = none ∧ d.routines = [] := by
  simp only [isFresh, Bool.and_eq_true, all_eq_true] at h
  have hClass := h.1 d hd
  simp only [ClassDecl.isFresh, Bool.and_eq_true, Option.isNone_iff_eq_none, all_eq_true] at hClass
  refine ⟨hClass.1, filterMap_eq_nil_iff.mpr ?_⟩
  intro member hMember
  have hFresh := hClass.2 member hMember
  cases member with
  | field d => rfl
  | method d =>
    simp only [Member.isFresh, MethodDecl.isFresh, Bool.and_eq_true, Option.isNone_iff_eq_none] at hFresh
    exact hFresh.1.1.2

/-- The classes of a program are declared, whatever was reported. -/
structure Established (ds : List ClassDecl) (classes : List ClassDecl) (env : Env) : Prop where
  consistent : env.types.Consistent
  apart : Apart (classes.flatMap routines) env
  position : env.position = {}
  globals : env.globals = {}
  bare : env.types.Bare
  names : env.types.classes.map ClassInfo.name = objectName :: (firsts ds).map ClassDecl.name
  fields : ∀ i d, Registers ds i d → (env.types.classInfo (place ds i)).fields =
    Bindings.extend [] (d.fieldEntries env)

/-- Whatever is reported, the tables of all classes are in order once the three passes are over. -/
theorem SettledInOrder.established {linked start : Env} {x : Checked (List ClassDecl × Env)}
    (hGathered : Gathered ds linked start) (hFresh : ∀ d ∈ ds, d.resolved = none ∧ d.routines = [])
    (h : SettledInOrder (start.types.declarationOrder (registered ds)) (registered ds) start x) :
    Established ds x.value.1 x.value.2 := by
  have hResolved := fun d hd => (hFresh d hd).1
  have hUnsettled := hGathered.unsettled hResolved
  obtain ⟨hConsistent, hFields⟩ := hUnsettled.consistent
  obtain ⟨hPosition, hGlobals, hExtends⟩ := hUnsettled.toPlaced.growsAmong_settle
  have hRoutines : ∀ (i : Nat) (d : ClassDecl), (registered ds)[i]? = some d → d.routines = [] := by
    intro i d hd
    obtain ⟨i, hi, rfl⟩ := mem_mapIdx.mp (mem_of_getElem? hd)
    have hNone := (hFresh _ (getElem_mem hi)).2
    split
    · exact hNone
    · exact hNone
  have hNone : ∀ d ∈ Analysis.due (start.types.declarationOrder (registered ds)) (registered ds), d.routines = [] := by
    intro d hd
    obtain ⟨i, -, hAt⟩ := mem_filterMap.mp hd
    exact hRoutines i d hAt
  have hApart := apart_settle hUnsettled.toPlaced hNone
  have hRest : ∀ (i : Nat) (d : ClassDecl), i ∉ start.types.declarationOrder (registered ds) → x.value.1[i]? = some d →
      d.routines = [] := by
    intro i d hi hd
    exact hRoutines i d (h.others i hi ▸ hd)
  have hPerm := perm_flatMap_due (nodup_declarationOrder _ _) hRest
  rw [h.due] at hPerm
  rw [h.env]
  exact {
    consistent := hConsistent
    apart := ⟨hPerm.nodup_iff.mp hApart.nodup, fun m hm => hApart.bounded m (hPerm.mem_iff.mpr hm)⟩
    position := hPosition.trans hGathered.position
    globals := hGlobals.trans hGathered.globals
    bare := by
      refine hExtends.bare ?_
      rw [Bare, hGathered.methods]
      decide
    names := by rw [names_of_outline hExtends.outline, hGathered.names]
    fields := by
      intro i d hd
      have hOrder := (mem_order_iff (r := start.types) hResolved).mpr ⟨d, hd⟩
      obtain ⟨name, hBare⟩ := hGathered.linking.bare (Registers.place_ne_object ds i)
      have hNone : (start.types.classInfo (place ds i)).fields = [] := congrArg ClassInfo.fields hBare
      rw [hFields _ (mem_filterMap.mpr ⟨i, hOrder, getElem?_registered hd⟩) _ rfl, hNone,
        ClassDecl.fieldEntries_of_outline hExtends.outline]
      rfl }

theorem established_declareClasses (hFresh : ∀ d ∈ ds, d.resolved = none ∧ d.routines = []) :
    Established ds (declareClasses ds {}).value.1 (declareClasses ds {}).value.2 := by
  obtain ⟨linked, start, hGathered, hCollect, -⟩ := exists_gathered fun d hd => (hFresh d hd).1
  obtain ⟨x, hSettled, hDeclare⟩ := exists_settledInOrder hCollect (nodup_declarationOrder _ _)
  have hEstablished := hSettled.established hGathered hFresh
  rw [hDeclare]
  exact hEstablished

end Program

end TLang
