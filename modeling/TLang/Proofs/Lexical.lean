import TLang.Proofs.Lookup
import TLang.Proofs.Occurrences

/-! Names are resolved in the order of the text. A variable of a body can be used behind its declaration,
wherever in the body that stands, unless a parameter has its name. Names that the body has not declared are
those of parameters and then of fields. The variables of the main block and those of methods do not see each
other. -/
namespace TLang

open Registry Analysis List

namespace Bindings

variable {b more : Bindings} {name : String}

theorem mem_names_extend : name ∈ (b.extend more).names ↔ name ∈ b.names ∨ name ∈ more.names := by
  rw [← not_iff_not, not_or, ← type?_eq_none_iff, ← type?_eq_none_iff, ← type?_eq_none_iff, type?_extend,
    Option.or_eq_none_iff]

/-- A name has both a rank and a type, or it is not declared. -/
theorem lookup_cases (b : Bindings) (name : String) :
    (∃ rank ty, b.position? name = some rank ∧ b.type? name = some ty ∧ b[rank]? = some (name, ty)) ∨
      (b.position? name = none ∧ name ∉ b.names) := by
  cases hRank : b.position? name with
  | none => exact .inr ⟨rfl, position?_eq_none_iff.mp hRank⟩
  | some rank =>
    cases hType : b.type? name with
    | none =>
      rw [position?_eq_none_iff.mpr (type?_eq_none_iff.mp hType)] at hRank
      cases hRank
    | some ty => exact .inl ⟨rank, ty, rfl, rfl, getElem?_of_position? hRank hType⟩

/-- In a table without repetitions a name has one rank and one type. -/
theorem getElem?_eq_some_iff (h : b.names.Nodup) {rank : Nat} {ty : Ty} :
    b[rank]? = some (name, ty) ↔ b.position? name = some rank ∧ b.type? name = some ty := by
  refine ⟨fun hEntry => ?_, fun ⟨hRank, hType⟩ => getElem?_of_position? hRank hType⟩
  have hRank := position?_of_getElem? h hEntry
  rcases b.lookup_cases name with ⟨rank', ty', hRank', hType, hEntry'⟩ | ⟨hNone, -⟩
  · cases hRank.symm.trans hRank'
    cases hEntry.symm.trans hEntry'
    exact ⟨hRank, hType⟩
  · cases hRank.symm.trans hNone

/-- The declarations of variables that are accepted behind some parameters: the first one of each name that
is not a parameter. -/
def accepted (params declared : Bindings) : Bindings :=
  extend [] (declared.filter fun d => !params.declares d.1)

end Bindings

/-- The declaration that an event makes, with the type that it gives. -/
def ScopeEvent.declaration? (env : Env) : ScopeEvent → Option (String × Ty)
  | use _ => none
  | declare line type name => some (name, (env.resolveTypeName line type).value)

namespace Env

/-- The declarations among some events. -/
def declarations (env : Env) (events : List ScopeEvent) : Bindings :=
  events.filterMap (·.declaration? env)

/-- The parameters in sight. -/
def params (env : Env) : Bindings := (env.method?.map MethodInfo.params).getD []

variable {env : Env}

theorem isTaken_eq (env : Env) (name : String) :
    env.isTaken name = (env.params.declares name || env.scopeTable.names.declares name) := by
  rw [isTaken, params]
  cases env.method? <;> rfl

theorem params_allot (hKeeps : env.KeepsScope) (name : String) (ty : Ty) :
    (env.allot name ty).params = env.params := by
  have hInterface : SameInterface env.types (env.allot name ty).types := hKeeps.interface_setScopeTable _
  rw [params, params, method?, method?, position_allot]
  cases env.position.method? with
  | none => rfl
  | some m => exact hInterface.params m

theorem declarations_of_outline {env' : Env} (h : env'.types.outline = env.types.outline)
    (events : List ScopeEvent) : env'.declarations events = env.declarations events := by
  refine filterMap_congr fun event _ => ?_
  cases event with
  | use e => rfl
  | declare line type name =>
    rw [ScopeEvent.declaration?, ScopeEvent.declaration?, resolveTypeName_of_outline h]

/-- The table of a scope holds the declarations that were accepted. -/
theorem names_after (hKeeps : env.KeepsScope) (events : List ScopeEvent) :
    (env.after events).scopeTable.names =
      env.scopeTable.names.extend ((env.declarations events).filter fun d => !env.params.declares d.1) := by
  induction events generalizing env with
  | nil => rfl
  | cons event events ih =>
    cases event with
    | use e => exact ih hKeeps
    | declare line type name =>
      have hDeclarations := declarations_of_outline (env.outline_step (.declare line type name)) events
      have hCons : env.declarations (.declare line type name :: events) =
          (name, (env.resolveTypeName line type).value) :: env.declarations events := rfl
      rw [after_cons, hCons, filter_cons]
      rw [step_declare, isTaken_eq] at hDeclarations ⊢
      by_cases hParam : env.params.declares name = true
      · simp only [hParam, Bool.true_or, if_true, Bool.not_true, Bool.false_eq_true, if_false]
        exact ih hKeeps
      · simp only [hParam, Bool.false_or, Bool.not_false, if_true] at hDeclarations ⊢
        rw [Bindings.extend_cons, Bindings.addNew]
        by_cases hKnown : env.scopeTable.names.declares name = true
        · rw [if_pos hKnown, Bindings.add?, if_pos hKnown]
          exact ih hKeeps
        · rw [if_neg hKnown] at hDeclarations ⊢
          have hAllot : (env.allot name (env.resolveTypeName line type).value).KeepsScope :=
            hKeeps.setScopeTable _
          rw [Bindings.add?, if_neg hKnown, Option.getD_some, ih hAllot, hDeclarations,
            params_allot hKeeps, allot, hKeeps.scopeTable_setScopeTable]

end Env

/-- The names and types of the parameters that a method lists. -/
def MethodDecl.paramEntries (env : Env) (d : MethodDecl) : Bindings :=
  d.params.map fun param => (param.name, (env.resolveTypeName param.line param.type).value)

theorem MethodDecl.paramEntries_of_outline {env env' : Env} (h : env'.types.outline = env.types.outline)
    (d : MethodDecl) : d.paramEntries env' = d.paramEntries env :=
  map_congr_left fun param _ => by rw [Env.resolveTypeName_of_outline h]

/-- Of several parameters of one name the first one counts. -/
theorem Analysis.value_resolveParams (method : String) (params : List Param) (known : Bindings) (env : Env) :
    (resolveParams method params known env).value.1 =
      known.extend (params.map fun param => (param.name, (env.resolveTypeName param.line param.type).value)) := by
  induction params generalizing known with
  | nil => rfl
  | cons param rest ih =>
    rw [map_cons, Bindings.extend_cons, Bindings.addNew, resolveParams, value_bind, value_read]
    cases known.add? param.name (env.resolveTypeName param.line param.type).value with
    | none => exact ih known
    | some known' => exact ih known'

/-- What a name stands for in a method of a class, behind some declarations. It is a variable if it was
declared and is not a parameter; otherwise it is a parameter, or otherwise the field that is the nearest on
the line of the class. It is never a variable of the main block. -/
structure Registry.NamesInMethod (r : Registry) (c : ClassId) (params declared : Bindings) (name : String)
    (found : Option (Ty × Storage)) : Prop where
  localVar_iff : (∃ ty i, found = some (ty, .localVar i)) ↔ name ∈ declared.names ∧ name ∉ params.names
  rank : ∀ ty i, found = some (ty, .localVar i) → (Bindings.accepted params declared)[i]? = some (name, ty)
  param_iff : ∀ ty j, found = some (ty, .param j) ↔ params[j]? = some (name, ty)
  field_iff : (∃ ty offset, found = some (ty, .field offset)) ↔
    name ∉ declared.names ∧ name ∉ params.names ∧ ∃ a ∈ r.chain c, r.DeclaresField name a
  nearest : ∀ ty offset, found = some (ty, .field offset) → r.fieldOffset c name = some offset ∧
    ∃ owner, r.NearestOn c (r.DeclaresField name) owner ∧ (r.classInfo owner).fields.type? name = some ty
  none_iff : found = none ↔
    name ∉ declared.names ∧ name ∉ params.names ∧ ∀ a ∈ r.chain c, ¬ r.DeclaresField name a
  apart : ∀ ty, found ≠ some (ty, .mainVar)

/-- What a name stands for in the main block, behind some declarations. -/
structure NamesInMain (declared : Bindings) (name : String) (found : Option (Ty × Storage)) : Prop where
  mainVar_iff : ∀ ty, found = some (ty, .mainVar) ↔ declared.type? name = some ty
  none_iff : found = none ↔ name ∉ declared.names
  only : ∀ ty storage, found = some (ty, storage) → storage = .mainVar

theorem Bindings.mem_names_accepted {params declared : Bindings} {name : String} :
    name ∈ (accepted params declared).names ↔ name ∈ declared.names ∧ name ∉ params.names := by
  rw [accepted, mem_names_extend]
  simp only [names, map_nil, not_mem_nil, false_or, mem_map, mem_filter,
    Bool.not_eq_true', ← Bool.not_eq_true, declares_iff]
  constructor
  · rintro ⟨entry, ⟨hEntry, hParam⟩, rfl⟩
    exact ⟨⟨entry, hEntry, rfl⟩, hParam⟩
  · rintro ⟨⟨entry, hEntry, rfl⟩, hParam⟩
    exact ⟨entry, ⟨hEntry, hParam⟩, rfl⟩

namespace Registry.NamesInMethod

variable {r : Registry} {c : ClassId} {params declared : Bindings} {name : String} {ty : Ty}

/-- A name among the accepted declarations is a variable. A parameter of that name excludes this. -/
theorem of_localVar {i : Nat} (h : (Bindings.accepted params declared)[i]? = some (name, ty)) :
    r.NamesInMethod c params declared name (some (ty, .localVar i)) := by
  have hName : name ∈ declared.names ∧ name ∉ params.names :=
    Bindings.mem_names_accepted.mp (mem_map_of_mem (mem_of_getElem? h))
  constructor
  · exact iff_of_true ⟨ty, i, rfl⟩ hName
  · rintro _ _ ⟨⟩
    exact h
  · intro ty' j
    refine iff_of_false (by rintro ⟨⟩) fun hParam => ?_
    exact hName.2 (mem_map_of_mem (mem_of_getElem? hParam))
  · exact iff_of_false (by rintro ⟨_, _, ⟨⟩⟩) fun hField => hField.1 hName.1
  · rintro _ _ ⟨⟩
  · exact iff_of_false (by rintro ⟨⟩) fun hNone => hNone.1 hName.1
  · rintro _ ⟨⟩

/-- A parameter is found whatever is declared in the body. Its place is unique since no two parameters share a
name. -/
theorem of_param {j : Nat} (hNodup : params.names.Nodup) (h : params[j]? = some (name, ty)) :
    r.NamesInMethod c params declared name (some (ty, .param j)) := by
  have hName : name ∈ params.names := mem_map_of_mem (mem_of_getElem? h)
  constructor
  · exact iff_of_false (by rintro ⟨_, _, ⟨⟩⟩) fun hLocal => hLocal.2 hName
  · rintro _ _ ⟨⟩
  · intro ty' j'
    constructor
    · rintro ⟨⟩
      exact h
    · intro h'
      obtain ⟨hRank, hType⟩ := (Bindings.getElem?_eq_some_iff hNodup).mp h
      obtain ⟨hRank', hType'⟩ := (Bindings.getElem?_eq_some_iff hNodup).mp h'
      cases hRank.symm.trans hRank'
      cases hType.symm.trans hType'
      rfl
  · exact iff_of_false (by rintro ⟨_, _, ⟨⟩⟩) fun hField => hField.2.1 hName
  · rintro _ _ ⟨⟩
  · exact iff_of_false (by rintro ⟨⟩) fun hNone => hNone.2.1 hName
  · rintro _ ⟨⟩

/-- A name that the method does not declare is the field of the nearest ancestor that has one. -/
theorem of_field {offset : Nat} (hDeclared : name ∉ declared.names) (hParam : name ∉ params.names)
    (hType : r.fieldType c name = some ty) (hOffset : r.fieldOffset c name = some offset) :
    r.NamesInMethod c params declared name (some (ty, .field offset)) := by
  obtain ⟨owner, hNearest, hOwner⟩ := nearestOn_of_fieldType hType
  constructor
  · exact iff_of_false (by rintro ⟨_, _, ⟨⟩⟩) fun hLocal => hDeclared hLocal.1
  · rintro _ _ ⟨⟩
  · intro ty' j
    refine iff_of_false (by rintro ⟨⟩) fun hEntry => ?_
    exact hParam (mem_map_of_mem (mem_of_getElem? hEntry))
  · exact iff_of_true ⟨ty, offset, rfl⟩ ⟨hDeclared, hParam, owner, hNearest.mem_chain, hNearest.has⟩
  · rintro _ _ ⟨⟩
    exact ⟨hOffset, owner, hNearest, hOwner⟩
  · exact iff_of_false (by rintro ⟨⟩) fun hNone => hNone.2.2 owner hNearest.mem_chain hNearest.has
  · rintro _ ⟨⟩

/-- A name that neither the method nor an ancestor declares is not found. Variables of the main block do not
count. -/
theorem of_none (hDeclared : name ∉ declared.names) (hParam : name ∉ params.names)
    (hType : r.fieldType c name = none) : r.NamesInMethod c params declared name none := by
  have hField := fieldType_eq_none_iff.mp hType
  constructor
  · exact iff_of_false (by rintro ⟨_, _, ⟨⟩⟩) fun hLocal => hDeclared hLocal.1
  · rintro _ _ ⟨⟩
  · intro ty' j
    refine iff_of_false (by rintro ⟨⟩) fun hEntry => ?_
    exact hParam (mem_map_of_mem (mem_of_getElem? hEntry))
  · exact iff_of_false (by rintro ⟨_, _, ⟨⟩⟩) fun ⟨_, _, a, ha, hDeclares⟩ => hField a ha hDeclares
  · rintro _ _ ⟨⟩
  · exact iff_of_true rfl ⟨hDeclared, hParam, hField⟩
  · rintro _ ⟨⟩

end Registry.NamesInMethod

/-- A name that is neither a variable nor a parameter is looked up among the fields of the class. -/
theorem Env.fieldVariable_cases {env : Env} {m : MethodId} (hScope : env.position.scope = .method m)
    (hConsistent : env.types.Consistent)
    (hRegistered : (env.types.methodInfo m).owner.index < env.types.classes.length) (name : String) :
    (∃ ty offset, env.fieldVariable (env.types.methodInfo m) name = some (ty, .field offset) ∧
        env.types.fieldType (env.types.methodInfo m).owner name = some ty ∧
        env.types.fieldOffset (env.types.methodInfo m).owner name = some offset) ∨
      env.fieldVariable (env.types.methodInfo m) name = none ∧
        env.types.fieldType (env.types.methodInfo m).owner name = none := by
  cases hType : env.types.fieldType (env.types.methodInfo m).owner name with
  | some ty =>
    obtain ⟨owner, rank, hCell⟩ := hConsistent.fieldCell hRegistered hType
    exact .inl ⟨ty, _, (fieldVariable_eq_some_iff hScope).mpr ⟨hCell.lookup, _, hCell.offset, rfl⟩, rfl,
      hCell.offset⟩
  | none =>
    refine .inr ⟨?_, rfl⟩
    by_contra hSome
    obtain ⟨⟨ty, storage⟩, hFound⟩ := Option.ne_none_iff_exists'.mp hSome
    have hLookup := ((fieldVariable_eq_some_iff hScope).mp hFound).1
    rw [hConsistent.lookups _ hRegistered, hType] at hLookup
    cases hLookup

/-- In a method names are found as the order of declarations says. -/
theorem Env.namesInMethod {env : Env} {r : Registry} {m : MethodId} {c : ClassId} {params declared : Bindings}
    (hScope : env.position.scope = .method m) (hInterface : SameInterface r env.types)
    (hConsistent : r.Consistent) (hRegistered : c.index < r.classes.length)
    (hOwner : (env.types.methodInfo m).owner = c) (hParams : (env.types.methodInfo m).params = params)
    (hNodup : params.names.Nodup)
    (hLocals : (env.types.methodInfo m).locals.names = Bindings.accepted params declared) (name : String) :
    r.NamesInMethod c params declared name (env.resolveVariable name) := by
  have hField := fieldVariable_cases hScope (hInterface.consistent hConsistent)
    (by rw [hOwner, hInterface.classes]; exact hRegistered) name
  rw [hOwner, hInterface.fieldType, hInterface.fieldOffset] at hField
  rw [resolveVariable_of_method hScope, MethodInfo.localVariable, MethodInfo.paramVariable, hParams, hLocals]
  rcases (Bindings.accepted params declared).lookup_cases name with
    ⟨i, ty, hRank, hType, hEntry⟩ | ⟨hRank, hLocal⟩
  · rw [hRank, hType]
    exact .of_localVar hEntry
  · rcases params.lookup_cases name with ⟨j, ty, hIndex, hType, hEntry⟩ | ⟨hIndex, hParam⟩
    · rw [hRank, hIndex, hType]
      exact .of_param hNodup hEntry
    · have hDeclared : name ∉ declared.names := fun h => hLocal (Bindings.mem_names_accepted.mpr ⟨h, hParam⟩)
      rw [hRank, hIndex]
      rcases hField with
        ⟨ty, offset, hFound, hType, hOffset⟩ | ⟨hFound, hType⟩
      · rw [hFound]
        exact .of_field hDeclared hParam hType hOffset
      · rw [hFound]
        exact .of_none hDeclared hParam hType

/-- In the main block names are found as the order of declarations says. -/
theorem Env.namesInMain {env : Env} {declared : Bindings} (hScope : env.position.scope = .program)
    (hGlobals : env.globals.names = Bindings.extend [] declared) (name : String) :
    NamesInMain declared name (env.resolveVariable name) := by
  have hType : env.globals.names.type? name = declared.type? name := by
    rw [hGlobals, Bindings.type?_extend]
    rfl
  rw [resolveVariable_of_program hScope, hType]
  constructor
  · intro ty
    simp
  · rw [Option.map_eq_none_iff, Bindings.type?_eq_none_iff]
  · intro ty storage hFound
    obtain ⟨ty', -, hEq⟩ := Option.map_eq_some_iff.mp hFound
    cases hEq
    rfl

/-- How a body is typed in which `names` tells what a name stands for behind some events. A variable whose
name stands for something is read from its storage, any other is in error and reported by one diagnostic that
is not terminal. The typed tree and the diagnostics show this of each variable, in order. -/
structure Stmt.BoundAlong (body : List Stmt) (start : Env) (typing : Checked (List Stmt × Env))
    (names : List ScopeEvent → String → Option (Ty × Storage) → Prop) : Prop where
  found : ∀ t ∈ sites body, names t.1 t.2.name ((start.after t.1).resolveVariable t.2.name)
  read : ∀ t ∈ sites body, ∀ ty storage, (start.after t.1).resolveVariable t.2.name = some (ty, storage) →
    (Expr.var ⟨t.2.line, .untyped⟩ t.2.name none).analyze (start.after t.1) =
      pure (.deref ⟨t.2.line, ty⟩ (.var ⟨t.2.line, .address⟩ t.2.name (some storage)))
  failed : ∀ t ∈ sites body, (start.after t.1).resolveVariable t.2.name = none →
    ∃ report : Diagnostic, report.isTerminal = false ∧
      (Expr.var ⟨t.2.line, .untyped⟩ t.2.name none).analyze (start.after t.1) =
        ⟨.var ⟨t.2.line, .error⟩ t.2.name none, [report]⟩
  tree : occurrences (partsOfAll typing.value.1) = (sites body).map fun t => (start.after t.1).bind t.2
  reports : undeclared typing.log = (sites body).filterMap fun t => (start.after t.1).unresolved? t.2

/-- Every occurrence of a name in a body is resolved in the environment behind the declarations in front of it,
so a rule for environments is a rule for occurrences. -/
theorem Stmt.boundAlong_analyzeBody {isConstructor : Bool} {body : List Stmt} {start : Env}
    {names : List ScopeEvent → String → Option (Ty × Storage) → Prop}
    (h : ∀ before name, names before name ((start.after before).resolveVariable name)) :
    BoundAlong body start (analyzeBody isConstructor body start) names := by
  obtain ⟨hTree, hReports⟩ := sites_analyzeBody isConstructor body start
  refine ⟨fun t _ => h t.1 t.2.name, ?_, ?_, hTree, hReports⟩
  · intro t _ ty storage hFound
    rw [Expr.analyze, Env.analyzeVar, hFound]
    rfl
  · intro t _ hNone
    refine ⟨⟨t.2.line, .undeclaredVariable t.2.name⟩, rfl, ?_⟩
    rw [Expr.analyze, Env.analyzeVar, hNone]
    rfl

namespace Program

variable {p : Program}

/-- The parameters of a method, of several of one name the first. -/
def paramsOf (p : Program) (d : MethodDecl) : Bindings := Bindings.extend [] (d.paramEntries p.env)

/-- What a name stands for behind some events in the body of a method. -/
theorem namesInMethod (hFresh : p.isFresh = true) {s : MethodStart} (hs : s ∈ p.methodStarts)
    (before : List ScopeEvent) (name : String) :
    p.env.types.NamesInMethod s.cls (p.paramsOf s.decl) (p.env.declarations before) name
      ((s.env.after before).resolveVariable name) := by
  have hStarts := startsMethod hFresh hs
  have hEnv := sameInterface_env hFresh
  have hAllots := s.env.allots_after before
  have hOwn := hAllots.interface hStarts.keepsScope
  have hInterface : SameInterface p.env.types s.env.types := hEnv.symm.trans hStarts.interface
  have hScope : (s.env.after before).position.scope = .method s.method := by
    rw [hAllots.position, hStarts.scope]
  have hParams : (s.env.types.methodInfo s.method).params = p.paramsOf s.decl := by
    rw [hStarts.info, paramsOf, MethodDecl.paramEntries_of_outline hEnv.outline]
    exact value_resolveParams _ _ _ _
  have hNodup : (p.paramsOf s.decl).names.Nodup := Bindings.nodup_names_extend nodup_nil
  refine Env.namesInMethod hScope (hInterface.trans hOwn) (consistent_analyze hFresh).1 ?_ ?_ ?_ hNodup ?_ name
  · exact hInterface.classes ▸ hStarts.registered
  · rw [hOwn.owner, hStarts.info]
    rfl
  · rw [hOwn.params, hParams]
  · have hTable := Env.names_after hStarts.keepsScope before
    have hSight : s.env.params = p.paramsOf s.decl := by
      rw [Env.params, Env.method?_of_scope hStarts.scope]
      exact hParams
    have hEmpty : s.env.scopeTable.names = [] := by
      rw [Env.scopeTable, hStarts.scope]
      exact congrArg (fun info : MethodInfo => info.locals.names) hStarts.info
    rw [hEmpty, hSight, Env.declarations_of_outline hInterface.outline, Env.scopeTable, hScope] at hTable
    exact hTable

/-- What a name stands for behind some events in the main block. -/
theorem namesInMain (hFresh : p.isFresh = true) (before : List ScopeEvent) (name : String) :
    NamesInMain (p.env.declarations before) name ((p.mainStart.after before).resolveVariable name) := by
  have hStarts := startsMain hFresh
  have hAllots := p.mainStart.allots_after before
  have hInterface : SameInterface p.env.types p.mainStart.types :=
    (sameInterface_env hFresh).symm.trans hStarts.interface
  have hScope : (p.mainStart.after before).position.scope = .program := by
    rw [hAllots.position, hStarts.scope]
  refine Env.namesInMain hScope ?_ name
  have hTable := Env.names_after hStarts.keepsScope before
  have hSight : p.mainStart.params = [] := by
    rw [Env.params, Env.method?_of_program hStarts.scope]
    rfl
  have hEmpty : p.mainStart.scopeTable.names = [] := by
    rw [Env.scopeTable, hStarts.scope, hStarts.globals]
  have hAll : ∀ declared : Bindings, declared.filter (fun d => !Bindings.declares [] d.1) = declared :=
    fun declared => filter_eq_self.mpr fun _ _ => rfl
  rw [hEmpty, hSight, Env.declarations_of_outline hInterface.outline, hAll, Env.scopeTable, hScope] at hTable
  exact hTable

/-- Variables are bound in the order of the text. Each method of the analyzed program is one whose body was
typed from its start; there a name is a variable of the body if its declaration came before and no parameter
has the name, otherwise a parameter, otherwise the nearest field, and otherwise undeclared. In the main block
it is a variable if its declaration came before, and otherwise undeclared. -/
theorem names_resolved_lexically (hFresh : p.isFresh = true) :
    (∀ d ∈ p.analyzed.classes, ∀ c, d.resolved = some c → ∀ f, .method f ∈ d.members →
        ∀ m, f.resolved = some m → ∃ s ∈ p.methodStarts, s.cls = c ∧ s.method = m ∧ s.typed = f) ∧
      (∀ s ∈ p.methodStarts, Stmt.BoundAlong s.decl.fullBody s.env s.typing fun before name found =>
        p.env.types.NamesInMethod s.cls (p.paramsOf s.decl) (p.env.declarations before) name found) ∧
      p.analyzed.main.body = p.mainTyping.value.1 ∧
      (Stmt.BoundAlong p.main.body p.mainStart p.mainTyping fun before name found =>
        NamesInMain (p.env.declarations before) name found) ∧
      p.diagnostics = (declareClasses p.classes {}).log ++
        (p.methodStarts.flatMap (·.typing.log) ++ p.mainTyping.log) :=
  ⟨fun _ hd _ hc _ hf _ hm => exists_methodStart hd hc hf hm,
    fun _ hs => Stmt.boundAlong_analyzeBody fun before name => namesInMethod hFresh hs before name,
    p.analyzed_main_body, Stmt.boundAlong_analyzeBody fun before name => namesInMain hFresh before name,
    p.diagnostics_bodies⟩

/-- A method that uses a field, declares a variable of the same name inside a block and uses it behind the
block, and a main block that uses a variable before it declares it. -/
def shadowed : Program where
  classes := [{ line := 1, name := "A", members := [
    .field { line := 2, type := .int, names := ["f", "x"] },
    .method { line := 3, name := "m", returns := some .int, params := [⟨3, .int, "k"⟩]
              body := [
                .expr 4 (.assign 4 (.var 4 "x" none) (.var 4 "k" none)),
                .block 5 [.declare 6 .int ["k", "x"]],
                .expr 7 (.assign 7 (.var 7 "x" none) (.var 7 "f" none)),
                .ret 8 (some (.binary 8 .add (.var 8 "k" none) (.var 8 "y" none))) none] }] }]
  main := ⟨9, [.print 10 (.var 10 "y" none), .declare 11 .int ["y"], .print 12 (.var 12 "y" none)]⟩

theorem names_resolved_lexically_shadowed : shadowed.isFresh = true ∧ (∃ s ∈ shadowed.methodStarts,
      (Stmt.occurrences (Stmt.partsOfAll s.typed.body)).map Occurrence.storage =
        [some (.field 8), some (.param 0), some (.localVar 0), some (.field 4), some (.param 0), none] ∧
      undeclared s.typing.log = [(8, "y")] ∧
      Stmt.BoundAlong s.decl.fullBody s.env s.typing fun before name found =>
        shadowed.env.types.NamesInMethod s.cls (shadowed.paramsOf s.decl) (shadowed.env.declarations before)
          name found) ∧
    (Stmt.occurrences (Stmt.partsOfAll shadowed.analyzed.main.body)).map Occurrence.storage =
      [none, some .mainVar] ∧
    Stmt.BoundAlong shadowed.main.body shadowed.mainStart shadowed.mainTyping fun before name found =>
      NamesInMain (shadowed.env.declarations before) name found := by
  have hFresh : shadowed.isFresh = true := by decide
  obtain ⟨-, hMethods, -, hMain, -⟩ := names_resolved_lexically hFresh
  have hRun : ∃ s ∈ shadowed.methodStarts,
      (Stmt.occurrences (Stmt.partsOfAll s.typed.body)).map Occurrence.storage =
        [some (.field 8), some (.param 0), some (.localVar 0), some (.field 4), some (.param 0), none] ∧
      undeclared s.typing.log = [(8, "y")] := by
    decide +kernel
  obtain ⟨s, hs, hStorage, hUndeclared⟩ := hRun
  exact ⟨hFresh, ⟨s, hs, hStorage, hUndeclared, hMethods s hs⟩, by decide +kernel, hMain⟩

end Program
end TLang
