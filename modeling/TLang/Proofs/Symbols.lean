import TLang.Proofs.Registry.Signatures
import TLang.Proofs.Routines

/-! The names that the assembly of a program defines: the tables of its classes, the entries and
exits of its routines, and the variables of the main block. All but the entry of the program are
made of two parts, and the names of two places are the same just if both parts are. That happens
where the names of a program read like the words that are put behind them. -/
namespace TLang

open Registry Emit List

variable {m : MethodId} {p : Program} {Γ : Env} {bs : List Routine}

variable {c : ClassId} {x : String}

/-- A name in two parts. -/
def qualified (owner text : String) : String := owner ++ "$" ++ text

theorem toList_qualified (owner text : String) :
    (qualified owner text).toList = owner.toList ++ separator :: text.toList := by
  simp [qualified, separator]

/-- The parts can be told apart where the first one holds no separator. -/
theorem qualified_inj {owner owner' text text' : String} (h : Unseparated owner)
    (h' : Unseparated owner') :
    qualified owner text = qualified owner' text' ↔ owner = owner' ∧ text = text' := by
  have hHead : ∀ {name : String} (rest : List Char), Unseparated name →
      (name.toList ++ separator :: rest).takeWhile (· ≠ separator) = name.toList := by
    intro name rest hName
    exact takeWhile_append_of_unseparated hName (takeWhile_cons_of_neg (by simp))
  constructor
  · intro hEq
    have hList := congrArg String.toList hEq
    rw [toList_qualified, toList_qualified] at hList
    have hOwner : owner = owner' := by
      apply String.toList_inj.mp
      rw [← hHead text.toList h, hList, hHead text'.toList h']
    subst hOwner
    refine ⟨rfl, ?_⟩
    exact String.toList_inj.mp (List.cons.inj (append_cancel_left hList)).2
  · rintro ⟨rfl, rfl⟩
    rfl

/-- A name in two parts holds the separator. -/
theorem not_unseparated_qualified (owner text : String) : ¬ Unseparated (qualified owner text) := by
  simp [Unseparated, toList_qualified]

/-- The part behind the last separator is determined. -/
theorem last_inj {front front' : List Char} {last last' : String} (h : Unseparated last)
    (h' : Unseparated last')
    (hEq : front ++ separator :: last.toList = front' ++ separator :: last'.toList) :
    last = last' := by
  have hLast : ∀ (front : List Char) {last : String}, Unseparated last →
      (front ++ separator :: last.toList).reverse.takeWhile (· ≠ separator) =
        last.toList.reverse := by
    intro front last hLast
    have hReverse : Unseparated (.ofList last.toList.reverse) := by
      simpa [Unseparated] using hLast
    have hTake := takeWhile_append_of_unseparated hReverse
      (takeWhile_cons_of_neg (by simp) : (separator :: front.reverse).takeWhile _ = [])
    simpa using hTake
  apply String.toList_inj.mp
  apply reverse_injective
  rw [← hLast front h, hEq, hLast front' h']

/-- What the exit of a routine is called inside its class. -/
def exitOf (signature : String) : String := signature ++ "$exit"

theorem exitOf_inj {signature signature' : String} (h : exitOf signature = exitOf signature') :
    signature = signature' := by
  have hList := congrArg String.toList h
  simp only [exitOf, String.toList_append] at hList
  exact String.toList_inj.mp (append_cancel_right hList)

theorem exitOf_ne (signature : String) : exitOf signature ≠ signature := by
  intro h
  have hLength := congrArg (fun text => text.toList.length) h
  simp [exitOf] at hLength

/-- The exit of a routine is never named like one part of a name. -/
theorem not_unseparated_exitOf (signature : String) : ¬ Unseparated (exitOf signature) := by
  simp [Unseparated, exitOf, separator]

theorem mainVarLabel_eq (name : String) : mainVarLabel name = qualified "mainvar" name := rfl

theorem mainExit_eq : MainBlock.exitLabel = qualified "main" "exit" := rfl

namespace Registry

variable {names : String → Prop} {r : Registry} {globals : List String}

theorem vmtLabel_eq (c : ClassInfo) : c.vmtLabel = qualified c.name "VMT" := by
  apply String.toList_inj.mp
  simp [ClassInfo.vmtLabel, qualified]

theorem Coherent.label_eq (h : r.Coherent names) (hm : m ∈ (r.classInfo c).methods) :
    (r.methodInfo m).label = qualified (r.classInfo c).name (r.methodInfo m).signature :=
  ((h c).routine m hm).label

theorem Coherent.exitLabel_eq (h : r.Coherent names) (hm : m ∈ (r.classInfo c).methods) :
    (r.methodInfo m).exitLabel =
      qualified (r.classInfo c).name (exitOf (r.methodInfo m).signature) := by
  rw [MethodInfo.exitLabel, h.label_eq hm, qualified, qualified, exitOf, String.append_assoc]

/-- The names that tables define. -/
def tableSymbols (r : Registry) : List String := r.classes.map ClassInfo.vmtLabel

/-- The names that routines define. -/
def routineSymbols (r : Registry) : List String :=
  r.routines.flatMap fun m => [(r.methodInfo m).label, (r.methodInfo m).exitLabel]

/-- The names that the main block defines. -/
def mainSymbols (globals : List String) : List String :=
  MainBlock.entryLabel :: (globals.map mainVarLabel ++ [MainBlock.exitLabel])

/-- All names that the assembly of a program defines. -/
def symbols (r : Registry) (globals : List String) : List String :=
  r.tableSymbols ++ r.routineSymbols ++ mainSymbols globals

/-- The words that places are named by. -/
def placeWords : List String := ["VMT", "exit", "main", "mainvar"]

/-- Two places have the same name. -/
inductive Clash (r : Registry) (globals : List String) : Prop where
  /-- A routine is named like the table of its class. -/
  | table {c : ClassId} {m : MethodId} (hm : m ∈ (r.classInfo c).methods)
      (hSignature : (r.methodInfo m).signature = "VMT")
  /-- A routine is named like the exit of another one. -/
  | exit {c : ClassId} {m m' : MethodId} (hm : m ∈ (r.classInfo c).methods)
      (hm' : m' ∈ (r.classInfo c).methods)
      (hSignature : (r.methodInfo m).signature = exitOf (r.methodInfo m').signature)
  /-- A routine is named like the exit of the main block. -/
  | main {c : ClassId} {m : MethodId} (hName : (r.classInfo c).name = "main")
      (hm : m ∈ (r.classInfo c).methods) (hSignature : (r.methodInfo m).signature = "exit")
  /-- A variable of the main block is named like a table. -/
  | tableVar {c : ClassId} (hName : (r.classInfo c).name = "mainvar")
      (hc : c.index < r.classes.length) (hVar : "VMT" ∈ globals)
  /-- A variable of the main block is named like a routine or like the exit of one. -/
  | routineVar {c : ClassId} {m : MethodId} {x : String} (hName : (r.classInfo c).name = "mainvar")
      (hm : m ∈ (r.classInfo c).methods) (hVar : x ∈ globals)
      (hSignature : x = (r.methodInfo m).signature ∨ x = exitOf (r.methodInfo m).signature)

theorem mem_tableSymbols : x ∈ r.tableSymbols ↔
    ∃ c : ClassId, c.index < r.classes.length ∧ x = qualified (r.classInfo c).name "VMT" := by
  rw [tableSymbols, mem_map]
  constructor
  · rintro ⟨info, hInfo, rfl⟩
    obtain ⟨c, hc, rfl⟩ := exists_classInfo hInfo
    exact ⟨c, hc, vmtLabel_eq _⟩
  · rintro ⟨c, hc, rfl⟩
    refine ⟨r.classInfo c, ?_, vmtLabel_eq _⟩
    simp [classInfo, hc]

/-- Each routine of a class defines two symbols, where it starts and where it ends. Both are made from its
signature. -/
theorem Coherent.mem_routineSymbols (h : r.Coherent names) : x ∈ r.routineSymbols ↔
    ∃ c m, m ∈ (r.classInfo c).methods ∧
      (x = qualified (r.classInfo c).name (r.methodInfo m).signature ∨
        x = qualified (r.classInfo c).name (exitOf (r.methodInfo m).signature)) := by
  rw [routineSymbols, mem_flatMap]
  constructor
  · rintro ⟨m, hm, hx⟩
    obtain ⟨c, hm⟩ := mem_routines.mp hm
    rw [h.label_eq hm, h.exitLabel_eq hm] at hx
    exact ⟨c, m, hm, by simpa using hx⟩
  · rintro ⟨c, m, hm, hx⟩
    refine ⟨m, mem_routines.mpr ⟨c, hm⟩, ?_⟩
    rw [h.label_eq hm, h.exitLabel_eq hm]
    simpa using hx

theorem mem_mainSymbols : x ∈ mainSymbols globals ↔
    x = "main" ∨ (∃ name ∈ globals, x = qualified "mainvar" name) ∨ x = qualified "main" "exit" := by
  simp only [mainSymbols, mem_cons, mem_append, mem_map, not_mem_nil, or_false,
    mainVarLabel_eq, mainExit_eq, MainBlock.entryLabel, eq_comm]

/-- Dispatch tables are named after their classes, whose names are different. -/
theorem Lineal.nodup_tableSymbols (h : r.Lineal) : r.tableSymbols.Nodup := by
  have hMap : r.tableSymbols = (r.classes.map ClassInfo.name).map fun name => qualified name "VMT" := by
    rw [tableSymbols, map_map]
    exact map_congr_left fun c _ => vmtLabel_eq c
  rw [hMap]
  apply h.found.nodup.map
  intro name name' hEq
  have hList := congrArg String.toList hEq
  simp only [toList_qualified] at hList
  exact String.toList_inj.mp (append_cancel_right hList)

/-- Variables of the main block have symbols of their own, as long as their names differ. -/
theorem nodup_mainSymbols (h : globals.Nodup) : (mainSymbols globals).Nodup := by
  have hInj : Function.Injective mainVarLabel := by
    intro name name' hEq
    rw [mainVarLabel_eq, mainVarLabel_eq, qualified_inj (by decide) (by decide)] at hEq
    exact hEq.2
  rw [mainSymbols, nodup_cons, nodup_append]
  refine ⟨?_, h.map hInj, nodup_singleton _, ?_⟩
  · intro hMem
    have hMain : Unseparated MainBlock.entryLabel := by decide
    rcases mem_append.mp hMem with hMem | hMem
    · obtain ⟨name, -, hEq⟩ := mem_map.mp hMem
      rw [← hEq, mainVarLabel_eq] at hMain
      exact not_unseparated_qualified _ _ hMain
    · exact absurd (mem_singleton.mp hMem) (by decide)
  · intro x hx y hy hEq
    obtain ⟨name, -, rfl⟩ := mem_map.mp hx
    rw [mem_singleton.mp hy, mainVarLabel_eq, mainExit_eq, qualified_inj (by decide) (by decide)] at hEq
    exact absurd hEq.1 (by decide)

/-- A registry whose names can be told apart once they are put together. -/
structure Named (names : String → Prop) (r : Registry) (globals : List String) : Prop where
  lineal : r.Lineal
  coherent : r.Coherent names
  classNames : ∀ c : ClassId, c.index < r.classes.length → Unseparated (r.classInfo c).name
  globals : globals.Nodup

namespace Named

variable (h : Named names r globals) {c' : ClassId} {m m' : MethodId} {text text' : String}

include h

/-- The class of a method has a name without separator. -/
theorem unseparated (hm : m ∈ (r.classInfo c).methods) : Unseparated (r.classInfo c).name :=
  h.classNames c (Registry.registered_of_mem hm)

/-- A name made by a class determines the class. -/
theorem eq_of_qualified (hc : c.index < r.classes.length) (hc' : c'.index < r.classes.length)
    (hEq : qualified (r.classInfo c).name text = qualified (r.classInfo c').name text') :
    c = c' ∧ text = text' := by
  obtain ⟨hName, hText⟩ := (qualified_inj (h.classNames c hc) (h.classNames c' hc')).mp hEq
  exact ⟨h.lineal.found.eq_of_name hc hc' hName, hText⟩

theorem eq_of_signature (hm : m ∈ (r.classInfo c).methods) (hm' : m' ∈ (r.classInfo c).methods)
    (hSignature : (r.methodInfo m).signature = (r.methodInfo m').signature) : m = m' :=
  inj_on_of_nodup_map (h.coherent c).distinct hm hm' hSignature

/-- Unless some names clash, no two routines share a symbol. A clash needs a name that ends like an exit or a
table. -/
theorem nodup_routineSymbols (hClash : ¬ r.Clash globals) : r.routineSymbols.Nodup := by
  rw [routineSymbols, nodup_flatMap]
  refine ⟨?_, ?_⟩
  · intro m hm
    obtain ⟨c, hm⟩ := mem_routines.mp hm
    have hNe : (r.methodInfo m).label ≠ (r.methodInfo m).exitLabel := by
      intro hEq
      rw [h.coherent.label_eq hm, h.coherent.exitLabel_eq hm,
        qualified_inj (h.unseparated hm) (h.unseparated hm)] at hEq
      exact exitOf_ne _ hEq.2.symm
    simpa using hNe
  · apply h.coherent.nodup_routines.pairwise_of_forall_ne
    intro m hm m' hm' hne x hx hx'
    obtain ⟨c, hm⟩ := mem_routines.mp hm
    obtain ⟨c', hm'⟩ := mem_routines.mp hm'
    have hc := Registry.registered_of_mem hm
    have hc' := Registry.registered_of_mem hm'
    simp only [h.coherent.label_eq hm, h.coherent.exitLabel_eq hm, mem_cons,
      not_mem_nil, or_false] at hx
    simp only [h.coherent.label_eq hm', h.coherent.exitLabel_eq hm', mem_cons,
      not_mem_nil, or_false] at hx'
    rcases hx with rfl | rfl
    · rcases hx' with hEq | hEq
      · obtain ⟨rfl, hText⟩ := h.eq_of_qualified hc hc' hEq
        exact hne (h.eq_of_signature hm hm' hText)
      · obtain ⟨rfl, hText⟩ := h.eq_of_qualified hc hc' hEq
        exact hClash (.exit hm hm' hText)
    · rcases hx' with hEq | hEq
      · obtain ⟨rfl, hText⟩ := h.eq_of_qualified hc hc' hEq
        exact hClash (.exit hm' hm hText.symm)
      · obtain ⟨rfl, hText⟩ := h.eq_of_qualified hc hc' hEq
        exact hne (h.eq_of_signature hm hm' (exitOf_inj hText))

/-- Tables and routines have different names. -/
theorem tables_disjoint (hClash : ¬ r.Clash globals) (hx : x ∈ r.tableSymbols) (hx' : x ∈ r.routineSymbols) :
    False := by
  obtain ⟨c, hc, rfl⟩ := mem_tableSymbols.mp hx
  obtain ⟨c', m, hm, hEq | hEq⟩ := h.coherent.mem_routineSymbols.mp hx'
  · obtain ⟨rfl, hText⟩ := h.eq_of_qualified hc (Registry.registered_of_mem hm) hEq
    exact hClash (.table hm hText.symm)
  · obtain ⟨rfl, hText⟩ := h.eq_of_qualified hc (Registry.registered_of_mem hm) hEq
    exact not_unseparated_exitOf (r.methodInfo m).signature (hText ▸ by decide)

/-- The main block has names of its own. -/
theorem main_disjoint (hClash : ¬ r.Clash globals) (hx : x ∈ r.tableSymbols ++ r.routineSymbols)
    (hx' : x ∈ mainSymbols globals) : False := by
  have hParts : ∃ (c : ClassId) (text : String), c.index < r.classes.length ∧
      x = qualified (r.classInfo c).name text ∧ (text = "VMT" ∨ ∃ m ∈ (r.classInfo c).methods,
        text = (r.methodInfo m).signature ∨ text = exitOf (r.methodInfo m).signature) := by
    rcases mem_append.mp hx with hx | hx
    · obtain ⟨c, hc, rfl⟩ := mem_tableSymbols.mp hx
      exact ⟨c, _, hc, rfl, .inl rfl⟩
    · obtain ⟨c, m, hm, rfl | rfl⟩ := h.coherent.mem_routineSymbols.mp hx
      · exact ⟨c, _, Registry.registered_of_mem hm, rfl, .inr ⟨m, hm, .inl rfl⟩⟩
      · exact ⟨c, _, Registry.registered_of_mem hm, rfl, .inr ⟨m, hm, .inr rfl⟩⟩
  obtain ⟨c, text, hc, rfl, hText⟩ := hParts
  have hName := h.classNames c hc
  rcases mem_mainSymbols.mp hx' with hEq | ⟨name, hVar, hEq⟩ | hEq
  · have hMain : Unseparated "main" := by decide
    rw [← hEq] at hMain
    exact not_unseparated_qualified _ _ hMain
  · obtain ⟨hClass, rfl⟩ := (qualified_inj hName (by decide)).mp hEq
    rcases hText with rfl | ⟨m, hm, hSignature⟩
    · exact hClash (.tableVar hClass hc hVar)
    · exact hClash (.routineVar hClass hm hVar hSignature)
  · obtain ⟨hClass, rfl⟩ := (qualified_inj hName (by decide)).mp hEq
    rcases hText with hTable | ⟨m, hm, hSignature | hExit⟩
    · exact absurd hTable (by decide)
    · exact hClash (.main hClass hm hSignature.symm)
    · have hPlain : Unseparated "exit" := by decide
      rw [hExit] at hPlain
      exact not_unseparated_exitOf _ hPlain

/-- Where two places clash, some name is defined twice. -/
theorem not_nodup_symbols (hClash : r.Clash globals) : ¬ (r.symbols globals).Nodup := by
  rw [symbols, nodup_append, nodup_append]
  rintro ⟨⟨-, hRoutines, hTables⟩, -, hMain⟩
  cases hClash with
  | @table c m hm hSignature =>
    refine hTables (qualified (r.classInfo c).name "VMT") ?_ _ ?_ rfl
    · exact mem_tableSymbols.mpr ⟨c, Registry.registered_of_mem hm, rfl⟩
    · exact h.coherent.mem_routineSymbols.mpr ⟨c, m, hm, .inl (by rw [hSignature])⟩
  | @exit c m m' hm hm' hSignature =>
    have hne : m ≠ m' := by
      rintro rfl
      exact exitOf_ne _ hSignature.symm
    have : Std.Symm (Function.onFun List.Disjoint fun m =>
        [(r.methodInfo m).label, (r.methodInfo m).exitLabel]) := ⟨fun _ _ hd => hd.symm⟩
    have hDisjoint := (nodup_flatMap.mp hRoutines).2.forall (mem_routines.mpr ⟨c, hm⟩)
      (mem_routines.mpr ⟨c, hm'⟩) hne
    have hEq : (r.methodInfo m).label = (r.methodInfo m').exitLabel := by
      rw [h.coherent.label_eq hm, hSignature, ← h.coherent.exitLabel_eq hm']
    exact hDisjoint mem_cons_self (by simp [hEq])
  | @main c m hName hm hSignature =>
    refine hMain (qualified "main" "exit") ?_ _ ?_ rfl
    · apply mem_append_right
      exact h.coherent.mem_routineSymbols.mpr ⟨c, m, hm, .inl (by rw [hName, hSignature])⟩
    · exact mem_mainSymbols.mpr (.inr (.inr rfl))
  | @tableVar c hName hc hVar =>
    refine hMain (qualified "mainvar" "VMT") ?_ _ ?_ rfl
    · exact mem_append_left _ (mem_tableSymbols.mpr ⟨c, hc, by rw [hName]⟩)
    · exact mem_mainSymbols.mpr (.inr (.inl ⟨_, hVar, rfl⟩))
  | @routineVar c m x hName hm hVar hSignature =>
    refine hMain (qualified "mainvar" x) ?_ _ ?_ rfl
    · apply mem_append_right
      refine h.coherent.mem_routineSymbols.mpr ⟨c, m, hm, ?_⟩
      rw [hName]
      exact hSignature.imp (congrArg _) (congrArg _)
    · exact mem_mainSymbols.mpr (.inr (.inl ⟨x, hVar, rfl⟩))

/-- Names are defined once just if no two places clash. -/
theorem nodup_symbols_iff : (r.symbols globals).Nodup ↔ ¬ r.Clash globals := by
  constructor
  · intro hNodup hClash
    exact h.not_nodup_symbols hClash hNodup
  · intro hClash
    rw [symbols, nodup_append, nodup_append]
    refine ⟨⟨h.lineal.nodup_tableSymbols, h.nodup_routineSymbols hClash, ?_⟩,
      nodup_mainSymbols h.globals, ?_⟩
    · rintro x hx y hy rfl
      exact h.tables_disjoint hClash hx hy
    · rintro x hx y hy rfl
      exact h.main_disjoint hClash hx hy

/-- The signature of a routine, if it is not the one that destructors share. -/
theorem signature_cases (hMethods : ∀ name, names name → Unseparated name)
    (hm : m ∈ (r.classInfo c).methods) : (r.methodInfo m).signature = destructorSignature ∨
      Unseparated (r.methodInfo m).name ∧
        ((r.methodInfo m).kind = .method ∨ (r.methodInfo m).name = (r.classInfo c).name) ∧
        (r.methodInfo m).signature.toList = (r.methodInfo m).name.toList ++
          r.parameterText (r.methodInfo m).params.types := by
  have hRoutine := (h.coherent c).routine m hm
  rw [hRoutine.signature]
  cases hKind : (r.methodInfo m).kind with
  | destructor => exact .inl rfl
  | method =>
    refine .inr ⟨hMethods _ ((h.coherent c).named m hm hKind), .inl rfl, ?_⟩
    exact toList_signature r _ (by decide) _
  | constructor =>
    have hName := hRoutine.named hKind
    refine .inr ⟨hName ▸ h.unseparated hm, .inr hName, ?_⟩
    exact toList_signature r _ (by decide) _

/-- A routine is named like an exit only if a parameter has a class of that name. -/
theorem exists_class_exit (hMethods : ∀ name, names name → Unseparated name)
    (hm : m ∈ (r.classInfo c).methods) (hSignature : (r.methodInfo m).signature = exitOf text) :
    ∃ c : ClassId, c.index < r.classes.length ∧ (r.classInfo c).name = "exit" := by
  rcases h.signature_cases hMethods hm with hShared | ⟨hName, -, hText⟩
  · have hPlain : Unseparated destructorSignature := by decide
    rw [← hShared, hSignature] at hPlain
    exact absurd hPlain (not_unseparated_exitOf _)
  · rw [hSignature] at hText
    rcases eq_nil_or_concat (r.methodInfo m).params.types with hNil | ⟨init, ty, hTypes⟩
    · rw [hNil, parameterText, flatMap_nil, append_nil] at hText
      rw [← String.toList_inj.mp hText] at hName
      exact absurd hName (not_unseparated_exitOf _)
    · have hTy : r.IsStored ty := by
        apply ((h.coherent c).routine m hm).params
        rw [hTypes]
        simp
      have hLast : ((r.methodInfo m).name.toList ++ r.parameterText init) ++
          separator :: (r.typeName ty).toList = text.toList ++ separator :: "exit".toList := by
        have hExit : (exitOf text).toList = text.toList ++ separator :: "exit".toList := by
          simp [exitOf, separator]
        rw [← hExit, hText, hTypes]
        simp [parameterText]
      rcases IsValue.cases (.inr hTy) with rfl | rfl | ⟨c', rfl, hc'⟩
      · cases hTy
      · have hInt : "int" = "exit" := last_inj (by decide) (by decide) hLast
        exact absurd hInt (by decide)
      · exact ⟨c', hc', last_inj (h.classNames c' hc') (by decide) hLast⟩

/-- Names that are unlike the words for places keep all places apart. -/
theorem not_clash (hMethods : ∀ name, names name → Unseparated name ∧ name ≠ "VMT")
    (hClasses : ∀ c : ClassId, c.index < r.classes.length → (r.classInfo c).name ∉ placeWords) :
    ¬ r.Clash globals := by
  have hPlain : ∀ name, names name → Unseparated name := fun name hName => (hMethods name hName).1
  intro hClash
  cases hClash with
  | @table c m hm hSignature =>
    rcases h.signature_cases hPlain hm with hShared | ⟨hName, hKind, hText⟩
    · rw [hSignature] at hShared
      exact absurd hShared (by decide)
    · have hSplit : (r.methodInfo m).name.toList ++
          r.parameterText (r.methodInfo m).params.types = "VMT".toList ++ r.parameterText [] := by
        rw [← hText, hSignature, parameterText, flatMap_nil, append_nil]
      obtain ⟨hTable, -⟩ := text_inj hName (by decide) hSplit
      rcases hKind with hKind | hKind
      · exact (hMethods _ ((h.coherent c).named m hm hKind)).2 hTable
      · exact hClasses c (Registry.registered_of_mem hm) (hKind ▸ hTable ▸ by decide)
  | @exit c m m' hm _ hSignature =>
    obtain ⟨c', hc', hName⟩ := h.exists_class_exit hPlain hm hSignature
    exact hClasses c' hc' (hName ▸ by decide)
  | @main c m hName hm _ =>
    exact hClasses c (Registry.registered_of_mem hm) (hName ▸ by decide)
  | @tableVar c hName hc _ => exact hClasses c hc (hName ▸ by decide)
  | @routineVar c m x hName hm _ _ =>
    exact hClasses c (Registry.registered_of_mem hm) (hName ▸ by decide)

end Named

end Registry

/-! The names that the lines of a program define. -/

namespace Routine

/-- A routine defines its entry, the cells in its body, and its exit. -/
theorem filterMap_symbol_lines {known : String → Prop} {inMain : Bool} {cells : List String}
    {b : Routine} (h : Confined known inMain cells b.exit b.body) :
    b.lines.filterMap Line.symbol? = b.name :: (cells.map mainVarLabel ++ [b.exit]) := by
  simp only [lines, entry, filterMap_append, filterMap_cons,
    Line.filterMap_symbol_instrs, h.symbols, Line.symbol?, append_nil, filterMap_nil]
  rfl

theorem filterMap_symbol_flatMap {ms : List MethodId} (h : List.Forall₂ (Implements p Γ) ms bs) :
    (bs.flatMap lines).filterMap Line.symbol? =
      ms.flatMap fun m => [(Γ.types.methodInfo m).label, (Γ.types.methodInfo m).exitLabel] := by
  induction h with
  | nil => rfl
  | cons hb _ ih =>
    rw [flatMap_cons, filterMap_append, ih, filterMap_symbol_lines hb.confined, hb.name, hb.exit]
    rfl

end Routine

theorem ClassInfo.filterMap_symbol_tables (types : Registry) (cs : List ClassInfo) :
    (cs.flatMap (tableLines types)).filterMap Line.symbol? = cs.map vmtLabel := by
  induction cs with
  | nil => rfl
  | cons c cs ih =>
    have hWords : ((c.tableWords types).map Line.word).filterMap Line.symbol? = [] := by
      simp [filterMap_eq_nil_iff, Line.symbol?]
    rw [flatMap_cons, filterMap_append, ih, tableLines, filterMap_cons_none rfl]
    simp only [filterMap_cons, Line.symbol?, hWords]
    rfl

theorem Line.filterMap_symbol_withoutComments (ls : List Line) :
    (withoutComments ls).filterMap symbol? = ls.filterMap symbol? := by
  rw [withoutComments, filterMap_filter]
  apply filterMap_congr
  intro l _
  cases l <;> rfl

/-- What holds of the names of the classes that a program declares, and of that of the root. -/
theorem forall_className {P : String → Prop} {r : Registry} {ds : List ClassDecl}
    (h : r.classes.map ClassInfo.name = objectName :: ds.map ClassDecl.name) (hRoot : P objectName)
    (hDeclared : ∀ d ∈ ds, P d.name) (hc : c.index < r.classes.length) : P (r.classInfo c).name := by
  have hMem : (r.classInfo c).name ∈ r.classes.map ClassInfo.name := by
    apply mem_map_of_mem
    simp [classInfo, hc]
  rw [h] at hMem
  rcases mem_cons.mp hMem with hName | hMem
  · rw [hName]
    exact hRoot
  · obtain ⟨d, hd, hName⟩ := mem_map.mp hMem
    rw [← hName]
    exact hDeclared d hd

/-- The names that a program defines. -/
theorem Program.LaidOut.filterMap_symbol {lines : List Line} {main : Routine} (h : p.LaidOut Γ lines bs main)
    (hGlobals : Γ.globals.names.names = Stmt.declaredIn p.main.body) :
    lines.filterMap Line.symbol? = Γ.types.symbols Γ.globals.names.names := by
  have hFront : (front Γ.types).filterMap Line.symbol? = Γ.types.tableSymbols := by
    rw [front, filterMap_append, filterMap_cons_none rfl, ClassInfo.filterMap_symbol_tables]
    rfl
  have hMain := Routine.filterMap_symbol_lines h.entry.confined
  rw [h.entry.name, h.entry.exit, ← hGlobals] at hMain
  rw [← Line.filterMap_symbol_withoutComments, h.lines, filterMap_append,
    filterMap_append, hFront, Routine.filterMap_symbol_flatMap h.methods, hMain]
  rfl

namespace Program

variable {p : Program} {options : Options} {result : Compilation}

/-- What analysis registers for a program whose classes have names without separator. -/
theorem named_of_compile_eq_ok {names : String → Prop} (hFresh : p.isFresh = true)
    (hEquals : names "equals") (hMethods : p.MethodNames names)
    (hClasses : ∀ d ∈ p.classes, Unseparated d.name) (hOk : p.compile options = .ok result) :
    Named names p.env.types p.env.globals.names.names := by
  obtain ⟨hΓ, -, hNames⟩ := typed_of_compile_eq_ok hFresh hEquals hMethods hOk
  exact {
    lineal := hΓ.settled.lineal
    coherent := hΓ.settled.coherent
    classNames := fun c hc => forall_className hNames (by decide) hClasses hc
    globals := (globals_analyzed hFresh (compile_eq_ok hOk).1).2 }

/-- The names that the assembly of a program defines are those of its tables, of the entries and
exits of its routines, and of the variables of its main block. If no class has a name with a
separator in it, each of them is defined once just if no two of these places clash. They do not
where the names of methods hold no separator either, and neither classes nor methods are named by
the words for places. -/
theorem symbols_distinct (options : Options) (p : Program) (hFresh : p.isFresh = true)
    (hClasses : ∀ d ∈ p.classes, Unseparated d.name) (result : Compilation)
    (hOk : p.compile options = .ok result) :
    ∃ lines, result.assembly = Line.fileText lines ∧
      lines.filterMap Line.symbol? = p.env.types.symbols p.env.globals.names.names ∧
      ((lines.filterMap Line.symbol?).Nodup ↔ ¬ p.env.types.Clash p.env.globals.names.names) ∧
      (p.MethodNames (fun name => Unseparated name ∧ name ≠ "VMT") →
        (∀ d ∈ p.classes, d.name ∉ placeWords) → (lines.filterMap Line.symbol?).Nodup) := by
  obtain ⟨t, lines, bs, main, -, hAssembly, hLaidOut⟩ := exists_laidOut hFresh hOk
  have hGlobals := (globals_analyzed hFresh (compile_eq_ok hOk).1).1
  have hNamed := named_of_compile_eq_ok hFresh trivial (.trivial p) hClasses hOk
  refine ⟨lines, hAssembly, hLaidOut.filterMap_symbol hGlobals, ?_, ?_⟩
  · rw [hLaidOut.filterMap_symbol hGlobals, hNamed.nodup_symbols_iff]
  · intro hMethods hWords
    have hNamed := named_of_compile_eq_ok hFresh (by decide) hMethods hClasses hOk
    obtain ⟨-, -, hNames⟩ := typed_of_compile_eq_ok hFresh trivial (.trivial p) hOk
    rw [hLaidOut.filterMap_symbol hGlobals, hNamed.nodup_symbols_iff]
    apply hNamed.not_clash fun _ hName => hName
    intro c hc
    exact forall_className (P := (· ∉ placeWords)) hNames (by decide) hWords hc

/-- Overloaded and overridden methods, and names that are almost words for places. -/
def spelled : Program where
  classes := [
    { line := 1, name := "Main", members := [
      .method {
        line := 2, name := "exit", returns := some .int
        body := [.ret 3 (some (.int 3 1)) none] },
      .method {
        line := 4, name := "exit", returns := some .int
        params := [⟨4, .named "Main", "main"⟩]
        body := [.ret 5 (some (.int 5 2)) none] }] },
    { line := 7, name := "mainVMT", parent := some "Main", members := [
      .method { line := 8, kind := .constructor, name := "mainVMT", params := [⟨8, .int, "VMT"⟩] },
      .method {
        line := 9, name := "exit", returns := some .int
        body := [.ret 10 (some (.int 10 3)) none] }] }]
  main := ⟨12, [.declare 13 (.named "Main") ["exit", "VMT"], .declare 14 .int ["Destructor"]]⟩

theorem symbols_distinct_spelled : spelled.isFresh = true ∧
    (∀ d ∈ spelled.classes, Unseparated d.name) ∧
    spelled.MethodNames (fun name => Unseparated name ∧ name ≠ "VMT") ∧
    (∀ d ∈ spelled.classes, d.name ∉ placeWords) ∧
    ∃ result lines, spelled.compile {} = .ok result ∧ result.assembly = Line.fileText lines ∧
      (lines.filterMap Line.symbol?).length = 28 ∧ (lines.filterMap Line.symbol?).Nodup := by
  have hFresh : spelled.isFresh = true := by decide
  have hClasses : ∀ d ∈ spelled.classes, Unseparated d.name := by decide
  have hMethods : spelled.MethodNames (fun name => Unseparated name ∧ name ≠ "VMT") :=
    ⟨by decide, by decide⟩
  have hWords : ∀ d ∈ spelled.classes, d.name ∉ placeWords := by decide
  have hSome : (spelled.compile {}).toOption.isSome = true := by decide +kernel
  obtain ⟨result, hOk, -⟩ := exists_assembly hSome
  obtain ⟨lines, hAssembly, hSymbols, -, hNodup⟩ :=
    symbols_distinct {} spelled hFresh hClasses result hOk
  have hLength : (spelled.env.types.symbols spelled.env.globals.names.names).length = 28 := by
    decide +kernel
  exact ⟨hFresh, hClasses, hMethods, hWords, result, lines, hOk, hAssembly, hSymbols ▸ hLength,
    hNodup hMethods hWords⟩

/-- A method that is named like the table of its class. -/
def tabled : Program where
  classes := [
    { line := 1, name := "A", members := [.method {
        line := 2, name := "VMT", returns := some .int
        body := [.ret 3 (some (.int 3 1)) none] }] }]
  main := ⟨5, []⟩

/-- A method that is named like a variable of the main block. -/
def varied : Program where
  classes := [
    { line := 1, name := "mainvar", members := [.method {
        line := 2, name := "x", returns := some .int
        body := [.ret 3 (some (.int 3 1)) none] }] }]
  main := ⟨5, [.declare 6 .int ["x"]]⟩

/-- The program is read and compiled without a report, and its assembly defines the name twice. -/
def DefinesTwice (p : Program) (name : String) : Prop :=
  p.isFresh = true ∧ p.diagnostics = [] ∧ ∃ result lines, p.compile {} = .ok result ∧
    result.assembly = Line.fileText lines ∧ (lines.filterMap Line.symbol?).count name = 2

theorem definesTwice_of_code {p : Program} {name : String}
    (h : p.isFresh = true ∧ p.diagnostics = [] ∧ (p.compile {}).toOption.isSome = true ∧
      ((p.analyzed.code p.env.types {}).log.filterMap Line.symbol?).count name = 2) :
    p.DefinesTwice name := by
  obtain ⟨hFresh, hDiagnostics, hSome, hCount⟩ := h
  obtain ⟨result, hOk, hAssembly⟩ := exists_assembly hSome
  exact ⟨hFresh, hDiagnostics, result, _, hOk, hAssembly, hCount⟩

/-- By such names a table and a method, or a method and a variable, are defined under one name. -/
theorem symbols_clash : tabled.DefinesTwice "A$VMT" ∧ varied.DefinesTwice "mainvar$x" := by
  constructor
  · apply definesTwice_of_code
    decide +kernel
  · apply definesTwice_of_code
    decide +kernel

end Program
end TLang
