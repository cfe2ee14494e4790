import TLang.Proofs.Symbols

/-! The assembly of a program is closed. Every place that one of its lines refers to is defined by
another one, or is that of a routine that is announced as linked in. -/
namespace TLang

open Registry Emit List

variable {place : Label} {name : String} {m : MethodId}

variable {lines : List TLang.Line} {l : TLang.Line} {c : ClassId} {i : Instr} {b : Routine}
  {names : String → Prop}

namespace Line

/-- The places that a line refers to. -/
def references : Line → List Label
  | global name => [.symbol name]
  | l => l.mentions ++ l.jump?.toList

/-- The place that a line defines. -/
def place? : Line → Option Label
  | label l => some l
  | cell name => some (.symbol name)
  | _ => none

/-- The lines define the place, or announce it as a routine that is linked in. -/
def Provide (lines : List Line) (place : Label) : Prop :=
  place ∈ lines.filterMap place? ∨
    ∃ r : SupportRoutine, place = .symbol r.symbol ∧ .external r.symbol ∈ lines

theorem provide_of_label (h : .label place ∈ lines) : Provide lines place :=
  .inl (mem_filterMap.mpr ⟨_, h, rfl⟩)

theorem provide_of_symbol (h : name ∈ lines.filterMap symbol?) : Provide lines (.symbol name) := by
  obtain ⟨l, hl, hName⟩ := mem_filterMap.mp h
  refine .inl (mem_filterMap.mpr ⟨l, hl, ?_⟩)
  cases l with
  | cell =>
    cases hName
    rfl
  | label place =>
    cases place with
    | symbol =>
      cases hName
      rfl
    | branch | loop => cases hName
  | _ => cases hName

theorem mem_of_mem_withoutComments (h : l ∈ withoutComments lines) : l ∈ lines :=
  (mem_filter.mp h).1

end Line

namespace Registry

variable {r : Registry} {globals : List String}

/-- The methods in a table are registered. -/
theorem Settled.exists_class_of_mem_vmt (h : r.Settled names) (hm : m ∈ (r.classInfo c).vmt) :
    ∃ a, m ∈ (r.classInfo a).methods := by
  obtain ⟨slot, hSlot⟩ := mem_iff_getElem?.mp hm
  obtain ⟨m', hNearest, hSlot'⟩ :=
    h.getElem?_vmt_of_vmtSlot (h.vmtSlot_of_getElem? hSlot) (isSubclass_self r c)
  cases hSlot.symm.trans hSlot'
  obtain ⟨a, -, hOwn, -⟩ := nearestVirtual_eq_some hNearest
  exact ⟨a, (mem_filter.mp hOwn).1⟩

/-- Tables mention tables and routines that there are. -/
theorem Settled.mentions_tableWords (h : r.Settled names)
    (hDestructors : ∀ c m, (r.classInfo c).destructor = some m → r.DestroyedBy c m)
    (hWord : some place ∈ (r.classInfo c).tableWords r) :
    ∃ name, place = .symbol name ∧ r.Mentions globals name := by
  simp only [ClassInfo.tableWords, mem_cons, mem_map] at hWord
  rcases hWord with hPlace | hPlace | ⟨m, hm, hPlace⟩
  · obtain ⟨p, hParent, rfl⟩ := Option.map_eq_some_iff.mp hPlace.symm
    exact ⟨_, rfl, .table (h.lineal.parent_lt c p hParent)⟩
  · obtain ⟨m, hm, rfl⟩ := Option.map_eq_some_iff.mp hPlace.symm
    exact ⟨_, rfl, .routine (hDestructors c m hm).mem⟩
  · obtain ⟨a, hMem⟩ := h.exists_class_of_mem_vmt hm
    cases hPlace
    exact ⟨_, rfl, .routine hMem⟩

/-- The zero in place of a parent. -/
theorem Settled.none_mem_tableWords (h : r.Settled names) (hc : c.index < r.classes.length) :
    none ∈ (r.classInfo c).tableWords r ↔ c = object := by
  have hParent : (r.classInfo c).parent = none ↔ c = object := by
    constructor
    · intro hNone
      by_contra hne
      obtain ⟨p, hp⟩ := h.lineal.exists_parent c hc hne
      cases hNone.symm.trans hp
    · rintro rfl
      exact h.lineal.root_parent
  obtain ⟨m, hm⟩ := Option.isSome_iff_exists.mp (h.destructor c hc)
  simp [ClassInfo.tableWords, hm, eq_comm, ← hParent]

theorem count_tableLines (types : Registry) (c : ClassInfo) :
    (c.tableLines types).count (.word none) = (c.tableWords types).count none := by
  have hInj : Function.Injective Line.word := fun _ _ hEq => Line.word.inj hEq
  rw [ClassInfo.tableLines, count_cons_of_ne (by simp), count_cons_of_ne (by simp),
    count_map_of_injective _ _ hInj]

/-- There is one zero in the tables, that in place of the parent of the root. -/
theorem Settled.count_tables (h : r.Settled names) :
    (r.classes.flatMap (ClassInfo.tableLines r)).count (.word none) = 1 := by
  cases hClasses : r.classes with
  | nil =>
    have hRooted := h.lineal.rooted
    simp [hClasses] at hRooted
  | cons first rest =>
    have hFirst : r.classInfo object = first := by simp [classInfo, object, hClasses]
    have hParent : first.parent = none := hFirst ▸ h.lineal.root_parent
    obtain ⟨m, hm⟩ := Option.isSome_iff_exists.mp (h.destructor object h.lineal.rooted)
    rw [hFirst] at hm
    have hOne : (first.tableLines r).count (.word none) = 1 := by
      rw [count_tableLines, ClassInfo.tableWords, hParent, hm, Option.map_none, Option.map_some,
        count_cons_self, count_cons_of_ne (by simp), count_eq_zero.mpr (by simp)]
    have hRest : Line.word none ∉ rest.flatMap (ClassInfo.tableLines r) := by
      intro hMem
      obtain ⟨c, hc, hMem⟩ := mem_flatMap.mp hMem
      obtain ⟨i, hi, rfl⟩ := mem_iff_getElem.mp hc
      have hInfo : r.classInfo ⟨i + 1⟩ = rest[i] := by simp [classInfo, hClasses, hi]
      have hLt : i + 1 < r.classes.length := by
        rw [hClasses]
        simpa using hi
      rw [← hInfo, ← count_pos_iff, count_tableLines, count_pos_iff, h.none_mem_tableWords hLt] at hMem
      cases hMem
    rw [flatMap_cons, count_append, hOne, count_eq_zero.mpr hRest]

/-- The end of a routine contains no jump, and it mentions nothing but the destructor of the parent. -/
theorem mentions_closing (hDestructors : ∀ c m, (r.classInfo c).destructor = some m → r.DestroyedBy c m)
    (hi : i ∈ r.closing m) : i.target? = none ∧
      ∀ place ∈ i.mentions, ∃ name, place = .symbol name ∧ r.Mentions globals name := by
  rw [closing] at hi
  split at hi
  · cases hInherited : r.inheritedDestructor (r.methodInfo m).owner with
    | none =>
      rw [hInherited] at hi
      cases hi
    | some d =>
      rw [hInherited] at hi
      obtain ⟨p, -, hd⟩ := Option.bind_eq_some_iff.mp hInherited
      simp only [handOver, Option.map_some, Option.getD_some, mem_cons, not_mem_nil, or_false] at hi
      rcases hi with rfl | rfl | rfl
      · exact ⟨rfl, by simp [Instr.mentions, Operand.place?]⟩
      · refine ⟨rfl, ?_⟩
        intro place hPlace
        rw [mem_singleton.mp hPlace]
        exact ⟨_, rfl, .routine (hDestructors p d hd).mem⟩
      · exact ⟨rfl, by simp [Instr.mentions, Operand.place?, Instr.drop]⟩
  · cases hi

end Registry

/-- What stands in a routine. -/
theorem Routine.mem_lines (hl : l ∈ b.lines) : l ∈ b.body ∨
    l ∈ [.textSection, .align, .global b.name, .label (.symbol b.name), .label (.symbol b.exit)] ∨
      ∃ i, (i ∈ enter b.locals ++ leave ∨ i ∈ b.closing) ∧ l = .instr i := by
  simp only [lines, entry, map_append, mem_append, mem_cons, not_mem_nil, mem_map, or_false] at hl ⊢
  grind

/-- Entering and leaving a routine refers to no place. -/
theorem Routine.references_frame {locals : Nat} (hi : i ∈ enter locals ++ leave) :
    i.mentions = [] ∧ i.target? = none := by
  simp only [enter, leave, mem_append, mem_cons, not_mem_nil, or_false] at hi
  rcases hi with ((rfl | rfl) | hi) | rfl | rfl | rfl
  any_goals exact ⟨rfl, rfl⟩
  split at hi
  · rw [mem_singleton.mp hi]
    exact ⟨rfl, rfl⟩
  · cases hi

/-- A routine that stands among the lines of a program, whatever it is the routine of. -/
structure Routine.StandsAmong (Γ : Env) (lines : List Line) (b : Routine) : Prop where
  subset : ∀ l ∈ b.lines, l ∈ lines
  confined : ∃ inMain cells, Confined Γ.Mentions inMain cells b.exit b.body
  closing : ∀ i ∈ b.closing, ∃ m, i ∈ Γ.types.closing m

/-- A routine is code. -/
theorem Routine.StandsAmong.not_data {Γ : Env} (h : b.StandsAmong Γ lines) (hl : l ∈ b.lines) :
    (∀ text, l ≠ .raw text) ∧ ∀ place, l ≠ .word place := by
  obtain ⟨inMain, cells, hConfined⟩ := h.confined
  rcases mem_lines hl with hBody | hFixed | ⟨i, -, rfl⟩
  · have hLine := hConfined.lines l hBody
    cases l with
    | raw | word => exact hLine.elim
    | _ => simp
  · simp only [mem_cons, not_mem_nil, or_false] at hFixed
    rcases hFixed with rfl | rfl | rfl | rfl | rfl <;> simp
  · simp

namespace Program.LaidOut

variable {p : Program} {Γ : Env} {lines : List Line} {bs : List Routine} {main : Routine}
  (h : p.LaidOut Γ lines bs main)

include h

theorem withoutComments_eq :
    Line.withoutComments lines = front Γ.types ++ (bs ++ [main]).flatMap Routine.lines := by
  rw [h.lines, flatMap_append, flatMap_singleton, append_assoc]

/-- Lines other than comments stand in front of the routines or in one of them. -/
theorem mem_cases (hl : l ∈ lines) : (∃ text, l = .comment text) ∨
    l ∈ front Γ.types ∨ ∃ b ∈ bs ++ [main], l ∈ b.lines := by
  cases hComment : l.isComment with
  | true =>
    cases l with
    | comment text => exact .inl ⟨text, rfl⟩
    | _ => cases hComment
  | false =>
    have hMem : l ∈ Line.withoutComments lines := mem_filter.mpr ⟨hl, by simp [hComment]⟩
    rw [h.withoutComments_eq, mem_append, mem_flatMap] at hMem
    exact .inr hMem

/-- The routines of a program stand in its text line for line, but for comments. -/
theorem standsAmong (hb : b ∈ bs ++ [main]) : b.StandsAmong Γ lines where
  subset := by
    intro l hl
    apply Line.mem_of_mem_withoutComments
    rw [h.withoutComments_eq]
    exact mem_append_right _ (mem_flatMap.mpr ⟨b, hb, hl⟩)
  confined := by
    rcases mem_append.mp hb with hb | hb
    · obtain ⟨m, -, hm⟩ := exists_of_forall₂ h.methods.flip hb
      exact ⟨_, _, hm.confined⟩
    · rw [mem_singleton.mp hb]
      exact ⟨_, _, h.entry.confined⟩
  closing := by
    intro i hi
    rcases mem_append.mp hb with hb | hb
    · obtain ⟨m, -, hm⟩ := exists_of_forall₂ h.methods.flip hb
      exact ⟨m, hm.closing ▸ hi⟩
    · rw [mem_singleton.mp hb, h.entry.closing] at hi
      cases hi

/-- There is one zero among the words, that in place of the parent of the root. -/
theorem count_zero (hTypes : Γ.types.Settled names) : lines.count (.word none) = 1 := by
  have hRoutines : Line.word none ∉ (bs ++ [main]).flatMap Routine.lines := by
    intro hMem
    obtain ⟨b, hb, hl⟩ := mem_flatMap.mp hMem
    exact ((h.standsAmong hb).not_data hl).2 none rfl
  have hCount : lines.count (.word none) = (Line.withoutComments lines).count (.word none) :=
    (count_filter rfl).symm
  rw [hCount, h.withoutComments_eq, count_append, count_eq_zero.mpr hRoutines, front,
    count_append, count_cons_of_ne (by simp), hTypes.count_tables]
  rfl

theorem raw_notMem (text : String) : .raw text ∉ lines := by
  intro hl
  rcases h.mem_cases hl with ⟨_, hEq⟩ | hFront | ⟨b, hb, hl⟩
  · cases hEq
  · rw [front] at hFront
    simp [externals, ClassInfo.tableLines] at hFront
  · exact ((h.standsAmong hb).not_data hl).1 text rfl

variable (hGlobals : Γ.globals.names.names = Stmt.declaredIn p.main.body)

include hGlobals

/-- All that code may mention is provided. -/
theorem provide_of_mentions (hName : Γ.Mentions name) : Line.Provide lines (.symbol name) := by
  have hSymbols := h.filterMap_symbol hGlobals
  cases hName with
  | support r =>
    refine .inr ⟨r, rfl, Line.mem_of_mem_withoutComments ?_⟩
    rw [h.lines, front]
    have hAll : r ∈ SupportRoutine.all := by cases r <;> decide
    have hExternal : Line.external r.symbol ∈ externals := mem_map_of_mem hAll
    simp [hExternal]
  | @routine c m hm =>
    apply Line.provide_of_symbol
    rw [hSymbols, symbols, routineSymbols]
    apply mem_append_left
    apply mem_append_right
    exact mem_flatMap.mpr ⟨m, mem_routines.mpr ⟨c, hm⟩, mem_cons_self⟩
  | @table c hc =>
    apply Line.provide_of_symbol
    rw [hSymbols, symbols]
    apply mem_append_left
    apply mem_append_left
    exact mem_tableSymbols.mpr ⟨c, hc, vmtLabel_eq _⟩
  | cell hName =>
    apply Line.provide_of_symbol
    rw [hSymbols, symbols]
    apply mem_append_right
    exact mem_mainSymbols.mpr (.inr (.inl ⟨_, hName, mainVarLabel_eq _⟩))

theorem provide_of_instr (hMentions : ∀ place ∈ i.mentions, ∃ name, place = .symbol name ∧ Γ.Mentions name)
    (hJump : ∀ target, i.target? = some target → Line.Provide lines target) :
    ∀ place ∈ (Line.instr i).references, Line.Provide lines place := by
  intro place hPlace
  rcases mem_append.mp hPlace with hPlace | hPlace
  · obtain ⟨name, rfl, hName⟩ := hMentions place hPlace
    exact h.provide_of_mentions hGlobals hName
  · exact hJump place (Option.mem_toList.mp hPlace)

variable (hDestructors : ∀ c m, (Γ.types.classInfo c).destructor = some m → Γ.types.DestroyedBy c m)

include hDestructors

/-- A routine refers to places that are provided. -/
theorem provide_of_routine (hb : b.StandsAmong Γ lines) (hl : l ∈ b.lines) :
    ∀ place ∈ l.references, Line.Provide lines place := by
  obtain ⟨inMain, cells, hConfined⟩ := hb.confined
  rcases Routine.mem_lines hl with hBody | hFixed | ⟨i, hi | hi, rfl⟩
  · have hLine := hConfined.lines l hBody
    cases l with
    | instr i =>
      apply h.provide_of_instr hGlobals hLine.2
      intro target hTarget
      apply Line.provide_of_label
      apply hb.subset
      rcases hConfined.jumps _ hBody target hTarget with hLabel | rfl
      · simp [Routine.lines, hLabel]
      · simp [Routine.lines]
    | global | external | word | raw | comment => exact hLine.elim
    | label | dataSection | textSection | align | cell =>
      intro place hPlace
      cases hPlace
  · intro place hPlace
    simp only [mem_cons, not_mem_nil, or_false] at hFixed
    rcases hFixed with rfl | rfl | rfl | rfl | rfl
    case inr.inr.inl =>
      rw [mem_singleton.mp hPlace]
      apply Line.provide_of_label
      apply hb.subset
      simp [Routine.lines, Routine.entry]
    all_goals cases hPlace
  · obtain ⟨hMentions, hTarget⟩ := Routine.references_frame hi
    apply h.provide_of_instr hGlobals
    · simp [hMentions]
    · simp [hTarget]
  · obtain ⟨m, hi⟩ := hb.closing i hi
    obtain ⟨hTarget, hMentions⟩ := mentions_closing hDestructors hi
    apply h.provide_of_instr hGlobals hMentions
    simp [hTarget]

/-- The tables refer to places that are provided. -/
theorem provide_of_front (hTypes : Γ.types.Settled names) (hl : l ∈ front Γ.types) :
    ∀ place ∈ l.references, Line.Provide lines place := by
  intro place hPlace
  simp only [front, externals, mem_append, mem_cons, mem_map, mem_flatMap, ClassInfo.tableLines] at hl
  rcases hl with ⟨r, -, rfl⟩ | rfl | ⟨c, hc, rfl | rfl | ⟨word, hWord, rfl⟩⟩
  case inr.inr.inr.inr =>
    obtain ⟨c, -, rfl⟩ := exists_classInfo hc
    simp only [Line.references, Line.mentions, Line.jump?, Option.toList_none, append_nil,
      Option.mem_toList] at hPlace
    rw [Option.mem_def.mp hPlace] at hWord
    obtain ⟨name, rfl, hName⟩ := hTypes.mentions_tableWords hDestructors hWord
    exact h.provide_of_mentions hGlobals hName
  all_goals cases hPlace

/-- Whatever a line refers to is provided. -/
theorem provide_of_mem (hTypes : Γ.types.Settled names) (hl : l ∈ lines) :
    ∀ place ∈ l.references, Line.Provide lines place := by
  rcases h.mem_cases hl with ⟨text, rfl⟩ | hFront | ⟨b, hb, hl⟩
  · intro place hPlace
    cases hPlace
  · exact h.provide_of_front hGlobals hDestructors hTypes hFront
  · exact h.provide_of_routine hGlobals hDestructors (h.standsAmong hb) hl

end Program.LaidOut

namespace Program

/-- The assembly of a program is closed: whatever a line refers to is defined by the lines, or is
one of the routines that they announce as linked in. Only the parent of the root is a zero. Apart
from comments there are the tables, one routine for each method that a class has, those of the root
included, and the routine of the main block. -/
theorem compile_closed (options : Options) (p : Program) (hFresh : p.isFresh = true)
    (result : Compilation) (hOk : p.compile options = .ok result) :
    ∃ lines bs main, result.assembly = Line.fileText lines ∧
      (∀ l ∈ lines, ∀ place ∈ l.references, Line.Provide lines place) ∧
      (∀ text, .raw text ∉ lines) ∧
      lines.count (.word none) = 1 ∧
      Line.wordBehind lines (.symbol (p.env.types.classInfo object).vmtLabel) 0 = some none ∧
      p.analyzed.LaidOut p.env lines bs main ∧
      p.env.types.routines.Nodup ∧
      (∀ m, m ∈ p.env.types.routines ↔ ∃ c, m ∈ (p.env.types.classInfo c).methods) ∧
      p.env.types.classInfo object = initial.classInfo object := by
  obtain ⟨t, lines, bs, main, hCode, hAssembly, hLaidOut⟩ := exists_laidOut hFresh hOk
  obtain ⟨hΓ, -, -⟩ := typed_of_compile_eq_ok hFresh trivial (.trivial p) hOk
  have hQuiet := (compile_eq_ok hOk).1
  have hEnrolled := enrolled hFresh hQuiet
  have hGlobals := (globals_analyzed hFresh hQuiet).1
  have hZero : Line.wordBehind lines (.symbol (p.env.types.classInfo object).vmtLabel) 0 =
      some none := by
    have hFirst : Line.wordBehind lines (.symbol (p.env.types.classInfo object).vmtLabel) (4 * 0) =
        ((p.env.types.classInfo object).tableWords p.env.types)[0]? :=
      wordBehind_code hΓ.settled hCode hΓ.settled.lineal.rooted (by simp [ClassInfo.tableWords])
    have hParent : (p.env.types.classInfo object).parent = none := hΓ.settled.lineal.root_parent
    rw [ClassInfo.tableWords, hParent] at hFirst
    exact hFirst
  refine ⟨lines, bs, main, hAssembly, ?_, hLaidOut.raw_notMem, hLaidOut.count_zero hΓ.settled,
    hZero, hLaidOut, hΓ.settled.coherent.nodup_routines, fun m => mem_routines, hEnrolled.root⟩
  intro l hl
  exact hLaidOut.provide_of_mem hGlobals hEnrolled.destructors hΓ.settled hl

/-- Lines of all kinds: jumps out of a loop and over a division by zero, calls of all sorts, a cast
and a variable of the main block. -/
def linked : Program where
  classes := [
    { line := 1, name := "A", members := [
      .method {
        line := 2, name := "f", returns := some .int
        body := [.loop 3 (.int 3 1) (.ret 3 (some (.int 3 2)) none)] },
      .method { line := 4, kind := .destructor, name := "~A", body := [.ret 4 none none] }] },
    { line := 6, name := "B", parent := some "A", members := [
      .method {
        line := 7, kind := .constructor, name := "B", params := [⟨7, .int, "n"⟩]
        body := [.construct 8 .super [] none] },
      .method {
        line := 9, name := "f", returns := some .int
        body := [.ret 10 (some (.call 10 .super "f" [] none none)) none] }] }]
  main := ⟨12, [
    .declare 13 (.named "A") ["a"],
    .expr 14 (.assign 14 (.var 14 "a" none) (.new 14 "B" [.int 14 1] none none)),
    .print 15 (.binary 15 .div (.int 15 6) (.call 15 (.object (.cast 15 "B" (.var 15 "a" none) none))
        "f" [] none none)),
    .delete 16 (.var 16 "a" none)]⟩

theorem compile_closed_linked : linked.isFresh = true ∧
    ∃ result lines bs main, linked.compile {} = .ok result ∧ result.assembly = Line.fileText lines ∧
      (∀ l ∈ lines, ∀ place ∈ l.references, Line.Provide lines place) ∧
      linked.analyzed.LaidOut linked.env lines bs main ∧ bs.length = 9 := by
  have hFresh : linked.isFresh = true := by decide
  have hSome : (linked.compile {}).toOption.isSome = true := by decide +kernel
  obtain ⟨result, hOk, -⟩ := exists_assembly hSome
  obtain ⟨lines, bs, main, hAssembly, hProvide, -, -, -, hLaidOut, -⟩ :=
    compile_closed {} linked hFresh result hOk
  have hLength : linked.env.types.routines.length = 9 := by decide +kernel
  exact ⟨hFresh, result, lines, bs, main, hOk, hAssembly, hProvide, hLaidOut,
    hLaidOut.methods.length_eq ▸ hLength⟩

end Program
end TLang
