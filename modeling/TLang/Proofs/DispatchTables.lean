import TLang.Code.Program
import TLang.Proofs.Registry.Tables

/-! The dispatch tables in the code of a program. The table of a class is found behind its label, and
it holds the words of that class in the order of their slots. -/
namespace TLang

open List

variable {k : Nat} {s t : EmitState} {lines : List Line}

namespace Line

/-- The word at a distance in bytes from the start of the lines. A word takes four bytes, and what
only names or aligns a place takes none. -/
def wordAt : List Line → Nat → Option (Option Label)
  | word place :: _, 0 => some place
  | word _ :: rest, distance + 4 => wordAt rest distance
  | label _ :: rest, distance => wordAt rest distance
  | align :: rest, distance => wordAt rest distance
  | _, _ => none

/-- The word at a distance in bytes behind the definition of a label. -/
def wordBehind (lines : List Line) (place : Label) (distance : Nat) : Option (Option Label) :=
  wordAt (lines.dropWhile fun line => line ≠ label place) distance

theorem wordAt_words (words : List (Option Label)) (rest : List Line) (hk : k < words.length) :
    wordAt (words.map word ++ rest) (4 * k) = words[k]? := by
  induction words generalizing k with
  | nil => simp at hk
  | cons first words ih =>
    cases k with
    | zero => rfl
    | succ k =>
      rw [List.getElem?_cons_succ, ← ih (by simpa using hk)]
      rfl

end Line

namespace ClassInfo

/-- The words of the table of a class. -/
def tableWords (types : Registry) (c : ClassInfo) : List (Option Label) :=
  (c.parent.map fun p => .symbol (types.classInfo p).vmtLabel) ::
    (c.destructor.map fun m => .symbol (types.methodInfo m).label) ::
    c.vmt.map fun m => some (.symbol (types.methodInfo m).label)

def tableLines (types : Registry) (c : ClassInfo) : List Line :=
  .align :: .label (.symbol c.vmtLabel) :: (c.tableWords types).map .word

end ClassInfo

/-- Every record is that of a class. -/
theorem Registry.exists_classInfo {r : Registry} {info : ClassInfo} (h : info ∈ r.classes) :
    ∃ c : ClassId, c.index < r.classes.length ∧ r.classInfo c = info := by
  obtain ⟨i, hi, rfl⟩ := mem_iff_getElem.mp h
  exact ⟨⟨i⟩, hi, by simp [classInfo, hi]⟩

namespace Emit

variable {types : Registry}

theorem dispatchTable_apply {c : ClassInfo} (h : c.destructor.isSome = true) (s : EmitState) :
    dispatchTable types c s = ⟨(.ok (), s), c.tableLines types⟩ := by
  obtain ⟨m, hm⟩ := Option.isSome_iff_exists.mp h
  rw [dispatchTable, hm]
  simp only [ClassInfo.tableLines, ClassInfo.tableWords, hm, Option.map_some, map_cons, map_map]
  rfl

theorem forM_dispatchTable_apply {cs : List ClassInfo} (h : ∀ c ∈ cs, c.destructor.isSome = true)
    (s : EmitState) :
    cs.forM (dispatchTable types) s = ⟨(.ok (), s), cs.flatMap (ClassInfo.tableLines types)⟩ := by
  induction cs with
  | nil => rfl
  | cons c cs ih =>
    change (dispatchTable types c >>= fun _ => cs.forM (dispatchTable types)) s = _
    rw [bind_apply_ok (dispatchTable_apply (h c (by simp)) s),
      ih fun c hc => h c (by simp [hc]), flatMap_cons]

/-- The routines that are linked in are announced first. -/
def externals : List Line := SupportRoutine.all.map fun r => .external r.symbol

theorem header_apply (s : EmitState) :
    header s = ⟨(.ok (), s), .comment "T compiler output" :: externals⟩ := rfl

theorem dispatchTables_apply {names : String → Prop} (h : types.Settled names) (s : EmitState) :
    dispatchTables types s = ⟨(.ok (), s), .dataSection ::
      types.classes.flatMap (ClassInfo.tableLines types)⟩ := by
  have hDestructors : ∀ c ∈ types.classes, c.destructor.isSome = true := by
    intro info hInfo
    obtain ⟨c, hc, rfl⟩ := Registry.exists_classInfo hInfo
    exact h.destructor c hc
  rw [dispatchTables]
  change (lines [.dataSection] >>= fun _ => types.classes.forM (dispatchTable types)) s = _
  rw [bind_apply_ok (lines_apply _ _), forM_dispatchTable_apply hDestructors]
  rfl

end Emit

namespace Program

variable {names : String → Prop} {types : Registry} {p : Program}

open Emit

/-- The code of a program starts with the tables, behind lines that define no label. -/
theorem exists_lines_eq (hTypes : types.Settled names) (hCode : p.code types s = ⟨(.ok (), t), lines⟩) :
    ∃ front rest, (∀ l ∈ front, ∀ place, l ≠ .label place) ∧
      lines = front ++ types.classes.flatMap (ClassInfo.tableLines types) ++ rest := by
  obtain ⟨⟨⟩, s₁, front, after, hHeader, hRest, rfl⟩ := bind_apply_eq_ok_iff.mp hCode
  obtain ⟨⟨⟩, s₂, tables, rest, hTables, -, rfl⟩ := bind_apply_eq_ok_iff.mp hRest
  rw [header_apply] at hHeader
  rw [dispatchTables_apply hTypes] at hTables
  cases hHeader
  cases hTables
  refine ⟨.comment "T compiler output" :: externals ++ [.dataSection], rest, ?_, by simp⟩
  rintro l hl place rfl
  simp [externals] at hl

/-- The words of a table are found behind its label. -/
theorem wordBehind_code (hTypes : types.Settled names) (hCode : p.code types s = ⟨(.ok (), t), lines⟩)
    {c : ClassId} (hc : c.index < types.classes.length)
    (hk : k < ((types.classInfo c).tableWords types).length) :
    Line.wordBehind lines (.symbol (types.classInfo c).vmtLabel) (4 * k) =
      ((types.classInfo c).tableWords types)[k]? := by
  obtain ⟨front, rest, hFront, rfl⟩ := exists_lines_eq hTypes hCode
  have hInfo : types.classes[c.index] = types.classInfo c := by
    simp [Registry.classInfo, List.getElem?_eq_getElem hc]
  have hSplit : types.classes = types.classes.take c.index ++ types.classInfo c ::
      types.classes.drop (c.index + 1) := by
    rw [← hInfo, getElem_cons_drop, take_append_drop]
  have hNames : (types.classInfo c).name ∉ (types.classes.take c.index).map ClassInfo.name := by
    have hNodup := hTypes.lineal.found.nodup
    rw [hSplit, map_append, map_cons] at hNodup
    exact fun hMem => disjoint_of_nodup_append hNodup hMem (by simp)
  -- Of the lines before the table, none defines its label: the classes have different names.
  have hBefore : ∀ l ∈ front ++ (types.classes.take c.index).flatMap (ClassInfo.tableLines types),
      l ≠ .label (.symbol (types.classInfo c).vmtLabel) := by
    intro l hl
    rcases mem_append.mp hl with hl | hl
    · exact hFront l hl _
    · obtain ⟨other, hOther, hl⟩ := mem_flatMap.mp hl
      rintro rfl
      simp only [ClassInfo.tableLines, mem_cons, mem_map, reduceCtorEq, false_or,
        Line.label.injEq, Label.symbol.injEq, and_false, exists_false, or_false] at hl
      have hName : (types.classInfo c).name = other.name := by
        simpa [ClassInfo.vmtLabel] using hl
      exact hNames (hName ▸ mem_map_of_mem hOther)
  rw [hSplit, flatMap_append, flatMap_cons, Line.wordBehind]
  simp only [append_assoc]
  rw [← append_assoc, dropWhile_append_of_pos (by simpa using hBefore)]
  simp only [ClassInfo.tableLines, cons_append]
  rw [dropWhile_cons_of_pos (by simp), dropWhile_cons_of_neg (by simp)]
  exact Line.wordAt_words _ _ hk

end Program
end TLang
