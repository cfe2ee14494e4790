import TLang.Proofs.Consistency

/-! Rejected declarations leave no trace. A declaration that registers no class is reported and then
skipped by every pass, so that a program is analyzed as if the declaration was not there. -/
namespace TLang

open Registry Analysis List

section Refill

variable {α : Type} {gaps : List (Option α)}

/-- Put the items of a list at the places that are left open. -/
def refill : List (Option α) → List α → List α
  | [], kept => kept
  | some a :: gaps, kept => a :: refill gaps kept
  | none :: _, [] => []
  | none :: gaps, a :: kept => a :: refill gaps kept

/-- Where the item at an index is put. -/
def refillIndex : List (Option α) → Nat → Nat
  | [], i => i
  | some _ :: gaps, i => refillIndex gaps i + 1
  | none :: _, 0 => 0
  | none :: gaps, i + 1 => refillIndex gaps i + 1

/-- Gaps are filled from left to right, so a list of gaps can be cut wherever the list of kept entries is cut to
match. -/
theorem refill_append {kept : List α} (h : kept.length = gaps.countP Option.isNone) (gaps' : List (Option α))
    (kept' : List α) : refill (gaps ++ gaps') (kept ++ kept') = refill gaps kept ++ refill gaps' kept' := by
  fun_induction refill gaps kept with
  | case1 kept =>
    obtain rfl := length_eq_zero_iff.mp h
    rfl
  | case2 a gaps kept ih => simpa [refill] using ih (by simpa using h)
  | case3 gaps => simp at h
  | case4 gaps a kept ih => simpa [refill] using ih (by simpa using h)

/-- The entries that are kept are found where the gaps leave room for them, in the same order. -/
theorem getElem?_refill (gaps : List (Option α)) (kept : List α) (i : Nat) :
    (refill gaps kept)[refillIndex gaps i]? = kept[i]? := by
  fun_induction refill gaps kept generalizing i with
  | case1 kept => rfl
  | case2 a gaps kept ih => simpa [refillIndex] using ih i
  | case3 gaps => rfl
  | case4 gaps a kept ih =>
    cases i with
    | zero => rfl
    | succ i => simpa [refillIndex] using ih i

theorem set_refill (gaps : List (Option α)) (kept : List α) (i : Nat) (a : α) :
    (refill gaps kept).set (refillIndex gaps i) a = refill gaps (kept.set i a) := by
  fun_induction refill gaps kept generalizing i with
  | case1 kept => rfl
  | case2 b gaps kept ih => simpa [refill, refillIndex] using ih i
  | case3 gaps => rfl
  | case4 gaps b kept ih =>
    cases i with
    | zero => rfl
    | succ i => simpa [refill, refillIndex] using ih i

/-- Where items are found that stand at no place that was filled before. -/
theorem filter_range_refill (holds : Option α → Bool) (hGaps : ∀ a, some a ∈ gaps → holds (some a) = false)
    (kept : List α) :
    (List.range (refill gaps kept).length).filter (fun i => holds (refill gaps kept)[i]?) =
      ((List.range kept.length).filter fun i => holds kept[i]?).map (refillIndex gaps) := by
  have hShift : ∀ (as : List α) (a : α),
      (List.range (a :: as).length).filter (fun i => holds (a :: as)[i]?) =
        (if holds (some a) then [0] else []) ++
          ((List.range as.length).filter fun i => holds as[i]?).map (· + 1) := by
    intro as a
    rw [length_cons, range_succ_eq_map, filter_cons, filter_map]
    split <;> simp_all [Function.comp_def]
  fun_induction refill gaps kept with
  | case1 kept => simp [refillIndex]
  | case2 a gaps kept ih =>
    rw [hShift, ih fun b hb => hGaps b (mem_cons_of_mem _ hb), hGaps a mem_cons_self, map_map]
    rfl
  | case3 gaps => rfl
  | case4 gaps a kept ih =>
    rw [hShift, hShift, ih fun b hb => hGaps b (mem_cons_of_mem _ hb), map_append, map_map, map_map]
    split <;> rfl

variable {m : Type → Type} [Monad m] [LawfulMonad m]

/-- A pass does not notice entries for which it does nothing. This is what makes rejected declarations
invisible. -/
theorem forM_refill {f : α → m Unit} (hGaps : ∀ a, some a ∈ gaps → f a = pure ()) (kept : List α) :
    (refill gaps kept).forM f = kept.forM f := by
  have hCons : ∀ (a : α) (as : List α), (a :: as).forM f = f a >>= fun _ => as.forM f := fun _ _ => rfl
  fun_induction refill gaps kept with
  | case1 kept => rfl
  | case2 a gaps kept ih =>
    rw [hCons, hGaps a mem_cons_self, pure_bind, ih fun b hb => hGaps b (mem_cons_of_mem _ hb)]
  | case3 gaps => rfl
  | case4 gaps a kept ih => rw [hCons, hCons, ih fun b hb => hGaps b (mem_cons_of_mem _ hb)]

theorem mapM_refill {f : α → m α} (hGaps : ∀ a, some a ∈ gaps → f a = pure a) (kept : List α) :
    (refill gaps kept).mapM f = refill gaps <$> kept.mapM f := by
  fun_induction refill gaps kept with
  | case1 kept => simp [refill]
  | case2 a gaps kept ih =>
    rw [mapM_cons, hGaps a mem_cons_self, pure_bind, ih fun b hb => hGaps b (mem_cons_of_mem _ hb)]
    simp [refill]
  | case3 gaps => simp [refill]
  | case4 gaps a kept ih =>
    rw [mapM_cons, mapM_cons, ih fun b hb => hGaps b (mem_cons_of_mem _ hb)]
    simp [refill]

end Refill

namespace ClassDecl

variable {ds : List ClassDecl}

section

variable (ds)

theorem countP_gaps : (gaps ds).countP Option.isNone = (firsts ds).length := by
  induction ds using List.reverseRecOn with
  | nil => rfl
  | append_singleton ds d ih =>
    rw [gaps_concat, firsts_concat, countP_append, ih]
    split <;> simp

/-- The declarations that register no class fit between the others. -/
theorem refill_gaps_firsts : refill (gaps ds) (firsts ds) = ds := by
  induction ds using List.reverseRecOn with
  | nil => rfl
  | append_singleton ds d ih =>
    rw [gaps_concat, firsts_concat]
    split
    · have hAppend := refill_append (countP_gaps ds).symm [some d] []
      rwa [append_nil, ih] at hAppend
    · rw [refill_append (countP_gaps ds).symm, ih]
      rfl

/-- Registration numbers the first declaration of each name as if the others were not there, and leaves the
others in their places. -/
theorem refill_gaps_numbered : refill (gaps ds) (numbered 1 (firsts ds)) = registered ds := by
  induction ds using List.reverseRecOn with
  | nil => rfl
  | append_singleton ds d ih =>
    have hLength : (numbered 1 (firsts ds)).length = (gaps ds).countP Option.isNone := by
      rw [numbered, length_mapIdx, countP_gaps]
    rw [gaps_concat, firsts_concat, registered_concat, ← ih]
    split
    · have hAppend := refill_append hLength [some d] []
      rwa [append_nil] at hAppend
    · rw [numbered, mapIdx_append, ← numbered, refill_append hLength]
      simp [refill, Nat.add_comm]

end

theorem resolved_of_mem_gaps (hFresh : ∀ d ∈ ds, d.resolved = none) {d : ClassDecl} (h : some d ∈ gaps ds) :
    d.resolved = none := by
  rw [gaps, mem_mapIdx] at h
  obtain ⟨i, hi, h⟩ := h
  split at h
  · obtain rfl := Option.some.inj h
    exact hFresh _ (getElem_mem hi)
  · cases h

end ClassDecl

/-! Each pass skips the declarations that have no class. -/

/-- Rejected declarations have no turn, so those that are left have their turns in the same order. -/
theorem Registry.declarationOrder_refill (r : Registry) {gaps : List (Option ClassDecl)}
    (hGaps : ∀ d, some d ∈ gaps → d.resolved = none) (ds : List ClassDecl) :
    r.declarationOrder (refill gaps ds) = (r.declarationOrder ds).map (refillIndex gaps) := by
  simp only [declarationOrder, map_flatMap, List.getElem?_map]
  congr 1
  funext depth
  refine filter_range_refill (fun d => d.map r.depth? == some (some depth)) ?_ ds
  intro d hd
  simp [depth?, hGaps d hd]

namespace Analysis

theorem inOrder_cons (i : Nat) (order : List Nat) (step : ClassDecl → Analysis ClassDecl)
    (ds : List ClassDecl) : inOrder (i :: order) step ds = match ds[i]? with
      | some d => step d >>= fun d' => inOrder order step (ds.set i d')
      | none => inOrder order step ds := by
  rw [inOrder, foldlM_cons]
  cases ds[i]? with
  | none => exact pure_bind _ _
  | some d =>
    simp only [bind_assoc, pure_bind]
    rfl

/-- A pass in order over all declarations is the pass over those that are kept, with the rejected ones put back. -/
theorem inOrder_refill (gaps : List (Option ClassDecl)) (order : List Nat)
    (step : ClassDecl → Analysis ClassDecl) (ds : List ClassDecl) :
    inOrder (order.map (refillIndex gaps)) step (refill gaps ds) = refill gaps <$> inOrder order step ds := by
  induction order generalizing ds with
  | nil => exact (map_pure _ _).symm
  | cons i order ih =>
    rw [map_cons, inOrder_cons, inOrder_cons, getElem?_refill]
    cases ds[i]? with
    | none => exact ih ds
    | some d => simp only [set_refill, ih, map_bind]

end Analysis

namespace Program

open ClassDecl

variable {p : Program} {ds : List ClassDecl} {gaps : List (Option ClassDecl)}

/-- Declare classes once they are registered. -/
def declareRegistered (ds : List ClassDecl) : Analysis (List ClassDecl) := do
  ds.forM linkParent
  ds.forM breakCycle
  let env ← get
  let order := env.types.declarationOrder ds
  let ds ← inOrder order declareMembers ds
  let ds ← inOrder order complete ds
  inOrder order buildVMT ds

variable (ds)

theorem declareClasses_eq_bind : declareClasses ds = ds.mapM register >>= declareRegistered := by
  simp only [declareClasses, collectClasses, bind_assoc, pure_bind]
  rfl

theorem declareRegistered_refill (hGaps : ∀ d, some d ∈ gaps → d.resolved = none) (ds : List ClassDecl) :
    declareRegistered (refill gaps ds) = refill gaps <$> declareRegistered ds := by
  rw [declareRegistered, forM_refill fun d hd => by rw [linkParent, hGaps d hd],
    forM_refill fun d hd => by rw [breakCycle, hGaps d hd]]
  simp only [declareRegistered, declarationOrder_refill _ hGaps, inOrder_refill, bind_map_left, map_bind]

/-- The program with its declarations at the places that are left open. -/
def refilled (gaps : List (Option ClassDecl)) (p : Program) : Program :=
  { p with classes := refill gaps p.classes }

theorem analyzeBodies_refill (hGaps : ∀ d, some d ∈ gaps → d.resolved = none) (p : Program) :
    analyzeBodies (p.refilled gaps) = refilled gaps <$> p.analyzeBodies := by
  have hSkips : ∀ d, some d ∈ gaps → d.analyzeBodies = pure d := fun d hd => by
    rw [ClassDecl.analyzeBodies, hGaps d hd]
  simp only [analyzeBodies, refilled, mapM_refill hSkips, bind_map_left, map_bind, map_pure]

/-- The program without the declarations that register no class. -/
def pruned (p : Program) : Program := { p with classes := firsts p.classes }

/-- Registering the declarations of a program, and only those that register a class. -/
theorem mapM_register_firsts : ds.mapM register {} =
    ⟨(), (ClassDecl.gaps ds).reduceOption.map redefinition⟩ >>= fun _ =>
      (refill (ClassDecl.gaps ds) <$> (firsts ds).mapM register) {} := by
  rw [mapM_register_start, ← refill_gaps_numbered]
  apply Logged.ext <;> simp [mapM_register (nodup_names_firsts ds)]

/-- Analyze a program once its classes are registered. -/
def analyzeRegistered (p : Program) : Analysis Program := do
  let classes ← declareRegistered p.classes
  analyzeBodies { p with classes }

theorem analyze_eq_bind (p : Program) : p.analyze =
    p.classes.mapM register >>= fun classes => analyzeRegistered { p with classes } := by
  rw [analyze, declareClasses_eq_bind, bind_assoc]
  rfl

theorem analyzeRegistered_refill (hGaps : ∀ d, some d ∈ gaps → d.resolved = none) (p : Program) :
    analyzeRegistered (p.refilled gaps) = refilled gaps <$> p.analyzeRegistered := by
  simp only [analyzeRegistered, refilled, declareRegistered_refill hGaps, bind_map_left, map_bind]
  congr 1
  funext classes
  exact analyzeBodies_refill hGaps { p with classes }

/-- A program is analyzed as if the declarations that register no class were not there. They are reported
first, and stay as they are. -/
theorem analyze_eq_pruned (hFresh : p.isFresh = true) : p.analyze {} =
    ⟨(), (ClassDecl.gaps p.classes).reduceOption.map redefinition⟩ >>= fun _ =>
      (refilled (ClassDecl.gaps p.classes) <$> p.pruned.analyze) {} := by
  have hGaps : ∀ d, some d ∈ ClassDecl.gaps p.classes → d.resolved = none := fun d hd =>
    resolved_of_mem_gaps (fun _ hd => (resolved_of_isFresh hFresh hd).1) hd
  have hRest : refilled (ClassDecl.gaps p.classes) <$> p.pruned.analyze =
      refill (ClassDecl.gaps p.classes) <$> (firsts p.classes).mapM register >>= fun classes =>
        analyzeRegistered { p with classes } := by
    rw [analyze_eq_bind, map_bind, bind_map_left]
    congr 1
    funext classes
    exact (analyzeRegistered_refill hGaps { p with classes }).symm
  rw [analyze_eq_bind, hRest]
  calc (p.classes.mapM register {} >>= fun r => analyzeRegistered { p with classes := r.1 } r.2)
      = ((⟨(), (ClassDecl.gaps p.classes).reduceOption.map redefinition⟩ : Checked Unit) >>= fun _ =>
          (refill (ClassDecl.gaps p.classes) <$> (firsts p.classes).mapM register) {}) >>= fun r =>
            analyzeRegistered { p with classes := r.1 } r.2 := by rw [mapM_register_firsts]
    _ = _ := bind_assoc _ _ _

theorem length_analyzed (p : Program) : p.analyzed.classes.length = p.classes.length := by
  simp only [analyzed, analyze, analyzeBodies, declareClasses, collectClasses, value_bind, pure_apply,
    length_mapM, length_inOrder]

/-- A declaration of the root, or of a name that was declared before, leaves no trace but a terminal
report: apart from these reports, which come first, everything is as in the analysis of the program without
such declarations, and they are where they were. -/
theorem rejected_without_trace (hFresh : p.isFresh = true) :
    p.diagnostics = (ClassDecl.gaps p.classes).reduceOption.map redefinition ++ p.pruned.diagnostics ∧
      (∀ d : ClassDecl, d.redefinition.isTerminal = true) ∧
      p.env = p.pruned.env ∧
      p = p.pruned.refilled (ClassDecl.gaps p.classes) ∧
      p.analyzed = p.pruned.analyzed.refilled (ClassDecl.gaps p.classes) ∧
      p.pruned.analyzed.classes.length = p.pruned.classes.length := by
  have hEq := analyze_eq_pruned hFresh
  refine ⟨?_, fun _ => rfl, ?_, ?_, ?_, length_analyzed _⟩
  · rw [diagnostics, hEq]
    simp [diagnostics]
  · rw [env, hEq]
    rfl
  · rw [refilled, pruned, refill_gaps_firsts]
  · rw [analyzed, hEq]
    rfl

/-- A class that is declared again and again, below a class with the name of the root. -/
def insistent : Program where
  classes := [
    { line := 1, name := "Object", members := [.field { line := 2, type := .int, names := ["hash"] }] },
    { line := 3, name := "A", parent := some "B" },
    { line := 4, name := "A", parent := some "A", members := [
      .method { line := 5, name := "f", body := [.print 6 (.this 6)] }] },
    { line := 7, name := "B", parent := some "A", members := [.field { line := 8, type := .named "A", names := ["a"] }] },
    { line := 9, name := "B" }]
  main := ⟨10, [.declare 11 (.named "A") ["a"], .declare 12 (.named "C") ["c"]]⟩

/-- The circle of the two classes and the unknown type are reported as if each class was declared once. -/
theorem rejected_without_trace_insistent : insistent.isFresh = true ∧
      (ClassDecl.gaps insistent.classes).reduceOption.map redefinition =
        [⟨1, .classRedefined "Object"⟩, ⟨4, .classRedefined "A"⟩, ⟨9, .classRedefined "B"⟩] ∧
      insistent.pruned.classes.map (·.line) = [3, 7] ∧
      insistent.pruned.diagnostics = [⟨3, .circularInheritance "A"⟩, ⟨12, .unknownType "C"⟩] ∧
      insistent.diagnostics =
        (ClassDecl.gaps insistent.classes).reduceOption.map redefinition ++ insistent.pruned.diagnostics ∧
      insistent.env = insistent.pruned.env ∧
      insistent.analyzed = insistent.pruned.analyzed.refilled (ClassDecl.gaps insistent.classes) := by
  have hFresh : insistent.isFresh = true := by decide
  obtain ⟨hLog, -, hEnv, -, hAnalyzed, -⟩ := rejected_without_trace hFresh
  exact ⟨hFresh, by decide, by decide, by decide +kernel, hLog, hEnv, hAnalyzed⟩

end Program

end TLang
