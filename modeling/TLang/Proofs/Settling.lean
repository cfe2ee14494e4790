import TLang.Analysis.Program
import TLang.Proofs.Turns

/-! The passes that settle the classes of a program, whatever is reported: members are declared, classes
are completed, and tables are built. Only declarations that are due have a turn. All routines that are
declared have numbers of their own. -/
namespace TLang

open Registry Analysis List

variable {order : List Nat} {env : Env} {as : List ClassDecl}

section Settling

variable {as : List ClassDecl} {env : Env}

theorem Analysis.Placed.declareMembers (h : Placed as env) : Ordered ClassDecl.declareMembers as env :=
  ⟨h, fun _ _ _ hResolved => ClassDecl.enlarges_declareMembers hResolved⟩

theorem Analysis.Placed.complete (h : Placed as env) : Ordered ClassDecl.complete as env :=
  ⟨h, fun _ _ _ hResolved => ClassDecl.enlarges_complete hResolved⟩

theorem Analysis.Placed.buildVMT (h : Placed as env) : Ordered ClassDecl.buildVMT as env :=
  ⟨h, fun _ _ _ hResolved => ClassDecl.enlarges_buildVMT hResolved⟩

/-- While classes are completed, no field is declared. -/
theorem fields_turns (hPlaced : Placed as env) :
    let kept := fun e : Env => e.types.outline = env.types.outline ∧
      ∀ c, (e.types.classInfo c).fields = (env.types.classInfo c).fields
    (∀ t ∈ turns ClassDecl.complete as env, kept t.2) ∧ kept (as.mapM ClassDecl.complete env).value.2 := by
  intro kept
  refine invariant_turns kept as ?_ ⟨rfl, fun _ => rfl⟩
  rintro d hd e ⟨hOutline, hFields⟩
  obtain ⟨c, hResolved, hc⟩ := hPlaced.known d hd
  rw [← length_classes_of_outline hOutline] at hc
  have hGrows := ClassDecl.enlarges_complete hResolved e hc
  refine ⟨hGrows.types.outline.trans hOutline, ?_⟩
  intro c'
  by_cases hc' : c' = c
  · rw [hc', ClassDecl.fields_complete hResolved hc, hFields]
  · rw [hGrows.types.others c' hc', hFields]

/-- The passes that settle classes, in the order in which these are due. -/
def Analysis.settle (as : List ClassDecl) : Analysis (List ClassDecl) := do
  let as ← as.mapM ClassDecl.declareMembers
  let as ← as.mapM ClassDecl.complete
  as.mapM ClassDecl.buildVMT

theorem Analysis.settle_apply (as : List ClassDecl) (env : Env) : settle as env =
      let declared := as.mapM ClassDecl.declareMembers env
      let completed := declared.value.1.mapM ClassDecl.complete declared.value.2
      let built := completed.value.1.mapM ClassDecl.buildVMT completed.value.2
      ⟨built.value, declared.log ++ (completed.log ++ built.log)⟩ := by
  apply Logged.ext <;> simp [settle]

theorem size_mapM_buildVMT (as : List ClassDecl) (env : Env) :
    (as.mapM ClassDecl.buildVMT env).value.2.size = env.size := by
  refine (invariant_turns (fun e => e.size = env.size) as ?_ rfl).2
  intro d _ e hSize
  cases hResolved : d.resolved with
  | none =>
    rw [ClassDecl.buildVMT, hResolved]
    exact hSize
  | some c =>
    rw [ClassDecl.buildVMT, hResolved]
    exact hSize

/-- Building tables changes nothing but these, and reports nothing. -/
theorem Analysis.mapM_buildVMT (as : List ClassDecl) (env : Env) :
    (as.mapM ClassDecl.buildVMT env).value.1 = as ∧ (as.mapM ClassDecl.buildVMT env).log = [] := by
  constructor
  · rw [value_mapM, map_congr_left fun t _ => ClassDecl.value_buildVMT t.1 t.2]
    exact map_fst_turns _ as env
  · rw [log_mapM, flatMap_eq_nil_iff]
    intro t _
    cases hResolved : t.1.resolved with
    | none =>
      rw [ClassDecl.buildVMT, hResolved]
      rfl
    | some c =>
      rw [ClassDecl.buildVMT, hResolved]
      rfl

/-- Where the passes over classes start and end. -/
theorem Analysis.Placed.declared (h : Placed as env) :
    Placed (as.mapM ClassDecl.declareMembers env).value.1 (as.mapM ClassDecl.declareMembers env).value.2 :=
  h.declareMembers.placed_mapM fun d _ => d.resolved_declareMembers

theorem Analysis.Placed.completed (h : Placed as env) :
    Placed (as.mapM ClassDecl.complete env).value.1 (as.mapM ClassDecl.complete env).value.2 :=
  h.complete.placed_mapM fun d _ => d.resolved_complete

end Settling

/-! Declarations that are due and those that are not. -/

namespace Analysis

variable {order : List Nat} {ds : List ClassDecl}

/-- What declarations that are not due have nothing of is had by those that are due. -/
theorem perm_flatMap_due {β : Type} {f : ClassDecl → List β} (hNodup : order.Nodup)
    (hRest : ∀ i d, i ∉ order → ds[i]? = some d → f d = []) :
    ((due order ds).flatMap f).Perm (ds.flatMap f) := by
  let rest := (List.range ds.length).filter (· ∉ order)
  have hAll : (order ++ rest).Nodup := by
    refine nodup_append.mpr ⟨hNodup, nodup_range.filter _, ?_⟩
    rintro i hi _ hj rfl
    exact absurd hi (by simpa using (mem_filter.mp hj).2)
  have hCovers : ∀ i < ds.length, i ∈ order ++ rest := by
    intro i hi
    by_cases hDue : i ∈ order
    · exact mem_append_left _ hDue
    · exact mem_append_right _ (mem_filter.mpr ⟨mem_range.mpr hi, by simpa using hDue⟩)
  have hNone : (due rest ds).flatMap f = [] := by
    rw [flatMap_eq_nil_iff]
    intro d hd
    obtain ⟨i, hi, hAt⟩ := mem_filterMap.mp hd
    exact hRest i d (by simpa using (mem_filter.mp hi).2) hAt
  have hPerm := (perm_due hAll hCovers).flatMap_right f
  rw [due, filterMap_append, flatMap_append] at hPerm
  rwa [← due, ← due, hNone, append_nil] at hPerm

end Analysis

namespace Program

/-- The classes of a program once they are settled, seen from the declarations that are due. -/
structure SettledInOrder (order : List Nat) (ds : List ClassDecl) (start : Env)
    (x : Checked (List ClassDecl × Env)) : Prop where
  env : x.value.2 = (settle (due order ds) start).value.2
  log : x.log = (settle (due order ds) start).log
  due : due order x.value.1 = (settle (due order ds) start).value.1
  others : ∀ i, i ∉ order → x.value.1[i]? = ds[i]?

theorem getElem?_inOrder_of_not_mem (hNodup : order.Nodup) {step : ClassDecl → Analysis ClassDecl}
    (ds : List ClassDecl) (env : Env) {i : Nat} (hi : i ∉ order) :
    (inOrder order step ds env).value.1[i]? = ds[i]? := by
  rcases getElem?_inOrder hNodup ds env i with hSame | ⟨hMem, -⟩
  · exact hSame
  · exact absurd hMem hi

/-- Declaring the classes of a program is to collect them and then to settle them in order. -/
theorem exists_settledInOrder {ds ds' : List ClassDecl} {start : Env}
    (hCollect : (collectClasses ds env).value = ((ds', order), start)) (hNodup : order.Nodup) :
    ∃ x, SettledInOrder order ds' start x ∧ declareClasses ds env =
      ⟨x.value, (collectClasses ds env).log ++ x.log⟩ := by
  let first := inOrder order ClassDecl.declareMembers ds' start
  let second := inOrder order ClassDecl.complete first.value.1 first.value.2
  let third := inOrder order ClassDecl.buildVMT second.value.1 second.value.2
  obtain ⟨hEnv, hLog, hDue⟩ := @inOrder_apply order ClassDecl.declareMembers hNodup ds' start
  obtain ⟨hEnv', hLog', hDue'⟩ := @inOrder_apply order ClassDecl.complete hNodup
    first.value.1 first.value.2
  obtain ⟨hEnv'', hLog'', hDue''⟩ := @inOrder_apply order ClassDecl.buildVMT hNodup
    second.value.1 second.value.2
  refine ⟨⟨third.value, first.log ++ (second.log ++ third.log)⟩, ⟨?_, ?_, ?_, ?_⟩, ?_⟩
  · rw [settle_apply, hEnv'', hDue', hEnv', hDue, hEnv]
  · rw [settle_apply, hLog'', hLog', hLog, hDue', hEnv', hDue, hEnv]
  · rw [settle_apply, hDue'', hDue', hEnv', hDue, hEnv]
  · intro i hi
    exact (getElem?_inOrder_of_not_mem hNodup _ _ hi).trans
      ((getElem?_inOrder_of_not_mem hNodup _ _ hi).trans (getElem?_inOrder_of_not_mem hNodup _ _ hi))
  · apply Logged.ext
    · simp only [declareClasses, value_bind, hCollect]
      rfl
    · simp only [declareClasses, log_bind, hCollect]
      rfl

end Program

/-- Settling classes only changes those classes. -/
theorem Analysis.Placed.growsAmong_settle (h : Placed as env) :
    (settle as env).value.2.position = env.position ∧ (settle as env).value.2.globals = env.globals ∧
      env.types.Extends (settle as env).value.2.types := by
  have hFirst := growsAmong_mapM h.known h.declareMembers.enlarges
  have hSecond := growsAmong_mapM h.declared.known h.declared.complete.enlarges
  have hThird := growsAmong_mapM h.declared.completed.known h.declared.completed.buildVMT.enlarges
  rw [settle_apply]
  exact ⟨hThird.position.trans (hSecond.position.trans hFirst.position),
    hThird.globals.trans (hSecond.globals.trans hFirst.globals),
    hFirst.types.extension.trans (hSecond.types.extension.trans hThird.types.extension)⟩

/-- The routines of settled classes have numbers of their own. -/
theorem ClassDecl.apart_settle (hPlaced : Placed as env) (hNone : ∀ d ∈ as, d.routines = []) :
    Apart ((settle as env).value.1.flatMap routines) (settle as env).value.2 := by
  have hStart : Apart ([] ++ as.flatMap routines) env := by
    rw [nil_append, flatMap_eq_nil_iff.mpr hNone]
    exact ⟨nodup_nil, fun m hm => absurd hm not_mem_nil⟩
  have hDeclared := apart_mapM (f := declareMembers) (fun t => t.1.demand) (by
    intro t ht
    obtain ⟨c, hResolved, -⟩ := hPlaced.known t.1 (fst_mem_of_mem_turns ht)
    exact takes_declareMembers hResolved (hNone _ (fst_mem_of_mem_turns ht)) t.2) hStart
  have hCompleted := apart_mapM (f := complete)
    (fun t => (t.1.resolved.map fun c => (t.2.types.classInfo c).lacking).getD 0) (by
    intro t ht
    obtain ⟨c, hResolved, hc⟩ := hPlaced.declared.known t.1 (fst_mem_of_mem_turns ht)
    have hFramed := hPlaced.declared.complete.framed ht hResolved
    rw [hResolved]
    exact takes_complete hResolved (length_classes_of_outline hFramed.before.outline ▸ hc)) hDeclared
  rw [settle_apply]
  simp only [mapM_buildVMT]
  refine ⟨hCompleted.nodup, ?_⟩
  intro m hm
  rw [size_mapM_buildVMT]
  exact hCompleted.bounded m hm

end TLang
