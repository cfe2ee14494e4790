import TLang.Proofs.Enlistment

/-! Passes over the classes of a program. Each declaration has one turn, and in its turn only its own
class changes. So a declaration finds its class as it was before the pass, and leaves it as it will be
after the pass. What is recorded in a turn has the numbers that are next at that time, so the turns of a
pass divide its numbers into blocks. -/
namespace TLang

open Registry Analysis List

variable {k : Nat} {d d' : ClassDecl} {f : ClassDecl → Analysis ClassDecl} {order : List Nat}
  {ds : List ClassDecl} {env : Env}

namespace Analysis

section InOrder

variable {γ : Type} {cs : List γ} {P Q : γ → ClassDecl → Prop} {step : ClassDecl → Analysis ClassDecl}

theorem inOrder_cons_of_none (hk : ds[k]? = none) (env : Env) :
    inOrder (k :: order) step ds env = inOrder order step ds env := by
  simp only [inOrder, foldlM_cons, hk]
  rfl

/-- A pass takes one step after the other. -/
theorem inOrder_cons_of_some (hd : ds[k]? = some d) (env : Env) : inOrder (k :: order) step ds env =
      ⟨(inOrder order step (ds.set k (step d env).value.1) (step d env).value.2).value,
        (step d env).log ++
          (inOrder order step (ds.set k (step d env).value.1) (step d env).value.2).log⟩ := by
  simp only [inOrder, foldlM_cons, hd]
  apply Logged.ext <;> simp

/-- In a pass in which no declaration is due twice, each one is left alone or has one turn. -/
theorem getElem?_inOrder (hNodup : order.Nodup) (ds : List ClassDecl) (env : Env) (i : Nat) :
    (inOrder order step ds env).value.1[i]? = ds[i]? ∨ i ∈ order ∧ ∃ d e,
      ds[i]? = some d ∧ (inOrder order step ds env).value.1[i]? = some (step d e).value.1 := by
  induction order generalizing ds env with
  | nil => exact .inl rfl
  | cons k order ih =>
    obtain ⟨hNot, hRest⟩ := nodup_cons.mp hNodup
    cases hd : ds[k]? with
    | none =>
      rw [inOrder_cons_of_none hd]
      refine (ih hRest ds env).imp_right ?_
      rintro ⟨hi, hTurn⟩
      exact ⟨mem_cons_of_mem _ hi, hTurn⟩
    | some d =>
      rw [inOrder_cons_of_some hd]
      by_cases hik : i = k
      · subst hik
        rcases ih hRest (ds.set i (step d env).value.1) (step d env).value.2 with h | ⟨hi, -⟩
        · rw [List.getElem?_set_self (List.getElem?_eq_some_iff.mp hd).1] at h
          exact .inr ⟨mem_cons_self, d, env, hd, h⟩
        · exact absurd hi hNot
      · have hOther := ih hRest (ds.set k (step d env).value.1) (step d env).value.2
        rw [List.getElem?_set_ne (Ne.symm hik)] at hOther
        refine hOther.imp_right ?_
        rintro ⟨hi, hLater⟩
        exact ⟨mem_cons_of_mem _ hi, hLater⟩

/-- A view that no step changes is not changed by the pass. -/
theorem map_inOrder {β : Type} {view : ClassDecl → β} (hStep : ∀ d e, view (step d e).value.1 = view d)
    (hNodup : order.Nodup) (ds : List ClassDecl) (env : Env) :
    (inOrder order step ds env).value.1.map view = ds.map view := by
  refine ext_getElem? fun i => ?_
  rw [List.getElem?_map, List.getElem?_map]
  rcases getElem?_inOrder hNodup ds env i with hSame | ⟨-, d, e, hd, hTurn⟩
  · rw [hSame]
  · rw [hTurn, hd, Option.map_some, Option.map_some, hStep]

/-- No pass adds a class declaration or drops one. -/
theorem length_inOrder (order : List Nat) (ds : List ClassDecl) (env : Env) :
    (inOrder order step ds env).value.1.length = ds.length := by
  induction order generalizing ds env with
  | nil => rfl
  | cons k order ih =>
    cases hd : ds[k]? with
    | none =>
      rw [inOrder_cons_of_none hd]
      exact ih ds env
    | some d =>
      rw [inOrder_cons_of_some hd]
      exact (ih _ _).trans length_set

/-- What a turn makes of a declaration, a pass makes of all. -/
theorem forall₂_inOrder (hNodup : order.Nodup) (hKeep : ∀ c d, P c d → Q c d)
    (hStep : ∀ c d env, P c d → Q c (step d env).value.1) (h : List.Forall₂ P cs ds) (env : Env) :
    List.Forall₂ Q cs (inOrder order step ds env).value.1 := by
  rw [forall₂_iff_get] at h ⊢
  obtain ⟨hLength, hP⟩ := h
  refine ⟨hLength.trans (length_inOrder order ds env).symm, ?_⟩
  intro i hi hi'
  have hi'' : i < ds.length := hLength ▸ hi
  have hAt := hP i hi hi''
  simp only [get_eq_getElem] at hAt ⊢
  rcases getElem?_inOrder hNodup ds env i with hSame | ⟨-, d, e, hd, hTurn⟩
  · rw [List.getElem?_eq_getElem hi', List.getElem?_eq_getElem hi'', Option.some.injEq] at hSame
    rw [hSame]
    exact hKeep _ _ hAt
  · rw [List.getElem?_eq_getElem hi', Option.some.injEq] at hTurn
    rw [List.getElem?_eq_getElem hi'', Option.some.injEq] at hd
    rw [hTurn, ← hd]
    exact hStep _ _ e hAt

theorem forall₂_mapM (hStep : ∀ c d env, P c d → Q c (f d env).value.1) (h : List.Forall₂ P cs ds) (env : Env) :
    List.Forall₂ Q cs (ds.mapM f env).value.1 := by
  induction h generalizing env with
  | nil => exact .nil
  | cons hFirst _ ih =>
    rw [mapM_cons_apply]
    exact .cons (hStep _ _ env hFirst) (ih _)

/-- The declarations at the given indices. -/
def due (order : List Nat) (ds : List ClassDecl) : List ClassDecl := order.filterMap (ds[·]?)

theorem due_set {i : Nat} (hi : i ∉ order) (ds : List ClassDecl) (d : ClassDecl) :
    due order (ds.set i d) = due order ds := by
  refine filterMap_congr ?_
  intro j hj
  refine List.getElem?_set_ne ?_
  rintro rfl
  exact hi hj

/-- A pass takes its steps in the order in which the declarations are due. -/
theorem inOrder_apply (hNodup : order.Nodup) (ds : List ClassDecl) (env : Env) :
    (inOrder order step ds env).value.2 = ((due order ds).mapM step env).value.2 ∧
      (inOrder order step ds env).log = ((due order ds).mapM step env).log ∧
      due order (inOrder order step ds env).value.1 = ((due order ds).mapM step env).value.1 := by
  induction order generalizing ds env with
  | nil => exact ⟨rfl, rfl, rfl⟩
  | cons i order ih =>
    obtain ⟨hNot, hRest⟩ := nodup_cons.mp hNodup
    cases hd : ds[i]? with
    | none =>
      have hDue : due (i :: order) ds = due order ds := filterMap_cons_none hd
      have hDue' : due (i :: order) (inOrder order step ds env).value.1 =
          due order (inOrder order step ds env).value.1 := by
        refine filterMap_cons_none (List.getElem?_eq_none ?_)
        rw [length_inOrder]
        exact List.getElem?_eq_none_iff.mp hd
      rw [inOrder_cons_of_none hd, hDue, hDue']
      exact ih hRest ds env
    | some d =>
      have hDue : due (i :: order) ds = d :: due order ds := filterMap_cons_some hd
      obtain ⟨hEnv, hLog, hValue⟩ := ih hRest (ds.set i (step d env).value.1) (step d env).value.2
      rw [due_set hNot] at hEnv hLog hValue
      rw [inOrder_cons_of_some hd, hDue, mapM_cons_apply]
      refine ⟨hEnv, congrArg ((step d env).log ++ ·) hLog, ?_⟩
      have hi := (List.getElem?_eq_some_iff.mp hd).1
      rcases getElem?_inOrder hRest (ds.set i (step d env).value.1) (step d env).value.2 i with
        hSame | ⟨hi', -⟩
      · rw [List.getElem?_set_self hi] at hSame
        exact (filterMap_cons_some hSame).trans (congrArg _ hValue)
      · exact absurd hi' hNot

theorem due_range (ds : List ClassDecl) : due (List.range ds.length) ds = ds := by
  induction ds with
  | nil => rfl
  | cons d ds ih =>
    have hFirst : (d :: ds)[0]? = some d := rfl
    rw [length_cons, range_succ_eq_map, due, filterMap_cons_some hFirst, filterMap_map]
    exact congrArg (d :: ·) ih

/-- If all declarations are due, then none is missing. -/
theorem perm_due (hNodup : order.Nodup) (hCovers : ∀ i < ds.length, i ∈ order) : (due order ds).Perm ds := by
  have hFilter : due order ds = due (order.filter (· < ds.length)) ds := by
    rw [due, due, filterMap_filter]
    refine filterMap_congr ?_
    intro i _
    by_cases hi : i < ds.length
    · simp [hi]
    · simp [hi]
  have hRange : (order.filter (· < ds.length)).Perm (List.range ds.length) := by
    rw [perm_ext_iff_of_nodup (hNodup.filter _) nodup_range]
    intro i
    simp only [mem_filter, decide_eq_true_eq, mem_range]
    exact ⟨fun h => h.2, fun hi => ⟨hCovers i hi, hi⟩⟩
  rw [hFilter]
  exact (hRange.filterMap _).trans (.of_eq (due_range ds))

end InOrder

section Turns

variable {α β : Type} {f : α → Analysis β} {as : List α} {t : α × Env}

/-- Who has a turn in a pass, and what the environment is like at that time. -/
def turns (f : α → Analysis β) : List α → Env → List (α × Env)
  | [], _ => []
  | a :: as, env => (a, env) :: turns f as (f a env).value.2

section

variable (f) (as) (env : Env)

theorem map_fst_turns : (turns f as env).map Prod.fst = as := by
  induction as generalizing env with
  | nil => rfl
  | cons a as ih => exact congrArg (a :: ·) (ih _)

theorem value_mapM : (as.mapM f env).value.1 = (turns f as env).map fun t => (f t.1 t.2).value.1 := by
  induction as generalizing env with
  | nil => rfl
  | cons a as ih =>
    rw [mapM_cons_apply]
    exact congrArg ((f a env).value.1 :: ·) (ih _)

/-- A view that no step of a pass changes is not changed by the pass. -/
theorem map_value_mapM {f : α → Analysis α} {view : α → β}
    (hStep : ∀ a env, view (f a env).value.1 = view a) (as : List α) (env : Env) :
    (as.mapM f env).value.1.map view = as.map view := by
  rw [value_mapM, map_map]
  nth_rewrite 2 [← map_fst_turns f as env]
  rw [map_map]
  exact map_congr_left fun t _ => hStep t.1 t.2

theorem log_mapM : (as.mapM f env).log = (turns f as env).flatMap fun t => (f t.1 t.2).log := by
  induction as generalizing env with
  | nil => rfl
  | cons a as ih =>
    rw [mapM_cons_apply]
    exact congrArg ((f a env).log ++ ·) (ih _)

end

theorem fst_mem_of_mem_turns (ht : t ∈ turns f as env) : t.1 ∈ as :=
  map_fst_turns f as env ▸ mem_map_of_mem ht

/-- What a pass yields was made in some turn, and what was reported then is part of what the pass reports. -/
theorem exists_turn_of_mem_mapM {b : β} (hb : b ∈ (as.mapM f env).value.1) :
    ∃ a ∈ as, ∃ e, b = (f a e).value.1 ∧ (f a e).log ⊆ (as.mapM f env).log := by
  rw [value_mapM] at hb
  obtain ⟨t, ht, rfl⟩ := mem_map.mp hb
  refine ⟨t.1, fst_mem_of_mem_turns ht, t.2, rfl, ?_⟩
  rw [log_mapM]
  exact fun d hd => mem_flatMap.mpr ⟨t, ht, hd⟩

/-- A turn divides the pass into what comes before it and what comes after it. -/
theorem exists_split_of_mem_turns (ht : t ∈ turns f as env) : ∃ before after,
    as = before ++ t.1 :: after ∧ t.2 = (before.mapM f env).value.2 ∧
      (as.mapM f env).value.2 = (after.mapM f (f t.1 t.2).value.2).value.2 := by
  induction as generalizing env with
  | nil => cases ht
  | cons a as ih =>
    rw [turns, mem_cons] at ht
    rcases ht with rfl | ht
    · exact ⟨[], as, rfl, rfl, by rw [mapM_cons_apply]⟩
    · obtain ⟨before, after, rfl, hBefore, hAfter⟩ := ih ht
      refine ⟨a :: before, after, rfl, ?_, ?_⟩
      · rw [mapM_cons_apply]
        exact hBefore
      · rw [mapM_cons_apply]
        exact hAfter

/-- What every step keeps holds at every turn and at the end. -/
theorem invariant_turns (holds : Env → Prop) (as : List α)
    (hStep : ∀ a ∈ as, ∀ e, holds e → holds (f a e).value.2) (hStart : holds env) :
    (∀ t ∈ turns f as env, holds t.2) ∧ holds (as.mapM f env).value.2 := by
  induction as generalizing env with
  | nil => exact ⟨fun t ht => absurd ht not_mem_nil, hStart⟩
  | cons a as ih =>
    rw [forall_mem_cons] at hStep
    obtain ⟨hTurns, hEnd⟩ := ih hStep.2 (hStep.1 env hStart)
    rw [turns, forall_mem_cons, mapM_cons_apply]
    exact ⟨⟨hStart, hTurns⟩, hEnd⟩

/-- The turns of a pass divide its numbers into blocks. -/
theorem blocks_of_turns (cost : α × Env → Nat) (as : List α) (env : Env)
    (hCost : ∀ t ∈ turns f as env, (f t.1 t.2).value.2.size = t.2.size + cost t) :
    (as.mapM f env).value.2.size = env.size + ((turns f as env).map cost).sum ∧
      (turns f as env).flatMap (fun t => List.range' t.2.size (cost t)) =
        List.range' env.size ((turns f as env).map cost).sum := by
  induction as generalizing env with
  | nil => exact ⟨rfl, rfl⟩
  | cons a as ih =>
    rw [turns, forall_mem_cons] at hCost
    obtain ⟨hSize, hBlocks⟩ := ih (f a env).value.2 hCost.2
    rw [hCost.1] at hSize hBlocks
    rw [mapM_cons_apply, turns, flatMap_cons, map_cons, sum_cons, hBlocks]
    exact ⟨by rw [hSize, Nat.add_assoc], range'_append_1⟩

end Turns

theorem exists_turn_of_mem_inOrder {step : ClassDecl → Analysis ClassDecl} (hNodup : order.Nodup)
    (hCovers : ∀ i < ds.length, i ∈ order) (hd' : d' ∈ (inOrder order step ds env).value.1) :
    ∃ d ∈ ds, ∃ e, d' = (step d e).value.1 ∧ (step d e).log ⊆ (inOrder order step ds env).log := by
  obtain ⟨-, hLog, hDue⟩ := @inOrder_apply order step hNodup ds env
  rw [← (perm_due hNodup (length_inOrder order ds env ▸ hCovers)).mem_iff, hDue] at hd'
  obtain ⟨d, hd, e, hTurn⟩ := exists_turn_of_mem_mapM hd'
  exact ⟨d, (perm_due hNodup hCovers).mem_iff.mp hd, e, hLog ▸ hTurn⟩

end Analysis

/-! What a pass over classes leaves alone. -/

/-- Only some classes change, and nothing that was recorded is lost. -/
structure Registry.GrowsAmong (cs : List ClassId) (r r' : Registry) : Prop where
  extension : Extends r r'
  others : ∀ c, c ∉ cs → r'.classInfo c = r.classInfo c

abbrev Env.GrowsAmong (cs : List ClassId) : Env → Env → Prop := Env.Along (Registry.GrowsAmong cs)

theorem Env.GrowsAmong.refl (cs : List ClassId) (env : Env) : env.GrowsAmong cs env :=
  ⟨⟨.refl env.types, fun _ _ => rfl⟩, rfl, rfl⟩

theorem Env.Grows.growsAmong_trans {c : ClassId} {cs : List ClassId} {env' env'' : Env} (h : env.Grows c env')
    (h' : env'.GrowsAmong cs env'') : env.GrowsAmong (c :: cs) env'' where
  types := by
    refine ⟨h.types.extension.trans h'.types.extension, ?_⟩
    intro c' hc'
    rw [mem_cons, not_or] at hc'
    rw [h'.types.others c' hc'.2, h.types.others c' hc'.1]
  globals := h'.globals.trans h.globals
  position := h'.position.trans h.position

namespace Analysis

variable {as : List ClassDecl} {t : ClassDecl × Env} {c : ClassId}

/-- The declarations are those of different registered classes. -/
structure Placed (as : List ClassDecl) (env : Env) : Prop where
  known : ∀ d ∈ as, ∃ c, d.resolved = some c ∧ c.index < env.types.classes.length
  distinct : (as.map ClassDecl.resolved).Nodup

/-- The declarations are those of different classes, and a step only changes the class it is for. -/
structure Ordered (f : ClassDecl → Analysis ClassDecl) (as : List ClassDecl) (env : Env) : Prop
    extends Placed as env where
  enlarges : ∀ d ∈ as, ∀ c, d.resolved = some c → Enlarges c (f d)

/-- A pass changes no class but those that have a turn in it. -/
theorem growsAmong_mapM
    (hKnown : ∀ d ∈ as, ∃ c, d.resolved = some c ∧ c.index < env.types.classes.length)
    (hEnlarges : ∀ d ∈ as, ∀ c, d.resolved = some c → Enlarges c (f d)) :
    env.GrowsAmong (as.filterMap ClassDecl.resolved) (as.mapM f env).value.2 := by
  induction as generalizing env with
  | nil => exact .refl _ env
  | cons d as ih =>
    rw [forall_mem_cons] at hKnown hEnlarges
    obtain ⟨⟨c, hResolved, hc⟩, hKnown⟩ := hKnown
    have hGrows := hEnlarges.1 c hResolved env hc
    rw [filterMap_cons_some hResolved, mapM_cons_apply]
    refine hGrows.growsAmong_trans (ih ?_ hEnlarges.2)
    rw [length_classes_of_outline hGrows.types.outline]
    exact hKnown

/-- Steps keep the numbers of classes. -/
theorem resolved_mapM (hStep : ∀ d ∈ as, ∀ e, (f d e).value.1.resolved = d.resolved) (env : Env) :
    (as.mapM f env).value.1.map ClassDecl.resolved = as.map ClassDecl.resolved := by
  rw [value_mapM, map_map]
  conv_rhs => rw [← map_fst_turns f as env, map_map]
  refine map_congr_left ?_
  intro t ht
  exact hStep t.1 (fst_mem_of_mem_turns ht) t.2

/-- A pass that keeps the numbers of classes leaves them as ready for the next pass as they were. -/
theorem Ordered.placed_mapM (h : Ordered f as env)
    (hStep : ∀ d ∈ as, ∀ e, (f d e).value.1.resolved = d.resolved) :
    Placed (as.mapM f env).value.1 (as.mapM f env).value.2 := by
  have hResolved := resolved_mapM hStep env
  refine ⟨?_, hResolved ▸ h.distinct⟩
  intro d hd
  have hMem : d.resolved ∈ as.map ClassDecl.resolved := hResolved ▸ mem_map_of_mem hd
  obtain ⟨d₀, hd₀, hEq⟩ := mem_map.mp hMem
  have hOutline := (growsAmong_mapM h.known h.enlarges).types.extension.outline
  rw [← hEq, length_classes_of_outline hOutline]
  exact h.known d₀ hd₀

/-- A turn finds the class as it was before the pass and leaves it as it will be after the pass. -/
structure Framed (f : ClassDecl → Analysis ClassDecl) (c : ClassId) (env final : Env)
    (t : ClassDecl × Env) : Prop where
  before : env.types.Extends t.2.types
  found : t.2.types.classInfo c = env.types.classInfo c
  turn : t.2.Grows c (f t.1 t.2).value.2
  after : (f t.1 t.2).value.2.types.Extends final.types
  left : final.types.classInfo c = (f t.1 t.2).value.2.types.classInfo c

/-- As no class has two turns, the turns before this one and after it leave its class alone. -/
theorem Ordered.framed (h : Ordered f as env) (ht : t ∈ turns f as env)
    (hResolved : t.1.resolved = some c) : Framed f c env (as.mapM f env).value.2 t := by
  obtain ⟨before, after, rfl, hBefore, hAfter⟩ := exists_split_of_mem_turns ht
  obtain ⟨⟨hKnown, hDistinct⟩, hEnlarges⟩ := h
  rw [map_append, map_cons, hResolved, nodup_append, nodup_cons] at hDistinct
  obtain ⟨-, ⟨hLater, -⟩, hEarlier⟩ := hDistinct
  have hMap : ∀ {ds : List ClassDecl}, c ∈ ds.filterMap ClassDecl.resolved →
      some c ∈ ds.map ClassDecl.resolved := by
    intro ds hc
    obtain ⟨d, hd, hEq⟩ := mem_filterMap.mp hc
    exact hEq ▸ mem_map_of_mem hd
  have hFirst : env.GrowsAmong (before.filterMap ClassDecl.resolved) t.2 := hBefore ▸
    growsAmong_mapM (fun d hd => hKnown d (mem_append_left _ hd))
      (fun d hd => hEnlarges d (mem_append_left _ hd))
  have hLength : t.2.types.classes.length = env.types.classes.length :=
    length_classes_of_outline hFirst.types.extension.outline
  have hMem : t.1 ∈ before ++ t.1 :: after := mem_append_right _ mem_cons_self
  obtain ⟨c', hc', hc⟩ := hKnown t.1 hMem
  obtain rfl : c = c' := Option.some.inj (hResolved.symm.trans hc')
  have hTurn := hEnlarges t.1 hMem c hResolved t.2 (hLength ▸ hc)
  have hRest : (f t.1 t.2).value.2.GrowsAmong (after.filterMap ClassDecl.resolved)
      ((before ++ t.1 :: after).mapM f env).value.2 := by
    rw [hAfter]
    refine growsAmong_mapM ?_
      (fun d hd => hEnlarges d (mem_append_right _ (mem_cons_of_mem _ hd)))
    rw [length_classes_of_outline hTurn.types.outline, hLength]
    exact fun d hd => hKnown d (mem_append_right _ (mem_cons_of_mem _ hd))
  refine ⟨hFirst.types.extension, hFirst.types.others c ?_, hTurn, hRest.types.extension,
    hRest.types.others c fun hc => hLater (hMap hc)⟩
  exact fun hc => hEarlier _ (hMap hc) _ mem_cons_self rfl

/-- The numbers that are handed out in a turn lie between those before and after the pass. -/
theorem Ordered.turn_bounds (h : Ordered f as env) (ht : t ∈ turns f as env) :
    env.size ≤ t.2.size ∧ (f t.1 t.2).value.2.size ≤ (as.mapM f env).value.2.size := by
  obtain ⟨c, hResolved, -⟩ := h.known t.1 (fst_mem_of_mem_turns ht)
  have hFramed := h.framed ht hResolved
  exact ⟨hFramed.before.methods.length_le, hFramed.after.methods.length_le⟩

end Analysis

/-! Which numbers the routines of a class get. -/

/-- The step appends routines to a declaration. They have numbers of the next ones, as many as it
takes, and each a different one. -/
structure ClassDecl.Takes (d : ClassDecl) (env : Env) (count : Nat) (x : Checked (ClassDecl × Env)) :
    Prop where
  resolved : x.value.1.resolved = d.resolved
  size : x.value.2.size = env.size + count
  routines : ∃ added, x.value.1.routines = d.routines ++ added ∧
    added.Sublist ((List.range' env.size count).map MethodId.mk)

/-- Stamped members have no numbers but the ones handed out, in the same order. Members that were refused get
none. -/
theorem Member.routines_stamped (className : String) {members : List Member}
    (hNone : ∀ member ∈ members, member.routine? = none) (ids : List (Option MethodId)) :
    ((List.zipWith (stamped className) members ids).filterMap routine?).Sublist
      (ids.flatMap Option.toList) := by
  rw [filterMap_eq_flatMap_toList]
  induction members generalizing ids with
  | nil => exact nil_sublist _
  | cons member members ih =>
    rw [forall_mem_cons] at hNone
    cases ids with
    | nil => exact .refl _
    | cons m ids =>
      have hFirst : (member.stamped className m).routine?.toList.Sublist m.toList := by
        cases member with
        | field d => exact nil_sublist _
        | method d =>
          have hResolved : d.resolved = none := hNone.1
          simp [stamped, routine?, hResolved]
      exact hFirst.append (ih hNone.2 ids)

namespace ClassDecl

variable {id : ClassId}

theorem takes_extend (id : ClassId) {members : List Member} (hNone : ∀ member ∈ members, member.routine? = none)
    (d : ClassDecl) (env : Env) : d.Takes env (members.map Member.demand).sum (d.extend id members env) := by
  obtain ⟨hSize, hTaken⟩ := enrollAll_takes id d.name members env
  rw [extend_apply]
  exact ⟨rfl, hSize, _, filterMap_append, (Member.routines_stamped d.name hNone _).trans hTaken⟩

theorem takes_declareMembers (hResolved : d.resolved = some id) (hNone : d.routines = []) (env : Env) :
    d.Takes env d.demand (d.declareMembers env) := by
  obtain ⟨hKept, hSize, hRoutines⟩ :=
    takes_extend id (filterMap_eq_nil_iff.mp hNone) { d with members := [] } env
  rw [declareMembers_eq hResolved]
  refine ⟨hKept, hSize, ?_⟩
  rwa [hNone]

theorem takes_complete (hResolved : d.resolved = some id)
    (hId : id.index < env.types.classes.length) :
    d.Takes env (env.types.classInfo id).lacking (d.complete env) := by
  obtain ⟨wanted, hSub, hWanted, hComplete⟩ := exists_complete hResolved env
  rw [hComplete, ← demand_missing d, ← hWanted hId]
  have hTakes := takes_extend id (fun member hMember => routine_of_mem_defaults (hSub.subset hMember)) d
    { env with types := env.types.inheritFields id }
  exact ⟨hTakes.resolved, hTakes.size, hTakes.routines⟩

end ClassDecl

/-- The routines of some declarations are different ones, and all are recorded. -/
structure ClassDecl.Apart (ids : List MethodId) (env : Env) : Prop where
  nodup : ids.Nodup
  bounded : ∀ m ∈ ids, m.index < env.size

/-- Routines that are added in a pass stay apart from each other and from those before. -/
theorem ClassDecl.apart_mapM {as : List ClassDecl} (cost : ClassDecl × Env → Nat)
    (hTakes : ∀ t ∈ turns f as env, t.1.Takes t.2 (cost t) (f t.1 t.2)) {others : List MethodId}
    (h : Apart (others ++ as.flatMap routines) env) :
    Apart (others ++ (as.mapM f env).value.1.flatMap routines) (as.mapM f env).value.2 := by
  induction as generalizing env others with
  | nil => exact h
  | cons d as ih =>
    rw [turns, forall_mem_cons] at hTakes
    obtain ⟨⟨-, hSize, added, hRoutines, hAdded⟩, hRest⟩ := hTakes
    rw [mapM_cons_apply, flatMap_cons, ← append_assoc]
    refine ih hRest ?_
    have hPerm : (others ++ (f d env).value.1.routines ++ as.flatMap routines).Perm
        ((others ++ (d :: as).flatMap routines) ++ added) := by
      rw [hRoutines, flatMap_cons, append_assoc, append_assoc, append_assoc, append_assoc]
      exact .append_left _ (.append_left _ perm_append_comm)
    have hNew : ∀ m ∈ added, env.size ≤ m.index ∧ m.index < env.size + cost (d, env) := by
      intro m hm
      obtain ⟨k, hk, rfl⟩ := mem_map.mp (hAdded.subset hm)
      exact mem_range'_1.mp hk
    refine ⟨hPerm.nodup_iff.mpr (nodup_append.mpr ⟨h.nodup, hAdded.nodup ?_, ?_⟩), ?_⟩
    · have hRange : (List.range' env.size (cost (d, env))).Nodup := nodup_range'
      exact hRange.map fun _ _ hEq => congrArg MethodId.index hEq
    · rintro m hm _ hm' rfl
      exact Nat.not_le.mpr (h.bounded m hm) (hNew m hm').1
    · intro m hm
      rw [hSize]
      rcases mem_append.mp (hPerm.mem_iff.mp hm) with hm | hm
      · exact Nat.lt_of_lt_of_le (h.bounded m hm) (Nat.le_add_right _ _)
      · exact (hNew m hm).2

end TLang
