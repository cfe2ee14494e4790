import TLang.Proofs.Registry.Cycles

/-! Lines of inheritance over any parent links, with cycles or without. Whatever is asked about two classes or
two types is answered by reachability, and two classes are on a line both ways only if they are on a cycle. -/
namespace TLang.Registry

variable {r : Registry} {a b c : ClassId}

/-- The line of a class is a walk that comes to its end, which meets the classes that can be reached, each of
them once. -/
structure WalkOf (r : Registry) (c : ClassId) : Prop where
  ends : ∀ steps, r.classes.length ≤ steps → r.climb steps [c] c = r.chain c
  nodup : (r.chain c).Nodup
  first : (r.chain c).head? = some c
  mem : ∀ a, a ∈ r.chain c ↔ r.Reaches c a

theorem walkOf (r : Registry) (c : ClassId) : r.WalkOf c where
  ends := fun _ hLe => (Walked.start r c).climb_of_le hLe
  nodup := nodup_chain r c
  first := by rw [chain_eq_cons, List.head?_cons]
  mem := fun _ => mem_chain_iff

theorem isSubclass_iff_reaches : r.isSubclass a b = true ↔ r.Reaches a b :=
  isSubclass_iff.trans mem_chain_iff

theorem isSome_related_iff : (r.related a b).isSome = true ↔ r.Reaches a b ∨ r.Reaches b a := by
  rw [related, ← isSubclass_iff_reaches, ← isSubclass_iff_reaches]
  by_cases hAbove : r.isSubclass a b = true
  · simp [hAbove]
  · by_cases hBelow : r.isSubclass b a = true <;> simp [hAbove, hBelow]

theorem reaches_of_related (h : r.related a b = some c) : (c = a ∨ c = b) ∧ r.Reaches a c ∧ r.Reaches b c := by
  rw [related] at h
  split at h
  · rename_i hAbove
    cases h
    exact ⟨.inr rfl, isSubclass_iff_reaches.mp hAbove, .refl⟩
  · split at h
    · rename_i hBelow
      cases h
      exact ⟨.inl rfl, .refl, isSubclass_iff_reaches.mp hBelow⟩
    · cases h

/-- Classes in which every one extends the one before it, and the last one the first. -/
def IsCycle (r : Registry) (cycle : Cycle ClassId) : Prop :=
  cycle.Nodup ∧ cycle.Chain fun c p => r.parent c = some p

/-- The classes of a cycle reach each other. -/
theorem IsCycle.reaches {cycle : Cycle ClassId} (h : r.IsCycle cycle) (ha : a ∈ cycle) (hb : b ∈ cycle) :
    r.Reaches a b := by
  have hChain : cycle.Chain r.Reaches := h.2.imp fun _ _ hParent => .single hParent
  have : IsTrans ClassId r.Reaches := ⟨fun _ _ _ => Relation.ReflTransGen.trans⟩
  exact Cycle.chain_iff_pairwise.mp hChain a ha b hb

/-- The parent of a class, or the class itself if it has none. -/
def next (r : Registry) (c : ClassId) : ClassId := (r.parent c).getD c

theorem Reaches.exists_iterate (h : r.Reaches a b) : ∃ n, r.next^[n] a = b := by
  induction h with
  | refl => exact ⟨0, rfl⟩
  | tail _ hParent ih =>
    obtain ⟨n, rfl⟩ := ih
    refine ⟨n + 1, ?_⟩
    rw [Function.iterate_succ_apply', next, hParent, Option.getD_some]

theorem OnCycle.parent_eq_next (h : r.OnCycle c) : r.parent c = some (r.next c) := by
  obtain ⟨p, hp, -⟩ := h
  rw [next, hp, Option.getD_some]

theorem OnCycle.iterate (h : r.OnCycle c) (n : Nat) : r.OnCycle (r.next^[n] c) := by
  induction n with
  | zero => exact h
  | succ n ih =>
    rw [Function.iterate_succ_apply']
    exact ih.of_reaches (.single ih.parent_eq_next)

/-- Two classes that reach each other lie on a cycle. -/
theorem exists_cycle (hNe : a ≠ b) (hAbove : r.Reaches a b) (hBelow : r.Reaches b a) :
    ∃ cycle, r.IsCycle cycle ∧ 2 ≤ cycle.length := by
  have hCycle : r.OnCycle a := by
    rcases hAbove.cases_head with hEq | ⟨p, hp, hReaches⟩
    · exact absurd hEq hNe
    · exact ⟨p, hp, Relation.ReflTransGen.trans hReaches hBelow⟩
  have hPeriodic : a ∈ Function.periodicPts r.next := by
    obtain ⟨p, hp, hReaches⟩ := hCycle
    obtain ⟨n, hn⟩ := hReaches.exists_iterate
    refine ⟨n + 1, Nat.succ_pos n, ?_⟩
    rw [Function.IsPeriodicPt, Function.IsFixedPt, Function.iterate_succ_apply, next, hp, Option.getD_some, hn]
  have hNodup : (Function.periodicOrbit r.next a).Nodup := Function.nodup_periodicOrbit
  refine ⟨_, ⟨hNodup, (Function.periodicOrbit_chain _).mpr fun n _ => ?_⟩, ?_⟩
  · rw [Function.iterate_succ_apply']
    exact (hCycle.iterate n).parent_eq_next
  · have hBoth := hNodup.nontrivial_iff.mp ⟨a, b, hNe, Function.self_mem_periodicOrbit hPeriodic,
      (Function.mem_periodicOrbit_iff hPeriodic).mpr hAbove.exists_iterate⟩
    exact Nat.lt_of_not_le hBoth

theorem antisymmetric_iff : (∀ a b, r.isSubclass a b = true → r.isSubclass b a = true → a = b) ↔
    ¬ ∃ cycle, r.IsCycle cycle ∧ 2 ≤ cycle.length := by
  simp only [isSubclass_iff_reaches]
  constructor
  · rintro hAntisymm ⟨cycle, hCycle, hLength⟩
    obtain ⟨a, b, hNe, ha, hb⟩ := hCycle.1.nontrivial_iff.mpr (Nat.not_le_of_lt hLength)
    exact hNe (hAntisymm a b (hCycle.reaches ha hb) (hCycle.reaches hb ha))
  · intro hNone a b hAbove hBelow
    by_contra hNe
    exact hNone (exists_cycle hNe hAbove hBelow)

/-- Whatever the parent links are, lines of inheritance are reachability along them. Cycles are not excluded: on
one, a line ends before it would come back. -/
theorem chain_is_reachability (r : Registry) : (∀ c, r.WalkOf c) ∧
      (∀ a b, r.isSubclass a b = true ↔ r.Reaches a b) ∧
      (∀ a b, (r.related a b).isSome = true ↔ r.Reaches a b ∨ r.Reaches b a) ∧
      (∀ a b c, r.related a b = some c → (c = a ∨ c = b) ∧ r.Reaches a c ∧ r.Reaches b c) ∧
      (∀ a b, (r.related a b).isSome = (r.related b a).isSome) ∧
      (∀ ty, r.isAssignable ty ty = true) ∧
      (∀ ty ty' ty'', r.isAssignable ty ty' = true → r.isAssignable ty' ty'' = true →
        r.isAssignable ty ty'' = true) ∧
      ((∀ a b, r.isSubclass a b = true → r.isSubclass b a = true → a = b) ↔
        ¬ ∃ cycle, r.IsCycle cycle ∧ 2 ≤ cycle.length) := by
  refine ⟨walkOf r, fun _ _ => isSubclass_iff_reaches, fun _ _ => isSome_related_iff,
    fun _ _ _ => reaches_of_related, ?_, isAssignable_self r, fun _ _ _ => isAssignable_trans, antisymmetric_iff⟩
  intro a b
  rw [Bool.eq_iff_iff, isSome_related_iff, isSome_related_iff, or_comm]

end TLang.Registry
