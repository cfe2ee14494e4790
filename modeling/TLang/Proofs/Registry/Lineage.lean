import Mathlib
import TLang.Registry.Lineage

/-! Lines of inheritance as reachability along parent links. The walk is bounded by the number of
classes and refuses to repeat one, and neither cuts it short: it meets exactly the classes that can
be reached. Where no class is its own proper ancestor, the walk of a class is the class followed by
the walk of its parent. -/
namespace TLang.Registry

open List

/-- The second class is the first one or one of its ancestors. -/
def Reaches (r : Registry) : ClassId → ClassId → Prop :=
  Relation.ReflTransGen fun c p => r.parent c = some p

/-- No class is its own proper ancestor. -/
def Acyclic (r : Registry) : Prop := ∀ c p, r.parent c = some p → ¬ r.Reaches p c

theorem mem_classIds {r : Registry} {c : ClassId} : c ∈ r.classIds ↔ c.index < r.classes.length := by
  simp only [classIds, mem_map, mem_range]
  exact ⟨fun ⟨i, hi, hc⟩ => hc ▸ hi, fun hc => ⟨c.index, hc, rfl⟩⟩

theorem lt_of_parent {r : Registry} {c p : ClassId} (hParent : r.parent c = some p) :
    c.index < r.classes.length := by
  by_contra hOut
  have hNone : r.classes[c.index]? = none := List.getElem?_eq_none (Nat.le_of_not_lt hOut)
  simp [parent, classInfo, hNone] at hParent

/-- Only registered classes have a parent, so distinct classes with parents are never more than all
classes. -/
theorem length_le_of_parents {r : Registry} {seen : List ClassId} (hNodup : seen.Nodup)
    (hParents : ∀ c ∈ seen, ∃ p, r.parent c = some p) : seen.length ≤ r.classes.length := by
  have hSubset : seen ⊆ r.classIds := by
    intro c hc
    obtain ⟨p, hp⟩ := hParents c hc
    exact mem_classIds.mpr (lt_of_parent hp)
  have hLength := (subperm_of_subset hNodup hSubset).length_le
  simpa [classIds] using hLength

/-- What a walk has met so far: distinct classes, each but the current one followed by its parent. -/
structure Walked (r : Registry) (steps : Nat) (seen : List ClassId) (current : ClassId) : Prop where
  nodup : seen.Nodup
  here : current ∈ seen
  followed : ∀ c ∈ seen, c ≠ current → ∃ p ∈ seen, r.parent c = some p
  bound : seen.length + steps = r.classes.length + 1

namespace Walked

variable {r : Registry} {steps : Nat} {seen : List ClassId} {current p : ClassId}

theorem start (r : Registry) (c : ClassId) : Walked r r.classes.length [c] c where
  nodup := nodup_singleton c
  here := mem_singleton.mpr rfl
  followed := fun a ha hne => absurd (mem_singleton.mp ha) hne
  bound := by simp [Nat.add_comm]

/-- A step up to a parent that was not seen uses up one of the steps that are left. -/
theorem next (h : Walked r (steps + 1) seen current) (hParent : r.parent current = some p)
    (hNew : p ∉ seen) : Walked r steps (seen ++ [p]) p where
  nodup := by
    rw [← concat_eq_append]
    exact h.nodup.concat hNew
  here := by simp
  followed := by
    intro c hc hne
    have hSeen : c ∈ seen := by simpa [hne] using hc
    by_cases hCurrent : c = current
    · exact ⟨p, by simp, hCurrent ▸ hParent⟩
    · obtain ⟨q, hq, hpq⟩ := h.followed c hSeen hCurrent
      exact ⟨q, mem_append_left _ hq, hpq⟩
  bound := by
    have := h.bound
    simp only [length_append, length_singleton]
    omega

/-- A walk that has used up its steps stands at a class without a parent: otherwise it would have
met more classes than there are. -/
theorem parent_eq_none (h : Walked r 0 seen current) : r.parent current = none := by
  by_contra hSome
  obtain ⟨p, hp⟩ := Option.ne_none_iff_exists'.mp hSome
  have hLength : seen.length ≤ r.classes.length := by
    apply length_le_of_parents h.nodup
    intro c hc
    by_cases hCurrent : c = current
    · exact ⟨p, hCurrent ▸ hp⟩
    · obtain ⟨q, _, hq⟩ := h.followed c hc hCurrent
      exact ⟨q, hq⟩
  have := h.bound
  omega

variable (h : Walked r steps seen current)
include h

/-- What the walk returns is closed under parents. -/
theorem climb_closed {c q : ClassId}
    (hc : c ∈ r.climb steps seen current) (hq : r.parent c = some q) :
    q ∈ r.climb steps seen current := by
  -- A walk that ends has the parent of the class it stands at, if any, among the classes it met.
  have hStop : ∀ {steps seen current}, Walked r steps seen current →
      (∀ p, r.parent current = some p → p ∈ seen) →
      ∀ c ∈ seen, ∀ q, r.parent c = some q → q ∈ seen := by
    intro steps seen current h hLast c hc q hq
    by_cases hCurrent : c = current
    · exact hLast q (hCurrent ▸ hq)
    · obtain ⟨p, hp, hcp⟩ := h.followed c hc hCurrent
      exact Option.some.inj (hcp.symm.trans hq) ▸ hp
  induction steps generalizing seen current with
  | zero => exact hStop h (fun p hp => absurd (hp.symm.trans h.parent_eq_none) (by simp)) c hc q hq
  | succ steps ih =>
    rw [climb] at hc ⊢
    cases hParent : r.parent current with
    | none =>
      simp only [hParent] at hc ⊢
      exact hStop h (fun p hp => absurd (hp.symm.trans hParent) (by simp)) c hc q hq
    | some p =>
      simp only [hParent] at hc ⊢
      by_cases hSeen : p ∈ seen
      · simp only [if_pos hSeen] at hc ⊢
        exact hStop h (fun p' hp => Option.some.inj (hParent.symm.trans hp) ▸ hSeen) c hc q hq
      · simp only [if_neg hSeen] at hc ⊢
        exact ih (h.next hParent hSeen) hc

/-- No class is listed twice, even if the parents form a cycle. -/
theorem nodup_climb : (r.climb steps seen current).Nodup := by
  induction steps generalizing seen current with
  | zero => exact h.nodup
  | succ steps ih =>
    rw [climb]
    split
    · exact h.nodup
    · rename_i p hParent
      split
      · exact h.nodup
      · rename_i hNew
        exact ih (h.next hParent hNew)

/-- More steps than there are classes make no difference. -/
theorem climb_of_le {more : Nat} (hLe : steps ≤ more) :
    r.climb more seen current = r.climb steps seen current := by
  induction steps generalizing seen current more with
  | zero =>
    cases more with
    | zero => rfl
    | succ more => simp only [climb, h.parent_eq_none]
  | succ steps ih =>
    obtain ⟨more, rfl⟩ : ∃ k, more = k + 1 := ⟨more - 1, by omega⟩
    rw [climb, climb]
    cases hParent : r.parent current with
    | none => rfl
    | some p =>
      by_cases hSeen : p ∈ seen
      · simp only [if_pos hSeen]
      · simp only [if_neg hSeen]
        exact ih (h.next hParent hSeen) (by omega)

end Walked

section

variable (r : Registry)

/-- What was seen stays in front, in the order in which it was seen. -/
theorem isPrefix_climb (steps : Nat) (seen : List ClassId) (current : ClassId) :
    seen <+: r.climb steps seen current := by
  induction steps generalizing seen current with
  | zero => exact prefix_rfl
  | succ steps ih =>
    rw [climb]
    split
    · exact prefix_rfl
    · split
      · exact prefix_rfl
      · exact (prefix_append _ _).trans (ih _ _)

theorem nodup_chain (c : ClassId) : (r.chain c).Nodup := (Walked.start r c).nodup_climb

theorem chain_eq_cons (c : ClassId) : r.chain c = c :: r.ancestors c := by
  obtain ⟨rest, hRest⟩ : [c] <+: r.chain c := isPrefix_climb ..
  rw [ancestors, ← hRest, singleton_append, tail_cons]

/-- Every class on the walk is reached from the start. The bound on the steps plays no part here. -/
theorem reaches_of_mem_climb {r : Registry} {steps : Nat} {seen : List ClassId}
    {start current : ClassId} (hSeen : ∀ c ∈ seen, r.Reaches start c)
    (hCurrent : r.Reaches start current) {c : ClassId} (hc : c ∈ r.climb steps seen current) :
    r.Reaches start c := by
  induction steps generalizing seen current with
  | zero => exact hSeen c hc
  | succ steps ih =>
    rw [climb] at hc
    split at hc
    · exact hSeen c hc
    · rename_i p hParent
      have hp : r.Reaches start p := hCurrent.tail hParent
      split at hc
      · exact hSeen c hc
      · refine ih ?_ hp hc
        intro a ha
        rcases mem_append.mp ha with ha | ha
        · exact hSeen a ha
        · exact mem_singleton.mp ha ▸ hp

/-- The line of a class holds exactly the classes it reaches, also when parent links form a
cycle. -/
theorem mem_chain_iff {r : Registry} {c a : ClassId} : a ∈ r.chain c ↔ r.Reaches c a := by
  constructor
  · intro h
    refine reaches_of_mem_climb ?_ Relation.ReflTransGen.refl h
    intro b hb
    exact mem_singleton.mp hb ▸ Relation.ReflTransGen.refl
  · intro h
    induction h with
    | refl => exact chain_eq_cons r c ▸ mem_cons_self
    | tail _ hParent ih => exact (Walked.start r c).climb_closed ih hParent

theorem isSubclass_iff {r : Registry} {c a : ClassId} : r.isSubclass c a = true ↔ a ∈ r.chain c := by
  simp [isSubclass]

theorem isSubclass_self (c : ClassId) : r.isSubclass c c = true :=
  isSubclass_iff.mpr (mem_chain_iff.mpr .refl)

theorem isSubclass_of_parent {r : Registry} {c p : ClassId} (hParent : r.parent c = some p) :
    r.isSubclass c p = true :=
  isSubclass_iff.mpr (mem_chain_iff.mpr (.single hParent))

theorem isSubclass_trans {r : Registry} {a b c : ClassId} (h : r.isSubclass a b = true)
    (h' : r.isSubclass b c = true) : r.isSubclass a c = true := by
  rw [isSubclass_iff, mem_chain_iff] at h h' ⊢
  exact h.trans h'

@[simp] theorem isAssignable_self (ty : Ty) : r.isAssignable ty ty = true := by
  simp [isAssignable]

end

/-- Between different types only null and classes can be widened, and only to classes. -/
theorem isAssignable_iff {r : Registry} {a b : Ty} : r.isAssignable a b = true ↔
    a = b ∨ (a = .null ∧ ∃ c, b = .ofClass c) ∨
      ∃ c d, a = .ofClass c ∧ b = .ofClass d ∧ r.isSubclass c d = true := by
  unfold isAssignable
  rw [Bool.or_eq_true, beq_iff_eq]
  refine or_congr_right ?_
  cases a <;> cases b <;> simp

/-- Assignability is transitive on all types, also in a registry whose parents form a cycle. -/
theorem isAssignable_trans {r : Registry} {a b c : Ty} (h : r.isAssignable a b = true)
    (h' : r.isAssignable b c = true) : r.isAssignable a c = true := by
  rw [isAssignable_iff] at h h' ⊢
  rcases h with rfl | ⟨rfl, b, rfl⟩ | ⟨a, b, rfl, rfl, hSub⟩
  · exact h'
  · rcases h' with rfl | ⟨hNull, -⟩ | ⟨_, c, -, rfl, -⟩
    · exact .inr (.inl ⟨rfl, b, rfl⟩)
    · cases hNull
    · exact .inr (.inl ⟨rfl, c, rfl⟩)
  · rcases h' with rfl | ⟨hNull, -⟩ | ⟨_, c, ⟨⟩, rfl, hSub'⟩
    · exact .inr (.inr ⟨a, b, rfl, rfl, hSub⟩)
    · cases hNull
    · exact .inr (.inr ⟨a, c, rfl, rfl, isSubclass_trans hSub hSub'⟩)

/-- The test of single classes decides whether any cycle exists. -/
theorem acyclic_iff {r : Registry} : r.Acyclic ↔ ∀ c, r.inheritsFromItself c = false := by
  constructor
  · intro h c
    cases hParent : r.parent c with
    | none => simp [inheritsFromItself, hParent]
    | some p =>
      have hNot : c ∉ r.chain p := fun hMem => h c p hParent (mem_chain_iff.mp hMem)
      simp [inheritsFromItself, hParent, isSubclass, hNot]
  · intro h c p hParent hReaches
    have hc := h c
    simp [inheritsFromItself, hParent, isSubclass, mem_chain_iff.mpr hReaches] at hc

/-- A class followed by its ancestors up to one that has no parent. -/
inductive Line (r : Registry) : ClassId → List ClassId → Prop where
  | root {c : ClassId} (hParent : r.parent c = none) : Line r c [c]
  | step {c p : ClassId} {rest : List ClassId} (hParent : r.parent c = some p)
      (above : Line r p rest) : Line r c (c :: rest)

/-- A class has one line at most. On a cycle it has none. -/
theorem Line.unique {r : Registry} {c : ClassId} {first second : List ClassId}
    (h : Line r c first) (h' : Line r c second) : first = second := by
  induction h generalizing second with
  | root hParent =>
    cases h' with
    | root => rfl
    | step hParent' => simp [hParent] at hParent'
  | step hParent above ih =>
    cases h' with
    | root hParent' => simp [hParent] at hParent'
    | step hParent' above' =>
      rw [hParent] at hParent'
      cases hParent'
      rw [ih above']

/-- Without cycles a walk never meets a class twice, so only the lack of a parent ends it. -/
theorem exists_line_of_climb {r : Registry} (hAcyclic : r.Acyclic) {steps : Nat}
    {seen : List ClassId} {current : ClassId} (h : Walked r steps seen current)
    (hDown : ∀ c ∈ seen, r.Reaches c current) :
    ∃ rest, r.climb steps seen current = seen ++ rest ∧ Line r current (current :: rest) := by
  induction steps generalizing seen current with
  | zero => exact ⟨[], by simp [climb], .root h.parent_eq_none⟩
  | succ steps ih =>
    rw [climb]
    cases hParent : r.parent current with
    | none => exact ⟨[], by simp, .root hParent⟩
    | some p =>
      have hNew : p ∉ seen := fun hp => hAcyclic current p hParent (hDown p hp)
      have hBelow : ∀ c ∈ seen ++ [p], r.Reaches c p := by
        intro c hc
        rcases mem_append.mp hc with hc | hc
        · exact (hDown c hc).tail hParent
        · exact mem_singleton.mp hc ▸ Relation.ReflTransGen.refl
      obtain ⟨rest, hClimb, hLine⟩ := ih (h.next hParent hNew) hBelow
      refine ⟨p :: rest, ?_, .step hParent hLine⟩
      simp only [if_neg hNew, hClimb, append_assoc, singleton_append]

namespace Acyclic

variable {r : Registry}

variable (h : r.Acyclic)
include h

theorem line_chain (c : ClassId) : Line r c (r.chain c) := by
  obtain ⟨rest, hClimb, hLine⟩ := exists_line_of_climb h (Walked.start r c) (fun a ha => by
    rw [mem_singleton.mp ha]
    exact Relation.ReflTransGen.refl)
  rw [chain, hClimb]
  exact hLine

theorem chain_of_parent {c p : ClassId} (hParent : r.parent c = some p) : r.chain c = c :: r.chain p :=
  (h.line_chain c).unique (.step hParent (h.line_chain p))

theorem chain_of_root {c : ClassId} (hParent : r.parent c = none) : r.chain c = [c] :=
  (h.line_chain c).unique (.root hParent)

/-- The line of an ancestor is an end of the line of its subclass. -/
theorem chain_eq_append {c a : ClassId} (hMem : a ∈ r.chain c) :
    ∃ below, r.chain c = below ++ r.chain a := by
  have hLine := h.line_chain c
  generalize r.chain c = line at hMem hLine ⊢
  induction hLine with
  | @root c hParent =>
    rw [mem_singleton.mp hMem]
    exact ⟨[], (h.chain_of_root hParent).symm⟩
  | @step c p rest hParent above ih =>
    rcases mem_cons.mp hMem with rfl | hMem
    · exact ⟨[], (h.line_chain a).unique (.step hParent above) ▸ rfl⟩
    · obtain ⟨below, hBelow⟩ := ih hMem
      exact ⟨c :: below, by rw [hBelow, cons_append]⟩

/-- The classes below a registered one are registered. -/
theorem lt_of_mem_chain {c a : ClassId} (ha : a ∈ r.chain c)
    (hLt : a.index < r.classes.length) : c.index < r.classes.length := by
  cases hParent : r.parent c with
  | some p => exact lt_of_parent hParent
  | none =>
    rw [h.chain_of_root hParent, mem_singleton] at ha
    exact ha ▸ hLt

theorem ancestors_of_parent {c p : ClassId} (hParent : r.parent c = some p) :
    r.ancestors c = r.chain p := by
  rw [ancestors, h.chain_of_parent hParent, tail_cons]

end Acyclic

end TLang.Registry
