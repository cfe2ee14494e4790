import TLang.Proofs.Registry.Lineage

/-! Cycles of parent links and how they are broken. A class has one parent, so it lies on at most one
cycle, and whatever is above a class on a cycle lies on the same one. Classes are looked at in the order
of their numbers. One that lies on a cycle at that time is cut off from it and put below the root, so
exactly the first class of every cycle is moved, and no cycle is left. -/
namespace TLang.Registry

variable {r r' : Registry} {a b c : ClassId}

/-- The class is its own proper ancestor. -/
def OnCycle (r : Registry) (c : ClassId) : Prop := ∃ p, r.parent c = some p ∧ r.Reaches p c

theorem inheritsFromItself_iff : r.inheritsFromItself c = true ↔ r.OnCycle c := by
  simp only [inheritsFromItself, Option.any_eq_true, isSubclass_iff, mem_chain_iff, OnCycle]

/-- Where two registries agree on the parents above a class, they agree on what is above it. -/
theorem Reaches.of_agree (hAgree : ∀ b, r.Reaches a b → r'.parent b = r.parent b)
    (h : r.Reaches a c) : r'.Reaches a c := by
  induction h with
  | refl => exact .refl
  | tail hReaches hParent ih => exact ih.tail ((hAgree _ hReaches).trans hParent)

/-- From a class above one on a cycle, the way leads back to it. -/
theorem OnCycle.reaches_back (h : r.OnCycle c) (hb : r.Reaches c b) : r.Reaches b c := by
  induction hb with
  | refl => exact .refl
  | @tail b b' _ hParent ih =>
    rcases ih.cases_head with rfl | ⟨p, hp, hReaches⟩
    · obtain ⟨p, hp, hReaches⟩ := h
      obtain rfl : b' = p := Option.some.inj (hParent.symm.trans hp)
      exact hReaches
    · obtain rfl : b' = p := Option.some.inj (hParent.symm.trans hp)
      exact hReaches

theorem OnCycle.of_reaches (h : r.OnCycle c) (hb : r.Reaches c b) : r.OnCycle b := by
  rcases (h.reaches_back hb).cases_head with rfl | ⟨p, hp, hReaches⟩
  · exact h
  · exact ⟨p, hp, Relation.ReflTransGen.trans hReaches hb⟩

theorem onCycle_iff_transGen :
    r.OnCycle c ↔ Relation.TransGen (fun c p => r.parent c = some p) c c := by
  rw [Relation.TransGen.head'_iff]
  rfl

theorem OnCycle.transGen (h : r.OnCycle c) (hb : r.Reaches c b) :
    Relation.TransGen (fun c p => r.parent c = some p) c b :=
  Relation.TransGen.trans_left (onCycle_iff_transGen.mp h) hb

/-- The class is the first one on its cycle. -/
structure HeadsCycle (r : Registry) (c : ClassId) : Prop where
  onCycle : r.OnCycle c
  first : ∀ b, r.Reaches c b → c.index ≤ b.index

theorem OnCycle.exists_head (h : r.OnCycle c) : ∃ b, r.Reaches c b ∧ r.HeadsCycle b := by
  obtain ⟨b, hb, hFirst⟩ := (measure ClassId.index).wf.has_min {b | r.Reaches c b} ⟨c, .refl⟩
  refine ⟨b, hb, h.of_reaches hb, ?_⟩
  intro b' hb'
  exact Nat.le_of_not_lt (hFirst b' (Relation.ReflTransGen.trans hb hb'))

/-- The links of `r` are those of `r₀`, but the classes below a bound that head a cycle extend the
root. -/
structure MendedBelow (bound : Nat) (r₀ r : Registry) : Prop where
  root : r₀.parent object = none
  heads : ∀ c, c.index < bound → r₀.HeadsCycle c → r.parent c = some object
  others : ∀ c, ¬ (c.index < bound ∧ r₀.HeadsCycle c) → r.parent c = r₀.parent c

namespace MendedBelow

variable {bound : Nat} {r₀ : Registry} (h : MendedBelow bound r₀ r)

include h

theorem parent_object : r.parent object = none := by
  rw [h.others object, h.root]
  rintro ⟨-, ⟨p, hp, -⟩, -⟩
  rw [h.root] at hp
  cases hp

/-- A link to the root lies on no cycle, so the links of a cycle are those of before. -/
theorem parent_of_onCycle (hOn : r.OnCycle c) : r.parent c = r₀.parent c := by
  apply h.others
  rintro ⟨hBound, hHead⟩
  obtain ⟨p, hp, hReaches⟩ := hOn
  obtain rfl : object = p := Option.some.inj ((h.heads c hBound hHead).symm.trans hp)
  rcases hReaches.cases_head with rfl | ⟨q, hq, -⟩
  · cases h.parent_object.symm.trans hp
  · cases h.parent_object.symm.trans hq

theorem onCycle_before (hOn : r.OnCycle c) : r₀.OnCycle c := by
  have hAgree : ∀ b, r.Reaches c b → r₀.parent b = r.parent b :=
    fun b hb => (h.parent_of_onCycle (hOn.of_reaches hb)).symm
  obtain ⟨p, hp, hReaches⟩ := hOn
  refine ⟨p, (hAgree c .refl).trans hp, Reaches.of_agree ?_ hReaches⟩
  exact fun b hb => hAgree b (.head hp hb)

theorem reaches_of_onCycle (hOn : r.OnCycle c) (hb : r₀.Reaches c b) : r.Reaches c b := by
  induction hb with
  | refl => exact .refl
  | tail _ hParent ih =>
    exact ih.tail ((h.parent_of_onCycle (hOn.of_reaches ih)).trans hParent)

/-- A cycle that is left has none of its classes below the bound: the first of them would have been
cut off. -/
theorem bound_le (hOn : r.OnCycle c) : bound ≤ c.index := by
  obtain ⟨b, hb, hHead⟩ := (h.onCycle_before hOn).exists_head
  have hFirst := hHead.first c ((h.onCycle_before hOn).reaches_back hb)
  have hLeft : r.OnCycle b := hOn.of_reaches (h.reaches_of_onCycle hOn hb)
  refine Nat.le_trans (Nat.le_of_not_lt fun hBound => ?_) hFirst
  have hParent := h.heads b hBound hHead
  obtain ⟨p, hp, -⟩ := hHead.onCycle
  rw [h.parent_of_onCycle hLeft, hp] at hParent
  obtain rfl := Option.some.inj hParent
  obtain ⟨q, hq, -⟩ := hHead.onCycle.of_reaches (.single hp)
  cases h.root.symm.trans hq

theorem acyclic (hBound : r.classes.length ≤ bound) : r.Acyclic := by
  intro c p hp hReaches
  have hLe := h.bound_le ⟨p, hp, hReaches⟩
  exact absurd (lt_of_parent hp) (by omega)

end MendedBelow

/-- When a class is looked at, it lies on a cycle exactly if it is the first one of a cycle of
before. -/
theorem MendedBelow.onCycle_iff {r₀ : Registry} (h : MendedBelow c.index r₀ r) :
    r.OnCycle c ↔ r₀.HeadsCycle c := by
  constructor
  · intro hOn
    refine ⟨h.onCycle_before hOn, fun b hb => ?_⟩
    exact h.bound_le (hOn.of_reaches (h.reaches_of_onCycle hOn hb))
  · intro hHead
    have hAgree : ∀ b, r₀.Reaches c b → r.parent b = r₀.parent b := by
      intro b hb
      refine h.others b ?_
      rintro ⟨hBound, -⟩
      exact absurd (hHead.first b hb) (Nat.not_le.mpr hBound)
    obtain ⟨p, hp, hReaches⟩ := hHead.onCycle
    refine ⟨p, (hAgree c .refl).trans hp, Reaches.of_agree ?_ hReaches⟩
    exact fun b hb => hAgree b (.head hp hb)

theorem MendedBelow.start {r : Registry} (hRoot : r.parent object = none) {bound : Nat}
    (hBound : bound ≤ 1) : MendedBelow bound r r where
  root := hRoot
  heads := by
    intro c hc hHead
    obtain ⟨p, hp, -⟩ := hHead.onCycle
    have hObject : c = object := by
      cases c
      simp only [object, ClassId.mk.injEq] at hc ⊢
      omega
    rw [hObject, hRoot] at hp
    cases hp
  others := fun _ _ => rfl

end TLang.Registry
