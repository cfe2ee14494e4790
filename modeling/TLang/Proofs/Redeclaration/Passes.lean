import TLang.Proofs.Redeclaration.Classes

/-! Classes that are declared twice from the same start. If their members are declared and the classes are
completed without a report, then a second run finds them as they are left, but for their bodies. It reports
nothing but the constructors that are refused, and leaves the same registry, up to the numbers of routines
and up to records of refused constructors. -/
namespace TLang

open Registry Analysis List

variable {as ds rs bs ds' : List ClassDecl} {Γ mid final mid' final' : Env} {c : ClassId} {t : ClassDecl × Env}
  {b : ClassDecl} {m : MethodId}

namespace Analysis

/-- Two runs over the members of some classes. The first one declares the members and completes the classes,
without a report. The second one declares the members of the classes that the first one leaves. These may
have other bodies. -/
structure Rerun (Γ mid final mid' : Env) (as ds rs bs ds' : List ClassDecl) : Prop where
  placed : Placed as Γ
  fresh : ∀ a ∈ as, a.routines = []
  declared : as.mapM ClassDecl.declareMembers Γ = ⟨(ds, mid), []⟩
  completed : ds.mapM ClassDecl.complete mid = ⟨(rs, final), []⟩
  again : bs.map ClassDecl.bodiless = rs.map ClassDecl.bodiless
  after : (bs.mapM ClassDecl.declareMembers Γ).value = (ds', mid')

/-- What each step makes of a declaration, whatever the environment is like, a pass makes of all. -/
theorem value_mapM_of_turns {α β : Type} {f : α → Analysis β} {g : α → β} {as : List α} {env : Env}
    (h : ∀ t ∈ turns f as env, (f t.1 t.2).value.1 = g t.1) : (as.mapM f env).value.1 = as.map g := by
  rw [value_mapM]
  conv_rhs => rw [← map_fst_turns f as env, map_map]
  exact map_congr_left h

theorem Placed.blocks_declareMembers (h : Placed as Γ) :
    let turns := turns ClassDecl.declareMembers as Γ
    (as.mapM ClassDecl.declareMembers Γ).value.2.size = Γ.size + (turns.map fun t => t.1.demand).sum ∧
      (turns.flatMap fun t => List.range' t.2.size t.1.demand) =
        List.range' Γ.size (turns.map fun t => t.1.demand).sum := by
  refine blocks_of_turns _ as Γ fun t ht => ?_
  obtain ⟨c, hResolved, -⟩ := h.known t.1 (fst_mem_of_mem_turns ht)
  exact size_declareMembers hResolved t.2

theorem Placed.blocks_complete (h : Placed as Γ) :
    let turns := turns ClassDecl.complete as Γ
    (as.mapM ClassDecl.complete Γ).value.2.size = Γ.size + (turns.map ClassDecl.lacking).sum ∧
      (turns.flatMap fun t => List.range' t.2.size (ClassDecl.lacking t)) =
        List.range' Γ.size (turns.map ClassDecl.lacking).sum := by
  refine blocks_of_turns _ as Γ fun t ht => ?_
  obtain ⟨c, hResolved, hc⟩ := h.known t.1 (fst_mem_of_mem_turns ht)
  have hFramed := h.complete.framed ht hResolved
  rw [ClassDecl.lacking_eq hResolved]
  exact (ClassDecl.takes_complete hResolved (length_classes_of_outline hFramed.before.outline ▸ hc)).size

/-- The turns of all classes, class by class. Each class has three. -/
structure Arranged (Γ mid final mid' : Env) (as ds bs : List ClassDecl)
    (triples : List (((ClassDecl × Env) × (ClassDecl × Env)) × (ClassDecl × Env))) : Prop where
  first : triples.map (·.1.1) = turns ClassDecl.declareMembers as Γ
  second : (triples.map (·.1.2)).Perm (turns ClassDecl.complete ds mid)
  third : (triples.map (·.2)).Perm (turns ClassDecl.declareMembers bs Γ)
  reruns : ∀ τ ∈ triples, ∃ c wanted, Reruns Γ mid final mid' c wanted τ.1.1 τ.1.2 τ.2

namespace Rerun

variable (h : Rerun Γ mid final mid' as ds rs bs ds')

include h

theorem env_after : (bs.mapM ClassDecl.declareMembers Γ).value.2 = mid' := by rw [h.after]

theorem placed_declared : Placed ds mid := by
  have hPlaced := h.placed.declared
  rwa [h.declared] at hPlaced

theorem resolved : bs.map ClassDecl.resolved = as.map ClassDecl.resolved := by
  have hFirst := resolved_mapM (fun d (_ : d ∈ as) => d.resolved_declareMembers) Γ
  have hSecond := resolved_mapM (fun d (_ : d ∈ ds) => d.resolved_complete) mid
  have hSame := congrArg (List.map ClassDecl.resolved) h.again
  rw [h.declared] at hFirst
  rw [h.completed] at hSecond
  rw [map_map, map_map] at hSame
  exact (hSame :).trans (hSecond.trans hFirst)

theorem placed_again : Placed bs Γ := by
  refine ⟨?_, h.resolved ▸ h.placed.distinct⟩
  intro b hb
  have hMem := mem_map_of_mem (f := ClassDecl.resolved) hb
  rw [h.resolved] at hMem
  obtain ⟨a, ha, hEq⟩ := mem_map.mp hMem
  exact hEq ▸ h.placed.known a ha

/-- None of the three passes changes a class that is not declared. -/
theorem grows : Γ.GrowsAmong (as.filterMap ClassDecl.resolved) mid ∧
    mid.GrowsAmong (as.filterMap ClassDecl.resolved) final ∧
    Γ.GrowsAmong (as.filterMap ClassDecl.resolved) mid' := by
  have hFirst := growsAmong_mapM h.placed.known h.placed.declareMembers.enlarges
  have hSecond := growsAmong_mapM h.placed_declared.known h.placed_declared.complete.enlarges
  have hThird := growsAmong_mapM h.placed_again.known h.placed_again.declareMembers.enlarges
  have hDeclared := resolved_mapM (fun d (_ : d ∈ as) => d.resolved_declareMembers) Γ
  rw [h.declared] at hFirst hDeclared
  rw [h.completed] at hSecond
  rw [h.env_after] at hThird
  have hSame : ∀ {ds : List ClassDecl}, ds.map ClassDecl.resolved = as.map ClassDecl.resolved →
      ds.filterMap ClassDecl.resolved = as.filterMap ClassDecl.resolved := by
    intro ds hEq
    have hIds := congrArg (List.filterMap id) hEq
    rwa [filterMap_map, filterMap_map] at hIds
  exact ⟨hFirst, hSame hDeclared ▸ hSecond, hSame h.resolved ▸ hThird⟩

/-- A class whose members are declared, that is completed and whose members are declared again. -/
theorem reruns {t₁ t₂ t₃ : ClassDecl × Env} (ht₁ : t₁ ∈ turns ClassDecl.declareMembers as Γ)
    (ht₂ : t₂ ∈ turns ClassDecl.complete ds mid) (ht₃ : t₃ ∈ turns ClassDecl.declareMembers bs Γ)
    (hDeclared : t₂.1 = (t₁.1.declareMembers t₁.2).value.1)
    (hAgain : t₃.1.bodiless = (t₂.1.complete t₂.2).value.1.bodiless) :
    ∃ c wanted, Reruns Γ mid final mid' c wanted t₁ t₂ t₃ := by
  obtain ⟨c, hResolved, hc⟩ := h.placed.known t₁.1 (fst_mem_of_mem_turns ht₁)
  have hResolved₂ : t₂.1.resolved = some c := hDeclared ▸ (t₁.1.resolved_declareMembers t₁.2).trans hResolved
  have hResolved₃ : t₃.1.resolved = some c :=
    (congrArg ClassDecl.resolved hAgain :).trans ((t₂.1.resolved_complete t₂.2).trans hResolved₂)
  have hFramed₁ := h.placed.declareMembers.framed ht₁ hResolved
  have hFramed₂ := h.placed_declared.complete.framed ht₂ hResolved₂
  have hFramed₃ := h.placed_again.declareMembers.framed ht₃ hResolved₃
  rw [h.declared] at hFramed₁
  rw [h.completed] at hFramed₂
  rw [h.env_after] at hFramed₃
  obtain ⟨wanted, hSub, hWanted, hComplete⟩ := ClassDecl.exists_complete hResolved₂ t₂.2
  have hKnown : c.index < t₂.2.types.classes.length := by
    rwa [length_classes_of_outline hFramed₂.before.outline, length_classes_of_outline
      (hFramed₁.after.outline.trans (hFramed₁.turn.types.outline.trans hFramed₁.before.outline))]
  refine ⟨c, wanted, hc, hResolved, h.fresh _ (fst_mem_of_mem_turns ht₁), hDeclared, ?_, ?_, hComplete, hAgain,
    hFramed₁, hFramed₂, hFramed₃, inheritedFields_turns h.placed_declared t₂ ht₂ c⟩
  · exact fun member hMember => ClassDecl.exists_of_mem_defaults (hSub.subset hMember)
  · rw [hWanted hKnown, ClassDecl.demand_missing, ClassDecl.lacking_eq hResolved₂]

/-- The turns can be put together class by class, as each class has one turn in each pass. -/
theorem exists_arranged : ∃ triples, Arranged Γ mid final mid' as ds bs triples := by
  have hOwn : ((turns ClassDecl.complete ds mid).map Prod.fst).Perm
      ((turns ClassDecl.declareMembers as Γ).map fun t => (t.1.declareMembers t.2).value.1) := by
    rw [map_fst_turns, ← value_mapM, h.declared]
  obtain ⟨pairs, hFirst, hSecond, hDeclared⟩ := exists_pairing hOwn
  have hLeft : ((turns ClassDecl.declareMembers bs Γ).map fun t => t.1.bodiless).Perm
      (pairs.map fun pair => (pair.2.1.complete pair.2.2).value.1.bodiless) := by
    have hPerm := hSecond.map fun t => (t.1.complete t.2).value.1.bodiless
    rw [map_map] at hPerm
    refine .trans (.of_eq ?_) hPerm.symm
    have hBodiless := h.again
    have hValue := value_mapM ClassDecl.complete ds mid
    rw [← map_fst_turns ClassDecl.declareMembers bs Γ, map_map] at hBodiless
    rw [h.completed] at hValue
    exact hBodiless.trans ((congrArg (map ClassDecl.bodiless) hValue).trans map_map)
  obtain ⟨triples, rfl, hThird, hAgain⟩ := exists_pairing hLeft
  rw [map_map] at hFirst hSecond
  refine ⟨triples, hFirst, hSecond, hThird, ?_⟩
  intro τ hτ
  exact h.reruns (hFirst ▸ mem_map_of_mem hτ) (hSecond.mem_iff.mp (mem_map_of_mem hτ))
    (hThird.mem_iff.mp (mem_map_of_mem hτ)) (hDeclared τ.1 (mem_map_of_mem hτ)) (hAgain τ hτ)

variable {triples : List (((ClassDecl × Env) × (ClassDecl × Env)) × (ClassDecl × Env))}

/-- Each run hands out every number from the start on once, though not in the order of the classes. -/
theorem perm_numbers (hArranged : Arranged Γ mid final mid' as ds bs triples) :
    (triples.flatMap fun τ => ClassDecl.numbers τ.1.1 τ.1.2).Perm (List.range' Γ.size (final.size - Γ.size)) ∧
      (triples.flatMap fun τ => List.range' τ.2.2.size τ.2.1.demand).Perm
        (List.range' Γ.size (mid'.size - Γ.size)) := by
  obtain ⟨hEnd₁, hBlocks₁⟩ := h.placed.blocks_declareMembers
  obtain ⟨hEnd₂, hBlocks₂⟩ := h.placed_declared.blocks_complete
  obtain ⟨hEnd₃, hBlocks₃⟩ := h.placed_again.blocks_declareMembers
  rw [h.declared] at hEnd₁
  rw [h.completed] at hEnd₂
  rw [h.env_after] at hEnd₃
  simp only at hEnd₁ hEnd₂
  constructor
  · refine (flatMap_append_perm triples _ _).symm.trans ?_
    rw [hEnd₂, hEnd₁, Nat.add_assoc, Nat.add_sub_cancel_left, ← range'_append_1, ← hEnd₁, ← hBlocks₁, ← hBlocks₂,
      ← hArranged.first, flatMap_map]
    refine .append_left _ (.trans (.of_eq ?_) (hArranged.second.flatMap_right _))
    rw [flatMap_map]
  · rw [hEnd₃, Nat.add_sub_cancel_left, ← hBlocks₃]
    refine .trans (.of_eq ?_) (hArranged.third.flatMap_right _)
    rw [flatMap_map]

/-- The numbers of the routines can be exchanged for those that the second run hands out. Numbers that were
there before stay, and numbers that the first run does not reach become numbers beyond any bound that the
second run does not reach. -/
theorem exists_numbers (hArranged : Arranged Γ mid final mid' as ds bs triples) {n : Nat} (hn : mid'.size ≤ n) :
    ∃ g : Nat → Nat, Function.Injective g ∧ (∀ n ≤ Γ.size, RespectsBound g n) ∧
      (∀ k, g k < n ↔ k < final.size) ∧
      (∀ k, Γ.size ≤ k → k < final.size → ∃ τ ∈ triples, k ∈ ClassDecl.numbers τ.1.1 τ.1.2) ∧
      ∀ τ ∈ triples, (ClassDecl.numbers τ.1.1 τ.1.2).map g = List.range' τ.2.2.size τ.2.1.demand := by
  obtain ⟨hNumbers, hNumbers'⟩ := h.perm_numbers hArranged
  obtain ⟨hFirst, hSecond, hThird⟩ := h.grows
  have hSizes : Γ.size ≤ final.size ∧ Γ.size ≤ mid'.size :=
    ⟨(hFirst.types.extension.methods.trans hSecond.types.extension.methods).length_le,
      hThird.types.extension.methods.length_le⟩
  have hSame : ∀ τ ∈ triples,
      (ClassDecl.numbers τ.1.1 τ.1.2).length = (List.range' τ.2.2.size τ.2.1.demand).length := by
    intro τ hτ
    obtain ⟨c, wanted, hReruns⟩ := hArranged.reruns τ hτ
    simp [ClassDecl.numbers, hReruns.demand_eq]
  have hIn : ∀ k, k ∈ (triples.flatMap fun τ => ClassDecl.numbers τ.1.1 τ.1.2) ↔
      Γ.size ≤ k ∧ k < final.size := by
    intro k
    rw [hNumbers.mem_iff, mem_range'_1]
    omega
  have hIn' : ∀ k, k ∈ (triples.flatMap fun τ => List.range' τ.2.2.size τ.2.1.demand) →
      Γ.size ≤ k ∧ k < mid'.size := by
    intro k hk
    rw [hNumbers'.mem_iff, mem_range'_1] at hk
    omega
  obtain ⟨g, hInjective, hMap, hOut⟩ := exists_exchange (f := fun k => if k < Γ.size then k else n + k)
    (fun k k' hEq => by simp only at hEq; split at hEq <;> split at hEq <;> omega)
    (hNumbers.nodup_iff.mpr nodup_range') (hNumbers'.nodup_iff.mpr nodup_range')
    (by rw [length_flatMap, length_flatMap, map_congr_left hSame]) (fun k hk hMem => by
      have hBound := hIn' _ hMem
      rw [hIn] at hk
      split at hBound <;> omega)
  have hg : ∀ k, Γ.size ≤ k → k < final.size → Γ.size ≤ g k ∧ g k < mid'.size := by
    intro k hFirst hLast
    exact hIn' _ (hMap ▸ mem_map_of_mem ((hIn k).mpr ⟨hFirst, hLast⟩))
  have hKept : ∀ k, ¬(Γ.size ≤ k ∧ k < final.size) → g k = if k < Γ.size then k else n + k :=
    fun k hk => hOut k (mt (hIn k).mp hk)
  refine ⟨g, hInjective, ?_, ?_, ?_, map_eq_of_flatMap hSame hMap⟩
  · intro n hn k
    have hBounds := hg k
    have hOld := hKept k
    split at hOld <;> omega
  · intro k
    have hBounds := hg k
    have hOld := hKept k
    split at hOld <;> omega
  · exact fun k hFirst hLast => mem_flatMap.mp ((hIn k).mpr ⟨hFirst, hLast⟩)

end Rerun

/-- The second run declares what the first one left. Its numbers are below a bound if and only if the first run
handed them out. -/
structure Redeclared (g : Nat → Nat) (n : Nat) (Γ mid final mid' : Env) (bs ds' : List ClassDecl) : Prop where
  start : Γ.Alike (.ofNumbers id g) Γ
  bounded : ∀ k, g k < n ↔ k < final.size
  declared : bs.mapM ClassDecl.declareMembers Γ = ⟨(ds', mid'), []⟩
  stamped : ds' = bs.map (ClassDecl.restamped (.ofNumbers id g))
  own : ∀ b ∈ bs, ∀ c, b.resolved = some c →
    (mid'.types.classInfo c).inheriting ((mid.types.inheritedFields c).renumber (.ofNumbers id g)) =
      (final.types.classInfo c).renumber (.ofNumbers id g)
  infos : ∀ m : MethodId, Γ.size ≤ m.index → m.index < final.size → g m.index < mid'.size ∧
    mid'.types.methodInfo ⟨g m.index⟩ = (final.types.methodInfo m).renumber (.ofNumbers id g)

namespace Rerun

variable (h : Rerun Γ mid final mid' as ds rs bs ds')

include h

/-- The second declaration gives the classes of the first one, up to an exchange of numbers that all classes
share. Numbers from before both runs stay. -/
theorem exists_redeclared {n : Nat} (hn : mid'.size ≤ n)
    (hStart : ∀ g : Nat → Nat, Function.Injective g → (∀ n ≤ Γ.size, RespectsBound g n) →
      Γ.Alike (.ofNumbers id g) Γ) :
    ∃ g, Redeclared g n Γ mid final mid' bs ds' := by
  obtain ⟨triples, hArranged⟩ := h.exists_arranged
  obtain ⟨g, hInjective, hBounds, hBounded, hNumbered, hNumbers⟩ := h.exists_numbers hArranged hn
  have hAlike := hStart g hInjective hBounds
  have hRepeats : ∀ τ ∈ triples, ∃ c, τ.2.1.resolved = some c ∧
      Repeats (.ofNumbers id g) mid final mid' c τ.1.1 τ.1.2 τ.2 := by
    intro τ hτ
    obtain ⟨c, wanted, hReruns⟩ := hArranged.reruns τ hτ
    exact ⟨c, hReruns.again_eq.2, hReruns.repeats hAlike (hNumbers τ hτ)⟩
  have hTurn : ∀ t ∈ turns ClassDecl.declareMembers bs Γ, ∃ τ ∈ triples, τ.2 = t :=
    fun t ht => mem_map.mp (hArranged.third.mem_iff.mpr ht)
  refine ⟨g, hAlike, hBounded, Logged.ext h.after ?_, ?_, ?_, ?_⟩
  · rw [log_mapM]
    refine flatMap_eq_nil_iff.mpr fun t ht => ?_
    obtain ⟨τ, hτ, rfl⟩ := hTurn t ht
    obtain ⟨c, -, hRepeat⟩ := hRepeats τ hτ
    have hFirst := congrArg Logged.log h.declared
    have hSecond := congrArg Logged.log h.completed
    rw [log_mapM, flatMap_eq_nil_iff] at hFirst hSecond
    rw [hRepeat.log, hFirst _ (hArranged.first ▸ mem_map_of_mem hτ),
      hSecond _ (hArranged.second.mem_iff.mp (mem_map_of_mem hτ)), append_nil]
  · refine (congrArg Prod.fst h.after).symm.trans (value_mapM_of_turns fun t ht => ?_)
    obtain ⟨τ, hτ, rfl⟩ := hTurn t ht
    obtain ⟨c, -, hRepeat⟩ := hRepeats τ hτ
    exact hRepeat.value
  · intro b hb c hResolved
    rw [← map_fst_turns ClassDecl.declareMembers bs Γ] at hb
    obtain ⟨t, ht, rfl⟩ := mem_map.mp hb
    obtain ⟨τ, hτ, rfl⟩ := hTurn t ht
    obtain ⟨c', hResolved', hRepeat⟩ := hRepeats τ hτ
    obtain rfl : c = c' := Option.some.inj (hResolved.symm.trans hResolved')
    exact hRepeat.own
  · intro m hFirst hLast
    obtain ⟨τ, hτ, hMem⟩ := hNumbered m.index hFirst hLast
    obtain ⟨c, -, hRepeat⟩ := hRepeats τ hτ
    exact hRepeat.infos m hMem

end Rerun

namespace Redeclared

variable {g : Nat → Nat} {n : Nat} (h : Rerun Γ mid final mid' as ds rs bs ds')
  (hg : Redeclared g n Γ mid final mid' bs ds')

include h hg

/-- The same fields are declared. -/
theorem fields (c : ClassId) : (mid'.types.classInfo c).fields =
    (mid.types.classInfo c).fields.renumber (.ofNumbers id g) := by
  obtain ⟨hFirst, -, hThird⟩ := h.grows
  by_cases hc : c ∈ as.filterMap ClassDecl.resolved
  · have hMem : some c ∈ bs.map ClassDecl.resolved := by
      rw [h.resolved, mem_map]
      exact mem_filterMap.mp hc
    obtain ⟨b, hb, hResolved⟩ := mem_map.mp hMem
    have hOwn := congrArg ClassInfo.fields (hg.own b hb c hResolved)
    have hKept := (fields_turns h.placed_declared).2.2 c
    rw [h.completed] at hKept
    exact hOwn.trans (congrArg (Bindings.renumber _) hKept)
  · rw [hThird.types.others c hc, hFirst.types.others c hc]
    exact congrArg ClassInfo.fields (hg.start.classInfo c)

theorem inheritedFields (c : ClassId) : mid'.types.inheritedFields c =
    (mid.types.inheritedFields c).renumber (.ofNumbers id g) := by
  obtain ⟨hFirst, -, hThird⟩ := h.grows
  have hOutline := hThird.types.extension.outline.trans hFirst.types.extension.outline.symm
  rw [Registry.inheritedFields, Registry.inheritedFields, Bindings.renumber, map_flatMap, ancestors,
    chain_of_outline hOutline, ← ancestors]
  exact flatMap_congr fun c' _ => fields h hg c'

/-- A class of the second run has all that it could be given when it is completed. -/
theorem filled {env : Env} (hFilled : ∀ r ∈ rs, ∀ c, r.resolved = some c → r.Filled final c) (hb : b ∈ bs)
    (hResolved : b.resolved = some c) (hOutline : env.types.outline = mid'.types.outline)
    (hFound : env.types.classInfo c = mid'.types.classInfo c) :
    (b.restamped (.ofNumbers id g)).Filled env c := by
  have hMem := mem_map_of_mem (f := ClassDecl.bodiless) hb
  rw [h.again] at hMem
  obtain ⟨r, hr, hSame⟩ := mem_map.mp hMem
  have hName : r.name = b.name := (congrArg ClassDecl.name hSame :)
  have hDefault : r.defaultConstructor = b.defaultConstructor := (congrArg ClassDecl.defaultConstructor hSame :)
  have hr := hFilled r hr c ((congrArg ClassDecl.resolved hSame :).trans hResolved)
  have hOwn := hg.own b hb c hResolved
  have hDeclares := ClassDecl.declaresConstructor_of_bodiless hSame
  obtain ⟨hFirst, hSecond, hThird⟩ := h.grows
  have hOutline' : final.types.outline = env.types.outline := by
    rw [hOutline, hThird.types.extension.outline, hSecond.types.extension.outline, hFirst.types.extension.outline]
  rw [← hFound] at hOwn
  constructor
  case name => exact (congrArg ClassInfo.name hOwn :).trans (hr.name.trans hName)
  case destructor =>
    have hDestructor := congrArg (·.destructor.isSome) hOwn
    exact (hDestructor :).trans (Option.isSome_map.trans hr.destructor)
  case declares =>
    rw [ClassDecl.declaresConstructor_restamped, ← hDeclares, ← hr.declares]
    exact (congrArg ClassInfo.hasConstructor hOwn :)
  case constructor =>
    rw [ClassDecl.declaresConstructor_restamped, ← hDeclares]
    intro hNone
    have hTaken := hr.constructor hNone
    have hNames : (env.types.classInfo c).members.methods.names = (final.types.classInfo c).members.methods.names :=
      (congrArg (·.members.methods.names) hOwn :).trans (Bindings.names_renumber _ _)
    rw [Env.routineInfo_of_outline hOutline', ← hNames, hDefault] at hTaken
    exact hTaken

theorem placed : Placed ds' mid' := by
  have hPlaced := h.placed_again.declared
  rw [hg.declared] at hPlaced
  exact hPlaced

/-- The turn of one class in the completion of the second run, and what is left of the class in the end. -/
theorem turn (hFilled : ∀ r ∈ rs, ∀ c, r.resolved = some c → r.Filled final c) {t : ClassDecl × Env}
    (ht : t ∈ turns ClassDecl.complete ds' mid') : ∃ c, t.1.resolved = some c ∧
      (t.1.complete t.2).value.1 = t.1.regiven ∧ (t.1.complete t.2).log = t.1.redeclarations ∧
        (ds'.mapM ClassDecl.complete mid').value.2.types.classInfo c =
          (final.types.classInfo c).renumber (.ofNumbers id g) := by
  have hPlaced := placed h hg
  obtain ⟨b, hb, hEq⟩ := mem_map.mp (hg.stamped ▸ fst_mem_of_mem_turns ht)
  obtain ⟨c, hc, hKnown⟩ := hPlaced.known t.1 (fst_mem_of_mem_turns ht)
  have hb' : b.resolved = some c := (congrArg ClassDecl.resolved hEq :).trans hc
  have hFramed := hPlaced.complete.framed ht hc
  have hAgain := filled h hg hFilled hb hb' hFramed.before.outline hFramed.found
  rw [hEq] at hAgain
  obtain ⟨hValue, hInfo, hLog⟩ := hAgain.complete hc (length_classes_of_outline hFramed.before.outline ▸ hKnown)
  refine ⟨c, hc, hValue, hLog, ?_⟩
  rw [hFramed.left, hInfo, hFramed.found, inheritedFields_turns hPlaced t ht, inheritedFields h hg,
    hg.own b hb c hb']

/-- The second run finds all classes filled. So it completes each of them with a constructor at most, which is
refused, and it leaves what the first one left. -/
theorem complete (hFilled : ∀ r ∈ rs, ∀ c, r.resolved = some c → r.Filled final c)
    (hn : (ds'.mapM ClassDecl.complete mid').value.2.size = n) :
    (ds'.mapM ClassDecl.complete mid').value.1 = ds'.map ClassDecl.regiven ∧
      (ds'.mapM ClassDecl.complete mid').log = ds'.flatMap ClassDecl.redeclarations ∧
      final.Alike (.ofNumbers id g) (ds'.mapM ClassDecl.complete mid').value.2 := by
  have hPlaced := placed h hg
  have hResolved := resolved_mapM (fun d (_ : d ∈ bs) => d.resolved_declareMembers) Γ
  rw [hg.declared, h.resolved] at hResolved
  obtain ⟨hFirst, hSecond, hThird⟩ := h.grows
  have hFourth := growsAmong_mapM hPlaced.known hPlaced.complete.enlarges
  have hOutline := hSecond.types.extension.outline.trans hFirst.types.extension.outline
  refine ⟨value_mapM_of_turns ?_, ?_, hg.start.outline.congr_outline hOutline
    (hFourth.types.extension.outline.trans hThird.types.extension.outline), ?_, ?_, ?_⟩
  · intro t ht
    obtain ⟨c, -, hValue, -⟩ := turn h hg hFilled ht
    exact hValue
  · rw [log_mapM]
    conv_rhs => rw [← map_fst_turns ClassDecl.complete ds' mid', flatMap_map]
    refine flatMap_congr fun t ht => ?_
    obtain ⟨c, -, -, hLog, -⟩ := turn h hg hFilled ht
    exact hLog
  · intro c
    by_cases hc : some c ∈ ds'.map ClassDecl.resolved
    · rw [← map_fst_turns ClassDecl.complete ds' mid', map_map] at hc
      obtain ⟨t, ht, hEq⟩ := mem_map.mp hc
      obtain ⟨c', hc', -, -, hInfo⟩ := turn h hg hFilled ht
      obtain rfl : c = c' := Option.some.inj (hEq.symm.trans hc')
      exact hInfo
    · have hOut : ∀ {ds : List ClassDecl}, ds.map ClassDecl.resolved = ds'.map ClassDecl.resolved →
          c ∉ ds.filterMap ClassDecl.resolved := by
        intro ds hEq hMem
        exact hc (hEq ▸ mem_map.mpr (mem_filterMap.mp hMem))
      have hOld := hOut hResolved.symm
      rw [hSecond.types.others c hOld, hFirst.types.others c hOld]
      exact ((hFourth.types.others c (hOut rfl)).trans (hThird.types.others c hOld)).trans (hg.start.classInfo c)
  · intro m
    by_cases hOld : m.index < Γ.size
    · have hOld' := (hg.start.bounded m).mpr hOld
      have hPrefix := hThird.types.extension.methods.trans hFourth.types.extension.methods
      rw [ methodInfo_of_prefix hPrefix hOld', hg.start.infos, methodInfo_of_prefix
        (hFirst.types.extension.methods.trans hSecond.types.extension.methods) hOld]
    by_cases hm : m.index < final.size
    · obtain ⟨hm', hInfo⟩ := hg.infos m (Nat.le_of_not_lt hOld) hm
      exact ( methodInfo_of_prefix hFourth.types.extension.methods hm').trans hInfo
    · have hm' := mt (hg.bounded m.index).mp hm
      rw [← hn] at hm'
      exact methodInfo_renumber_of_le hg.start.outline.faithful.root (Nat.le_of_not_lt hm) (Nat.le_of_not_lt hm')
  · rw [hn]
    exact fun m => hg.bounded m.index

end Redeclared

/-- What the first run left is settled from the same start. Nothing is reported but the constructors that are
refused, and the registry is the one of the first run, up to numbers. -/
theorem Rerun.exists_settledAgain (h : Rerun Γ mid final mid' as ds rs bs ds')
    (hStart : ∀ g : Nat → Nat, Function.Injective g → (∀ n ≤ Γ.size, RespectsBound g n) →
      Γ.Alike (.ofNumbers id g) Γ)
    (hFilled : ∀ r ∈ rs, ∀ c, r.resolved = some c → r.Filled final c) : ∃ g : Nat → Nat,
      (settle bs Γ).value.1 = bs.map (fun b => (b.restamped (.ofNumbers id g)).regiven) ∧
        (settle bs Γ).log = bs.flatMap ClassDecl.redeclarations ∧
        (rs.mapM ClassDecl.buildVMT final).value.2.Alike (.ofNumbers id g) (settle bs Γ).value.2 := by
  have hPlaced := h.placed_declared.completed
  have hPlaced' := h.placed_again.declared
  rw [h.completed] at hPlaced
  rw [h.after] at hPlaced'
  have hn := (growsAmong_mapM hPlaced'.known hPlaced'.complete.enlarges).types.extension.methods.length_le
  obtain ⟨g, hg⟩ := h.exists_redeclared hn hStart
  obtain ⟨hValue, hLog, hAlike⟩ := Redeclared.complete h hg hFilled rfl
  have hResolved : (ds'.map ClassDecl.regiven).map ClassDecl.resolved = rs.map ClassDecl.resolved := by
    have hSame := congrArg (List.map ClassDecl.resolved) h.again
    rw [map_map, map_map] at hSame
    rw [hg.stamped, map_map, map_map]
    exact (hSame :)
  refine ⟨g, ?_, ?_, ?_⟩
  all_goals rw [settle_apply, hg.declared]
  all_goals simp only [mapM_buildVMT, append_nil, nil_append]
  · rw [hValue, hg.stamped, map_map]
    rfl
  · rw [hLog, hg.stamped, flatMap_map]
    refine flatMap_congr fun b _ => ?_
    rw [ClassDecl.redeclarations, ClassDecl.declaresConstructor_restamped]
    rfl
  · refine hAlike.buildVMT hPlaced hPlaced'.completed (.of_eq ?_)
    rw [hValue, hResolved]
    simp [Renumbering.ofNumbers]

end Analysis
end TLang
