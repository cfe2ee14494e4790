import TLang.Proofs.Establishment
import TLang.Proofs.Renumbering.Members

/-! Passes in another order. Two passes over the same classes whose turns come in different orders give
the same declarations and reports and leave the same registry, up to the order of declarations and
reports and up to numbers. The numbers of the second pass are those of the first in another order, one
block for each turn. -/
namespace TLang

open Registry Analysis List

variable {r : Registry} {m : MethodId} {π : ClassId → ClassId} {f : ClassDecl → Analysis ClassDecl}

variable {ρ : Renumbering} {t t' : ClassDecl × Env} {c : ClassId} {g : Nat → Nat}

/-- The second environment has the classes and methods of the first under other numbers. -/
structure Env.Alike (ρ : Renumbering) (env env' : Env) : Prop where
  outline : RenumberedOutline ρ env.types env'.types
  classInfo : ∀ c, env'.types.classInfo (ρ.cls c) = (env.types.classInfo c).renumber ρ
  infos : ∀ m, env'.types.methodInfo (ρ.method m) = (env.types.methodInfo m).renumber ρ
  bounded : ∀ m : MethodId, (ρ.method m).index < env'.size ↔ m.index < env.size

/-- A number that was never handed out. -/
theorem Registry.methodInfo_of_le (hm : r.methods.length ≤ m.index) : r.methodInfo m =
      { name := "", owner := object, kind := .method, signature := "", label := "" } := by
  rw [methodInfo, List.getElem?_eq_none hm]
  rfl

/-- Numbers that were never handed out have the same record. -/
theorem Registry.methodInfo_renumber_of_le {r' : Registry} (hRoot : ρ.cls object = object)
    (hm : r.methods.length ≤ m.index) (hm' : r'.methods.length ≤ (ρ.method m).index) :
    r'.methodInfo (ρ.method m) = (r.methodInfo m).renumber ρ := by
  rw [methodInfo_of_le hm, methodInfo_of_le hm']
  simp [MethodInfo.renumber, hRoot, SymbolTable.renumber]

/-- Two lists with the same views in different orders can be paired. -/
theorem exists_pairing {α β γ : Type} {f : α → γ} {g : β → γ} {as : List α} {bs : List β}
    (h : (bs.map g).Perm (as.map f)) : ∃ pairs : List (α × β),
      pairs.map Prod.fst = as ∧ (pairs.map Prod.snd).Perm bs ∧ ∀ pair ∈ pairs, g pair.2 = f pair.1 := by
  obtain ⟨bs', hSame, hPerm⟩ := perm_comp_forall₂ h.symm
    (forall₂_map_left_iff.mpr (forall₂_same.mpr fun _ _ => rfl) : List.Forall₂ (fun c b => g b = c) _ bs)
  rw [forall₂_map_left_iff] at hSame
  refine ⟨as.zip bs', map_fst_zip hSame.length_eq.le, ?_, fun pair hPair => forall₂_zip hSame hPair⟩
  rw [map_snd_zip hSame.length_eq.ge]
  exact hPerm

theorem Env.Alike.types {env env' : Env} (h : env.Alike ρ env') :
    Renumbered ρ env.types env'.types where
  faithful := h.outline.faithful
  size := h.outline.size
  lookup := h.outline.lookup
  classInfo := h.classInfo
  heading := fun m => congrArg MethodInfo.heading (h.infos m)

namespace Analysis

variable {f : ClassDecl → Analysis ClassDecl} {as as' : List ClassDecl} {env env' : Env}

/-- The turns of two passes, paired by the classes that they are for. -/
structure Matched (π : ClassId → ClassId) (ts ts' : List (ClassDecl × Env))
    (pairs : List ((ClassDecl × Env) × (ClassDecl × Env))) : Prop where
  left : pairs.map Prod.fst = ts
  right : (pairs.map Prod.snd).Perm ts'
  same : ∀ pair ∈ pairs, pair.2.1.resolved = pair.1.1.resolved.map π

/-- Turns can be paired as soon as the same classes have turns, whatever a turn does. -/
theorem exists_matched (f : ClassDecl → Analysis ClassDecl) (env env' : Env)
    (h : (as'.map ClassDecl.resolved).Perm (as.map fun d => d.resolved.map π)) :
    ∃ pairs, Matched π (turns f as env) (turns f as' env') pairs := by
  have hTurns : ∀ (g : ClassDecl → Option ClassId) (ds : List ClassDecl) (e : Env),
      ds.map g = (turns f ds e).map fun t => g t.1 := by
    intro g ds e
    conv_lhs => rw [← map_fst_turns f ds e, map_map]
    rfl
  rw [hTurns _ as env, hTurns _ as' env'] at h
  obtain ⟨pairs, hLeft, hRight, hSame⟩ := exists_pairing h
  exact ⟨pairs, hLeft, hRight, hSame⟩

end Analysis

/-! Numbers in another order. -/

/-- A renumbering can be changed so that the entries of one list become those of another one. -/
theorem exists_exchange {f : Nat → Nat} (hf : Function.Injective f) {l l' : List Nat} (hNodup : l.Nodup)
    (hNodup' : l'.Nodup) (hLength : l'.length = l.length) (hOut : ∀ k ∉ l, f k ∉ l') :
    ∃ g : Nat → Nat, Function.Injective g ∧ l.map g = l' ∧ ∀ k ∉ l, g k = f k := by
  let g : Nat → Nat := fun k => l'[l.idxOf k]?.getD (f k)
  have hIn : ∀ k ∈ l, ∃ hk : l.idxOf k < l'.length, g k = l'[l.idxOf k] := by
    intro k hk
    have hIndex : l.idxOf k < l'.length := hLength ▸ idxOf_lt_length_iff.mpr hk
    exact ⟨hIndex, by simp [g, hIndex]⟩
  have hKept : ∀ k ∉ l, g k = f k := by
    intro k hk
    have hNone : l'[l.idxOf k]? = none := by
      rw [idxOf_eq_length hk, ← hLength]
      exact List.getElem?_eq_none (Nat.le_refl _)
    simp [g, hNone]
  have hMem : ∀ k, g k ∈ l' ↔ k ∈ l := by
    intro k
    by_cases hk : k ∈ l
    · obtain ⟨hIndex, hg⟩ := hIn k hk
      exact iff_of_true (hg ▸ getElem_mem hIndex) hk
    · exact iff_of_false (hKept k hk ▸ hOut k hk) hk
  refine ⟨g, ?_, ?_, hKept⟩
  · intro k k' hEq
    by_cases hk : k ∈ l
    · have hk' : k' ∈ l := (hMem k').mp (hEq ▸ (hMem k).mpr hk)
      obtain ⟨_, hg⟩ := hIn k hk
      obtain ⟨_, hg'⟩ := hIn k' hk'
      rw [hg, hg', hNodup'.getElem_inj_iff] at hEq
      exact (idxOf_inj hk).mp hEq
    · have hk' : k' ∉ l := fun hk' => hk ((hMem k).mp (hEq ▸ (hMem k').mpr hk'))
      rw [hKept k hk, hKept k' hk'] at hEq
      exact hf hEq
  · apply ext_getElem
    · rw [length_map, hLength]
    · intro i hi hi'
      rw [length_map] at hi
      obtain ⟨_, hg⟩ := hIn l[i] (getElem_mem hi)
      rw [getElem_map, hg]
      congr 1
      exact hNodup.idxOf_getElem i hi
/-- What is the same in all is the same in each part. -/
theorem map_eq_of_flatMap {α β γ : Type} {g : β → γ} {parts : List α} {b : α → List β} {b' : α → List γ}
    (hLength : ∀ a ∈ parts, (b a).length = (b' a).length)
    (h : (parts.flatMap b).map g = parts.flatMap b') : ∀ a ∈ parts, (b a).map g = b' a := by
  induction parts with
  | nil => exact fun a ha => absurd ha not_mem_nil
  | cons a parts ih =>
    rw [forall_mem_cons] at hLength ⊢
    rw [flatMap_cons, flatMap_cons, map_append] at h
    have hParts := append_inj h (by rw [length_map, hLength.1])
    exact ⟨hParts.1, ih hLength.2 hParts.2⟩

namespace Analysis

variable {f : ClassDecl → Analysis ClassDecl} {as as' : List ClassDecl} {env env' : Env}

/-- The numbers of the first pass can be exchanged for those of the second one, block by block. -/
theorem Matched.exists_numbers {pairs : List ((ClassDecl × Env) × (ClassDecl × Env))}
    (h : Matched π (turns f as env) (turns f as' env') pairs) (hSize : env'.size = env.size)
    (cost : ClassDecl × Env → Nat)
    (hCost : ∀ pair ∈ pairs, (f pair.1.1 pair.1.2).value.2.size = pair.1.2.size + cost pair.1)
    (hCost' : ∀ pair ∈ pairs, (f pair.2.1 pair.2.2).value.2.size = pair.2.2.size + cost pair.1) :
    (as'.mapM f env').value.2.size = (as.mapM f env).value.2.size ∧
      ∃ g : Nat → Nat, Function.Injective g ∧
        (∀ pair ∈ pairs, ∀ k < cost pair.1, g (pair.1.2.size + k) = pair.2.2.size + k) ∧
        ∀ n, n ≤ env.size ∨ (as.mapM f env).value.2.size ≤ n → ∀ k, g k < n ↔ k < n := by
  let cost' : ClassDecl × Env → Nat := fun t => (f t.1 t.2).value.2.size - t.2.size
  have hSame : ∀ pair ∈ pairs, cost' pair.2 = cost pair.1 := by
    intro pair hPair
    simp only [cost', hCost' pair hPair, Nat.add_sub_cancel_left]
  have hTurns : ∀ t ∈ turns f as env, (f t.1 t.2).value.2.size = t.2.size + cost t := by
    rw [← h.left]
    simpa using fun a b c d hPair => hCost ((a, b), (c, d)) hPair
  have hTurns' : ∀ t ∈ turns f as' env', (f t.1 t.2).value.2.size = t.2.size + cost' t := by
    intro t ht
    obtain ⟨pair, hPair, rfl⟩ := mem_map.mp (h.right.mem_iff.mpr ht)
    rw [hSame pair hPair]
    exact hCost' pair hPair
  obtain ⟨hEnd, hBlocks⟩ := blocks_of_turns cost as env hTurns
  obtain ⟨hEnd', hBlocks'⟩ := blocks_of_turns cost' as' env' hTurns'
  have hSum : ((turns f as' env').map cost').sum = ((turns f as env).map cost).sum := by
    rw [← (h.right.map cost').sum_eq, ← h.left, map_map, map_map]
    exact congrArg List.sum (map_congr_left hSame)
  have hNumbers : (pairs.flatMap fun pair => List.range' pair.2.2.size (cost pair.1)).Perm
      (List.range' env.size ((turns f as env).map cost).sum) := by
    rw [← hSum, ← hSize, ← hBlocks']
    refine .trans (.of_eq ?_) (h.right.flatMap_right _)
    rw [flatMap_map]
    exact flatMap_congr fun pair hPair => by rw [hSame pair hPair]
  obtain ⟨g, hInjective, hMap, hOut⟩ := exists_exchange Function.injective_id nodup_range'
    (hNumbers.nodup_iff.mpr nodup_range') hNumbers.length_eq fun k => mt hNumbers.mem_iff.mp
  refine ⟨by rw [hEnd', hEnd, hSum, hSize], g, hInjective, ?_, ?_⟩
  · rw [← hBlocks, ← h.left, flatMap_map] at hMap
    have hParts := map_eq_of_flatMap (fun _ _ => by simp) hMap
    intro pair hPair k hk
    have hAt := congrArg (·[k]?) (hParts pair hPair)
    simpa [hk] using hAt
  · intro n hn k
    rw [hEnd] at hn
    by_cases hk : k ∈ List.range' env.size ((turns f as env).map cost).sum
    · have hMem : g k ∈ List.range' env.size ((turns f as env).map cost).sum :=
        hNumbers.mem_iff.mp (hMap ▸ mem_map_of_mem hk)
      rw [mem_range'_1] at hk hMem
      omega
    · rw [hOut k hk, id]

variable {pairs : List ((ClassDecl × Env) × (ClassDecl × Env))}

theorem Matched.exists_pair (h : Matched ρ.cls (turns f as env) (turns f as' env') pairs)
    (ht : t ∈ turns f as env) : ∃ t' ∈ turns f as' env', (t, t') ∈ pairs := by
  rw [← h.left] at ht
  obtain ⟨pair, hPair, rfl⟩ := mem_map.mp ht
  exact ⟨pair.2, h.right.mem_iff.mp (mem_map_of_mem hPair), hPair⟩

/-- Declarations that are paired are the same up to numbers. -/
theorem Matched.renumber (h : Matched ρ.cls (turns f as env) (turns f as' env') pairs)
    (hAs : as'.Perm (as.map (ClassDecl.renumber ρ))) (hOrdered' : Ordered f as' env') (hPair : (t, t') ∈ pairs) :
    t'.1 = t.1.renumber ρ := by
  have ht : t ∈ turns f as env := h.left ▸ mem_map_of_mem hPair
  have ht' : t' ∈ turns f as' env' := h.right.mem_iff.mp (mem_map_of_mem hPair)
  refine inj_on_of_nodup_map hOrdered'.distinct (fst_mem_of_mem_turns ht') ?_ (h.same _ hPair)
  exact hAs.mem_iff.mpr (mem_map_of_mem (fst_mem_of_mem_turns ht))

end Analysis

namespace Env.Alike

variable {f : ClassDecl → Analysis ClassDecl} {as as' : List ClassDecl} {env env' : Env}
  {pairs : List ((ClassDecl × Env) × (ClassDecl × Env))}

/-- When it is the turn of a class, what matters of the environment is as it was before the pass. -/
theorem twins (h : env.Alike ρ env') {final final' : Env} (hKnown : c.index < env.types.classes.length)
    (hKnown' : (ρ.cls c).index < env'.types.classes.length) (ht : Framed f c env final t)
    (ht' : Framed f (ρ.cls c) env' final' t') : t.2.Twins ρ c [] t.2.size t'.2 where
  outline := h.outline.congr_outline ht.before.outline ht'.before.outline
  known := length_classes_of_outline ht.before.outline ▸ hKnown
  known' := length_classes_of_outline ht'.before.outline ▸ hKnown'
  own := by
    rw [ht.found, ht'.found]
    exact h.classInfo c
  start := Nat.le_refl _
  bounded := fun k hFirst hk => absurd hk (Nat.not_lt.mpr hFirst)
  infos := fun k hFirst hk => absurd hk (Nat.not_lt.mpr hFirst)

end Env.Alike

/-- Two turns that belong together. -/
structure TurnsAlike (f : ClassDecl → Analysis ClassDecl) (ρ : Renumbering)
    (cost : ClassDecl × Env → Nat) (env env' final final' : Env) (t t' : ClassDecl × Env)
    (c : ClassId) : Prop where
  resolved : t.1.resolved = some c
  framed : Framed f c env final t
  framed' : Framed f (ρ.cls c) env' final' t'
  paired : Paired ρ c [] t.2.size (cost t) (ClassDecl.renumber ρ) t.2 t'.2 (f t.1 t.2) (f t'.1 t'.2)

/-- Two passes over the same classes. They start from the same registry up to numbers, the numbers of
turns that belong together correspond, and under these conditions a step does the same up to
numbers. -/
structure PassesAlike (f : ClassDecl → Analysis ClassDecl) (ρ : Renumbering)
    (cost : ClassDecl × Env → Nat) (as as' : List ClassDecl) (env env' : Env)
    (pairs : List ((ClassDecl × Env) × (ClassDecl × Env))) : Prop where
  alike : env.Alike ρ env'
  ordered : Ordered f as env
  ordered' : Ordered f as' env'
  perm : as'.Perm (as.map (ClassDecl.renumber ρ))
  matched : Matched ρ.cls (turns f as env) (turns f as' env') pairs
  aligned : ∀ pair ∈ pairs, pair.1.2.Aligned ρ (cost pair.1) pair.2.2
  step : ∀ t ∈ turns f as env, ∀ t' ∈ turns f as' env', ∀ c, t.1.resolved = some c →
    t.2.Twins ρ c [] t.2.size t'.2 → t.2.Aligned ρ (cost t) t'.2 →
    Paired ρ c [] t.2.size (cost t) (ClassDecl.renumber ρ) t.2 t'.2 (f t.1 t.2) (f (t.1.renumber ρ) t'.2)

namespace PassesAlike

variable {f : ClassDecl → Analysis ClassDecl} {cost : ClassDecl × Env → Nat}
  {as as' : List ClassDecl} {env env' : Env} {pairs : List ((ClassDecl × Env) × (ClassDecl × Env))}
  (h : PassesAlike f ρ cost as as' env env' pairs)

include h

/-- Turns that are paired belong together, since what came in between them touched other classes only. -/
theorem exists_turnsAlike (hPair : (t, t') ∈ pairs) :
    ∃ c, TurnsAlike f ρ cost env env' (as.mapM f env).value.2 (as'.mapM f env').value.2 t t' c := by
  have ht : t ∈ turns f as env := h.matched.left ▸ mem_map_of_mem hPair
  have ht' : t' ∈ turns f as' env' := h.matched.right.mem_iff.mp (mem_map_of_mem hPair)
  have hSame := h.matched.renumber h.perm h.ordered' hPair
  obtain ⟨c, hResolved, hKnown⟩ := h.ordered.known t.1 (fst_mem_of_mem_turns ht)
  obtain ⟨c', hResolved', hKnown'⟩ := h.ordered'.known t'.1 (fst_mem_of_mem_turns ht')
  obtain rfl : ρ.cls c = c' := by
    rw [hSame, ClassDecl.resolved_renumber hResolved] at hResolved'
    exact Option.some.inj hResolved'
  have hFramed := h.ordered.framed ht hResolved
  have hFramed' := h.ordered'.framed ht' hResolved'
  refine ⟨c, hResolved, hFramed, hFramed', ?_⟩
  rw [hSame]
  exact h.step t ht t' ht' c hResolved (h.alike.twins hKnown hKnown' hFramed hFramed')
    (h.aligned _ hPair)

/-- The two passes leave the same declarations up to numbers. Only their order differs. -/
theorem perm_value_mapM :
    (as'.mapM f env').value.1.Perm ((as.mapM f env).value.1.map (ClassDecl.renumber ρ)) := by
  rw [value_mapM, value_mapM, ← h.matched.left]
  refine (h.matched.right.symm.map _).trans (.of_eq ?_)
  rw [map_map, map_map, map_map]
  refine map_congr_left ?_
  intro pair hPair
  obtain ⟨c, hAlike⟩ := h.exists_turnsAlike hPair
  exact hAlike.paired.value

theorem perm_log_mapM : (as'.mapM f env').log.Perm (as.mapM f env).log := by
  rw [log_mapM, log_mapM, ← h.matched.left]
  refine (h.matched.right.symm.flatMap_right _).trans (.of_eq ?_)
  rw [flatMap_map, flatMap_map]
  refine flatMap_congr ?_
  intro pair hPair
  obtain ⟨c, hAlike⟩ := h.exists_turnsAlike hPair
  exact hAlike.paired.log

/-- They leave the same record of every class, up to numbers. A class without a turn keeps its record from the
start. -/
theorem classInfo_mapM (c : ClassId) : (as'.mapM f env').value.2.types.classInfo (ρ.cls c) =
      ((as.mapM f env).value.2.types.classInfo c).renumber ρ := by
  by_cases hc : c ∈ as.filterMap ClassDecl.resolved
  · obtain ⟨d, hd, hResolved⟩ := mem_filterMap.mp hc
    rw [← map_fst_turns f as env] at hd
    obtain ⟨t, ht, rfl⟩ := mem_map.mp hd
    obtain ⟨t', -, hPair⟩ := h.matched.exists_pair ht
    obtain ⟨c', hAlike⟩ := h.exists_turnsAlike hPair
    obtain rfl : c = c' := Option.some.inj (hResolved.symm.trans hAlike.resolved)
    rw [hAlike.framed'.left, hAlike.framed.left, ← hAlike.paired.twins.own]
    rfl
  · have hc' : ρ.cls c ∉ as'.filterMap ClassDecl.resolved := by
      intro hc'
      obtain ⟨d', hd', hResolved'⟩ := mem_filterMap.mp hc'
      obtain ⟨d, hd, rfl⟩ := mem_map.mp (h.perm.mem_iff.mp hd')
      obtain ⟨c₀, hResolved, hEq⟩ := Option.map_eq_some_iff.mp hResolved'
      exact hc (mem_filterMap.mpr ⟨d, hd, h.alike.outline.faithful.cls hEq ▸ hResolved⟩)
    rw [(growsAmong_mapM h.ordered.known h.ordered.enlarges).types.others c hc,
      (growsAmong_mapM h.ordered'.known h.ordered'.enlarges).types.others _ hc', h.alike.classInfo]

theorem size_turn {pair : (ClassDecl × Env) × (ClassDecl × Env)} (hPair : pair ∈ pairs) :
    (f pair.1.1 pair.1.2).value.2.size = pair.1.2.size + cost pair.1 ∧
      (f pair.2.1 pair.2.2).value.2.size = pair.2.2.size + cost pair.1 := by
  obtain ⟨c, hAlike⟩ := h.exists_turnsAlike hPair
  exact ⟨hAlike.paired.size, hAlike.paired.size'⟩

/-- The pass records the same methods. -/
theorem infos_mapM (hm : m.index < (as.mapM f env).value.2.size) :
    (as'.mapM f env').value.2.types.methodInfo (ρ.method m) =
      ((as.mapM f env).value.2.types.methodInfo m).renumber ρ := by
  have hGrows := growsAmong_mapM h.ordered.known h.ordered.enlarges
  have hGrows' := growsAmong_mapM h.ordered'.known h.ordered'.enlarges
  by_cases hOld : m.index < env.size
  · have hOld' : (ρ.method m).index < env'.size := (h.alike.bounded m).mpr hOld
    rw [ methodInfo_of_prefix hGrows.types.extension.methods hOld,
      methodInfo_of_prefix hGrows'.types.extension.methods hOld', h.alike.infos]
  · -- A method that is new was recorded in one of the turns.
    have hCost : ∀ t ∈ turns f as env, (f t.1 t.2).value.2.size = t.2.size + cost t := by
      intro t ht
      obtain ⟨t', -, hPair⟩ := h.matched.exists_pair ht
      exact (h.size_turn hPair).1
    obtain ⟨hEnd, hBlocks⟩ := blocks_of_turns cost as env hCost
    have hMem : m.index ∈ List.range' env.size ((turns f as env).map cost).sum :=
      mem_range'_1.mpr ⟨Nat.le_of_not_lt hOld, hEnd ▸ hm⟩
    rw [← hBlocks] at hMem
    obtain ⟨t, ht, hBlock⟩ := mem_flatMap.mp hMem
    obtain ⟨hFirst, hLast⟩ := mem_range'_1.mp hBlock
    obtain ⟨t', -, hPair⟩ := h.matched.exists_pair ht
    obtain ⟨c, hAlike⟩ := h.exists_turnsAlike hPair
    rw [← hCost t ht] at hLast
    have hTwins := hAlike.paired.twins
    rw [ methodInfo_of_prefix hAlike.framed.after.methods hLast,
      methodInfo_of_prefix hAlike.framed'.after.methods (hTwins.bounded m.index hFirst hLast)]
    exact hTwins.infos m.index hFirst hLast

/-- A pass in another order leaves the same registry, up to numbers. -/
theorem alike_mapM (hBounded : ∀ m : MethodId, (ρ.method m).index < (as'.mapM f env').value.2.size ↔
      m.index < (as.mapM f env).value.2.size) :
    (as.mapM f env).value.2.Alike ρ (as'.mapM f env').value.2 := by
  have hGrows := growsAmong_mapM h.ordered.known h.ordered.enlarges
  have hGrows' := growsAmong_mapM h.ordered'.known h.ordered'.enlarges
  refine ⟨h.alike.outline.congr_outline hGrows.types.extension.outline hGrows'.types.extension.outline,
    h.classInfo_mapM, ?_, hBounded⟩
  intro m
  by_cases hm : m.index < (as.mapM f env).value.2.size
  · exact h.infos_mapM hm
  · exact methodInfo_renumber_of_le h.alike.outline.faithful.root (Nat.le_of_not_lt hm)
      (Nat.le_of_not_lt (mt (hBounded m).mp hm))

end PassesAlike

/-! The passes that settle the classes. -/

section Settling

variable {as as' : List ClassDecl} {env env' : Env}
  {pairs : List ((ClassDecl × Env) × (ClassDecl × Env))}

/-- Declaring members is such a pass. A turn takes as many numbers as the class declares methods. -/
theorem passesAlike_declareMembers (h : env.Alike ρ env') (hPlaced : Placed as env)
    (hPlaced' : Placed as' env') (hAs : as'.Perm (as.map (ClassDecl.renumber ρ)))
    (hMatched : Matched ρ.cls (turns ClassDecl.declareMembers as env)
      (turns ClassDecl.declareMembers as' env') pairs)
    (hAligned : ∀ pair ∈ pairs, pair.1.2.Aligned ρ pair.1.1.demand pair.2.2) :
    PassesAlike ClassDecl.declareMembers ρ (fun t => t.1.demand) as as' env env' pairs where
  alike := h
  ordered := hPlaced.declareMembers
  ordered' := hPlaced'.declareMembers
  perm := hAs
  matched := hMatched
  aligned := hAligned
  step := fun _ _ _ _ _ hResolved => ClassDecl.paired_declareMembers hResolved

/-- Inherited fields only depend on who extends whom and on declared fields. -/
theorem Registry.inheritedFields_congr {r' : Registry} (hOutline : r'.outline = r.outline)
    (hFields : ∀ c, (r'.classInfo c).fields = (r.classInfo c).fields) (c : ClassId) :
    r'.inheritedFields c = r.inheritedFields c := by
  simp only [inheritedFields, ancestors, chain_of_outline hOutline, hFields]

/-- While classes are completed, what they inherit stays the same. -/
theorem inheritedFields_turns (hPlaced : Placed as env) : ∀ t ∈ turns ClassDecl.complete as env, ∀ c,
      t.2.types.inheritedFields c = env.types.inheritedFields c := by
  intro t ht
  obtain ⟨hOutline, hFields⟩ := (fields_turns hPlaced).1 t ht
  exact inheritedFields_congr hOutline hFields

/-- How many routines the class of a declaration lacks when its turn comes. -/
def ClassDecl.lacking (t : ClassDecl × Env) : Nat :=
  (t.1.resolved.map fun c => (t.2.types.classInfo c).lacking).getD 0

theorem ClassDecl.lacking_eq (hResolved : t.1.resolved = some c) :
    lacking t = (t.2.types.classInfo c).lacking := by
  rw [lacking, hResolved]
  rfl

/-- Completing classes is such a pass. A turn takes numbers for the constructor and the destructor that are
missing. -/
theorem passesAlike_complete (h : env.Alike ρ env') (hPlaced : Placed as env)
    (hPlaced' : Placed as' env') (hAs : as'.Perm (as.map (ClassDecl.renumber ρ)))
    (hMatched : Matched ρ.cls (turns ClassDecl.complete as env)
      (turns ClassDecl.complete as' env') pairs)
    (hAligned : ∀ pair ∈ pairs, pair.1.2.Aligned ρ (ClassDecl.lacking pair.1) pair.2.2) :
    PassesAlike ClassDecl.complete ρ ClassDecl.lacking as as' env env' pairs where
  alike := h
  ordered := hPlaced.complete
  ordered' := hPlaced'.complete
  perm := hAs
  matched := hMatched
  aligned := hAligned
  step := by
    intro t ht t' ht' c hResolved hTwins hAligned
    rw [ClassDecl.lacking_eq hResolved] at hAligned ⊢
    refine ClassDecl.paired_complete hResolved hTwins ?_ hAligned
    rw [inheritedFields_turns hPlaced t ht, inheritedFields_turns hPlaced' t' ht',
      h.types.inheritedFields]

/-- Classes once their tables are built. -/
theorem Analysis.Placed.classInfo_buildVMT (h : Placed as env) (c : ClassId) :
    (as.mapM ClassDecl.buildVMT env).value.2.types.classInfo c =
      if some c ∈ as.map ClassDecl.resolved then
        { env.types.classInfo c with vmt := env.types.dispatchTable c }
      else env.types.classInfo c := by
  obtain ⟨hTabulates, hTables⟩ := tabulated_pass h
  split
  case isTrue hc =>
    obtain ⟨d, hd, hResolved⟩ := mem_map.mp hc
    have hTable := hTables d hd c hResolved
    have hRest := hTabulates.classes c
    rw [hTabulates.dispatchTable] at hTable
    generalize (as.mapM ClassDecl.buildVMT env).value.2.types.classInfo c = info at hTable hRest
    cases info
    simp_all [ClassInfo.untabled]
  case isFalse hc =>
    refine (growsAmong_mapM h.known h.buildVMT.enlarges).types.others c fun hMem => hc ?_
    obtain ⟨d, hd, hEq⟩ := mem_filterMap.mp hMem
    exact mem_map.mpr ⟨d, hd, hEq⟩

/-- Tables of environments that are alike are alike. -/
theorem Env.Alike.buildVMT (h : env.Alike ρ env') (hPlaced : Placed as env) (hPlaced' : Placed as' env')
    (hAs : (as'.map ClassDecl.resolved).Perm (as.map fun d => d.resolved.map ρ.cls)) :
    (as.mapM ClassDecl.buildVMT env).value.2.Alike ρ (as'.mapM ClassDecl.buildVMT env').value.2 := by
  obtain ⟨hTabulates, -⟩ := tabulated_pass hPlaced
  obtain ⟨hTabulates', -⟩ := tabulated_pass hPlaced'
  constructor
  case outline =>
    exact h.outline.congr_outline hTabulates.extension.outline hTabulates'.extension.outline
  case classInfo =>
    intro c
    have hMem : some (ρ.cls c) ∈ as'.map ClassDecl.resolved ↔ some c ∈ as.map ClassDecl.resolved := by
      rw [hAs.mem_iff, mem_map, mem_map]
      refine exists_congr fun d => and_congr_right fun _ => ?_
      rw [Option.map_eq_some_iff]
      constructor
      · rintro ⟨c', hc', hEq⟩
        rw [hc', h.outline.faithful.cls hEq]
      · exact fun hc => ⟨c, hc, rfl⟩
    rw [hPlaced.classInfo_buildVMT, hPlaced'.classInfo_buildVMT]
    simp only [hMem, h.classInfo, h.types.dispatchTable]
    split <;> rfl
  case infos =>
    intro m
    rw [methodInfo, methodInfo, hTabulates'.methods, hTabulates.methods]
    exact h.infos m
  case bounded =>
    rw [size_mapM_buildVMT, size_mapM_buildVMT]
    exact h.bounded

end Settling

/-! All passes. -/

/-- New numbers for methods, beside those for classes. -/
def Renumbering.ofNumbers (π : ClassId → ClassId) (g : Nat → Nat) : Renumbering :=
  ⟨π, fun m => ⟨g m.index⟩⟩

/-- A renumbering of methods respects a bound. -/
def RespectsBound (g : Nat → Nat) (n : Nat) : Prop := ∀ k, g k < n ↔ k < n

theorem RespectsBound.comp {g' : Nat → Nat} {n : Nat} (h : RespectsBound g n) (h' : RespectsBound g' n) :
    RespectsBound (g ∘ g') n :=
  fun k => (h (g' k)).trans (h' k)

/-- What respects two neighbouring bounds keeps the number between them. -/
theorem RespectsBound.eq {k : Nat} (h : RespectsBound g k) (h' : RespectsBound g (k + 1)) : g k = k := by
  have hLower := h k
  have hUpper := h' k
  omega

section Settle

variable {as as' : List ClassDecl} {env env' : Env} {π : ClassId → ClassId}
  {pairs : List ((ClassDecl × Env) × (ClassDecl × Env))}

theorem demand_renumber (ρ : Renumbering) (d : ClassDecl) : (d.renumber ρ).demand = d.demand := by
  rw [ClassDecl.demand, ClassDecl.renumber, map_map]
  refine congrArg List.sum (map_congr_left ?_)
  intro member _
  cases member <;> rfl

theorem size_declareMembers {d : ClassDecl} (hResolved : d.resolved = some c) (env : Env) :
    (d.declareMembers env).value.2.size = env.size + d.demand := by
  rw [ClassDecl.declareMembers_eq hResolved]
  exact (enrollAll_takes c d.name d.members env).1

/-- Classes that belong together lack the same. -/
theorem Env.Alike.lacking_eq (h : env.Alike ρ env') (hPlaced : Placed as env) (hPlaced' : Placed as' env')
    (hMatched : Matched ρ.cls (turns ClassDecl.complete as env)
      (turns ClassDecl.complete as' env') pairs) (hPair : (t, t') ∈ pairs) :
    (t.1.complete t.2).value.2.size = t.2.size + ClassDecl.lacking t ∧
      (t'.1.complete t'.2).value.2.size = t'.2.size + ClassDecl.lacking t := by
  have ht : t ∈ turns ClassDecl.complete as env := hMatched.left ▸ mem_map_of_mem hPair
  have ht' : t' ∈ turns ClassDecl.complete as' env' :=
    hMatched.right.mem_iff.mp (mem_map_of_mem hPair)
  obtain ⟨c, hResolved, hc⟩ := hPlaced.known t.1 (fst_mem_of_mem_turns ht)
  have hResolved' : t'.1.resolved = some (ρ.cls c) := by
    rw [hMatched.same _ hPair, hResolved, Option.map_some]
  obtain ⟨c', hEq, hc'⟩ := hPlaced'.known t'.1 (fst_mem_of_mem_turns ht')
  obtain rfl : ρ.cls c = c' := Option.some.inj (hResolved'.symm.trans hEq)
  have hFramed := hPlaced.complete.framed ht hResolved
  have hFramed' := hPlaced'.complete.framed ht' hResolved'
  have hOwn : (t'.2.types.classInfo (ρ.cls c)).lacking = (t.2.types.classInfo c).lacking := by
    rw [hFramed'.found, h.classInfo, hFramed.found]
    simp only [ClassInfo.lacking, ClassInfo.renumber, Option.isSome_map]
    rfl
  rw [ClassDecl.lacking_eq hResolved]
  refine ⟨?_, ?_⟩
  · exact (ClassDecl.takes_complete hResolved
      (length_classes_of_outline hFramed.before.outline ▸ hc)).size
  · rw [← hOwn]
    exact (ClassDecl.takes_complete hResolved'
      (length_classes_of_outline hFramed'.before.outline ▸ hc')).size

/-- The resolved numbers of declarations that are the same up to numbers. -/
theorem perm_resolved (hAs : as'.Perm (as.map (ClassDecl.renumber ρ))) :
    (as'.map ClassDecl.resolved).Perm (as.map fun d => d.resolved.map ρ.cls) := by
  refine (hAs.map _).trans (.of_eq ?_)
  rw [map_map]
  rfl

/-- Classes that are settled in another order. -/
structure SettledAlike (ρ : Renumbering) (x x' : Checked (List ClassDecl × Env)) : Prop where
  classes : x'.value.1.Perm (x.value.1.map (ClassDecl.renumber ρ))
  log : x'.log.Perm x.log
  alike : x.value.2.Alike ρ x'.value.2
  size : x'.value.2.size = x.value.2.size

/-- A pass in another order hands out numbers that depend on nothing but the costs of its turns. -/
theorem exists_passAlike (cost : ClassDecl × Env → Nat) (hOrdered : Ordered f as env)
    (hSize : env'.size = env.size)
    (hSame : (as'.map ClassDecl.resolved).Perm (as.map fun d => d.resolved.map π))
    (hCost : ∀ pairs, Matched π (turns f as env) (turns f as' env') pairs → ∀ t t', (t, t') ∈ pairs →
      (f t.1 t.2).value.2.size = t.2.size + cost t ∧ (f t'.1 t'.2).value.2.size = t'.2.size + cost t) :
    let final := (as.mapM f env).value.2
    ∃ g, Function.Injective g ∧ (∀ n, n ≤ env.size ∨ final.size ≤ n → RespectsBound g n) ∧
      ∀ g' : Nat → Nat, RespectsBound g' final.size → (∀ k, env.size ≤ k → k < final.size → g' k = g k) →
        (∀ pairs, Matched π (turns f as env) (turns f as' env') pairs →
          (∀ pair ∈ pairs, pair.1.2.Aligned (.ofNumbers π g') (cost pair.1) pair.2.2) →
          PassesAlike f (.ofNumbers π g') cost as as' env env' pairs) →
        SettledAlike (.ofNumbers π g') (as.mapM f env) (as'.mapM f env') := by
  intro final
  obtain ⟨pairs, hMatched⟩ := exists_matched f env env' hSame
  have hTurns := hCost pairs hMatched
  obtain ⟨hEnd, g, hg, hBlocks, hBounds⟩ := hMatched.exists_numbers hSize cost
    (fun pair hPair => (hTurns _ _ hPair).1) (fun pair hPair => (hTurns _ _ hPair).2)
  refine ⟨g, hg, hBounds, fun g' hBound hAgrees hAlike => ?_⟩
  have hPasses := hAlike pairs hMatched fun pair hPair k hk => ?_
  · exact ⟨hPasses.perm_value_mapM, hPasses.perm_log_mapM,
      hPasses.alike_mapM fun m => hEnd ▸ hBound m.index, hEnd⟩
  obtain ⟨hFirst, hLast⟩ := hOrdered.turn_bounds (hMatched.left ▸ mem_map_of_mem hPair)
  rw [(hTurns _ _ hPair).1] at hLast
  refine congrArg MethodId.mk ((hAgrees _ ?_ ?_).trans (hBlocks pair hPair k hk))
  · exact Nat.le_trans hFirst (Nat.le_add_right _ _)
  · exact Nat.lt_of_lt_of_le (Nat.add_lt_add_left hk _) hLast

theorem Analysis.Matched.size_declareMembers (hPlaced : Placed as env) (hPlaced' : Placed as' env')
    (hAs : as'.Perm (as.map (ClassDecl.renumber ρ)))
    (h : Matched ρ.cls (turns ClassDecl.declareMembers as env) (turns ClassDecl.declareMembers as' env') pairs)
    (hPair : (t, t') ∈ pairs) : (t.1.declareMembers t.2).value.2.size = t.2.size + t.1.demand ∧
      (t'.1.declareMembers t'.2).value.2.size = t'.2.size + t.1.demand := by
  obtain ⟨c, hc, -⟩ := hPlaced.known t.1 (fst_mem_of_mem_turns (h.left ▸ mem_map_of_mem hPair))
  refine ⟨TLang.size_declareMembers hc t.2, ?_⟩
  rw [h.renumber hAs hPlaced'.declareMembers hPair,
    TLang.size_declareMembers (ClassDecl.resolved_renumber hc), demand_renumber]

/-- Settling classes in another order gives the same classes under other numbers. The numbers of
methods are found pass by pass, and what a pass does to the numbers of another one is nothing. -/
theorem exists_settledAlike (hPlaced : Placed as env) (hPlaced' : Placed as' env') (hSize : env'.size = env.size)
    (hAs : ∀ g, as'.Perm (as.map (ClassDecl.renumber (.ofNumbers π g))))
    (hStart : ∀ g : Nat → Nat, Function.Injective g → (∀ n ≤ env.size, RespectsBound g n) →
      env.Alike (.ofNumbers π g) env') :
    ∃ g, SettledAlike (.ofNumbers π g) (settle as env) (settle as' env') := by
  obtain ⟨g, hg, hBounds, hDeclared⟩ := exists_passAlike (fun t => t.1.demand) hPlaced.declareMembers
    hSize (perm_resolved (hAs id))
    fun _ hMatched _ _ => hMatched.size_declareMembers hPlaced hPlaced' (hAs id)
  have hPlaced₂ := hPlaced.declareMembers.placed_mapM fun d _ => d.resolved_declareMembers
  have hPlaced₂' := hPlaced'.declareMembers.placed_mapM fun d _ => d.resolved_declareMembers
  have hGrows := growsAmong_mapM hPlaced.known hPlaced.declareMembers.enlarges
  have hFirst := hDeclared g (hBounds _ (.inr le_rfl)) (fun _ _ _ => rfl)
    fun _ => passesAlike_declareMembers (hStart g hg fun n hn => hBounds n (.inl hn)) hPlaced hPlaced' (hAs g)
  obtain ⟨g', hg', hBounds', hCompleted⟩ := exists_passAlike ClassDecl.lacking hPlaced₂.complete
    hFirst.size (perm_resolved hFirst.classes)
    fun _ hMatched _ _ => hFirst.alike.lacking_eq hPlaced₂ hPlaced₂' hMatched
  have hPlaced₃ := hPlaced₂.complete.placed_mapM fun d _ => d.resolved_complete
  have hPlaced₃' := hPlaced₂'.complete.placed_mapM fun d _ => d.resolved_complete
  have hLess : env.size ≤ (as.mapM ClassDecl.declareMembers env).value.2.size :=
    hGrows.types.extension.methods.length_le
  have hMore := (growsAmong_mapM hPlaced₂.known
    hPlaced₂.complete.enlarges).types.extension.methods.length_le
  -- The numbers of both passes together.
  have hSecond := hDeclared (g ∘ g') ((hBounds _ (.inr le_rfl)).comp (hBounds' _ (.inl le_rfl)))
    (fun k _ hk => congrArg g ((hBounds' k (.inl hk.le)).eq (hBounds' (k + 1) (.inl hk))))
    fun _ => passesAlike_declareMembers (hStart _ (hg.comp hg') fun n hn =>
      (hBounds n (.inl hn)).comp (hBounds' n (.inl (hn.trans hLess)))) hPlaced hPlaced' (hAs _)
  have hBound := (hBounds _ (.inr hMore)).comp (hBounds' _ (.inr le_rfl))
  have hKept : ∀ k, (as.mapM ClassDecl.declareMembers env).value.2.size ≤ k → (g ∘ g') k = g' k := by
    intro k hk
    have hk' := mt (hBounds' _ (.inl le_rfl) k).mp (Nat.not_lt.mpr hk)
    rw [Nat.not_lt] at hk'
    exact (hBounds _ (.inr hk')).eq (hBounds _ (.inr (Nat.le_succ_of_le hk')))
  have hThird := hCompleted (g ∘ g') hBound (fun k hk _ => hKept k hk)
    fun _ => passesAlike_complete hSecond.alike hPlaced₂ hPlaced₂' hSecond.classes
  have hTables := hThird.alike.buildVMT hPlaced₃ hPlaced₃' (perm_resolved hThird.classes)
  refine ⟨g ∘ g', ?_⟩
  rw [settle_apply, settle_apply]
  simp only [mapM_buildVMT, append_nil]
  refine ⟨?_, hSecond.log.append hThird.log, hTables, ?_⟩
  · rw [(mapM_buildVMT _ _).1, (mapM_buildVMT _ _).1]
    exact hThird.classes
  · rw [size_mapM_buildVMT, size_mapM_buildVMT]
    exact hThird.size

end Settle
end TLang
