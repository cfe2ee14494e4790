import TLang.Proofs.Typing.Elaboration

/-! What typing a body does to the environment: it declares variables, and reports those that are
declared twice. -/
namespace TLang

open Registry Analysis

variable {env' : Env} {name : String} {ty : Ty}

namespace Env

variable {names : String → Prop} {env : Env}

/-- From one environment to a later one in the same position. -/
structure Frame (names : String → Prop) (env env' : Env) : Prop where
  below : env.Below env'
  position : env'.position = env.position
  wellFormed : env'.WellFormed names

theorem Frame.refl (h : env.WellFormed names) : Frame names env env := ⟨.refl env, rfl, h⟩

theorem Frame.trans {env'' : Env} (h : Frame names env env') (h' : Frame names env' env'') :
    Frame names env env'' :=
  ⟨h.below.trans h'.below, h'.position.trans h.position, h'.wellFormed⟩

theorem Frame.sound (hFrame : Frame names env env') (h : env.Sound names) : env'.Sound names where
  toWellFormed := hFrame.wellFormed
  inBody := by
    rw [hFrame.position, Position.InBody, hFrame.below.interface.classInfo]
    exact h.inBody

theorem WellFormed.frame (h : env.WellFormed names) (hBelow : env.Below env')
    (hPosition : env'.position = env.position)
    (hLocals : ∀ m, ∀ ty ∈ (env'.types.methodInfo m).locals.names.types, env.types.IsStored ty)
    (hGlobals : ∀ ty ∈ env'.globals.names.types, env.types.IsStored ty) : Frame names env env' := by
  have hStored := isStored_of_outline hBelow.interface.outline
  refine ⟨hBelow, hPosition, hBelow.interface.settled h.settled, ?_, ?_⟩
  · exact fun m ty hTy => (hStored ty).mpr (hLocals m ty hTy)
  · exact fun ty hTy => (hStored ty).mpr (hGlobals ty hTy)

/-- The table of a scope with a variable behind those it has. -/
theorem install?_eq_some {table table' : SymbolTable} (h : table.install? name ty = some table') :
    table'.names = table.names ++ [(name, ty)] := by
  obtain ⟨names, hAdd, rfl⟩ := Option.map_eq_some_iff.mp h
  exact (Bindings.add?_eq_some_iff.mp hAdd).2

theorem mem_types_append {b : Bindings} {ty' : Ty} (h : ty' ∈ Bindings.types (b ++ [(name, ty)])) :
    ty' ∈ b.types ∨ ty' = ty := by
  simpa [Bindings.types] using h

/-- Declaring a variable of a type that can be stored. -/
theorem Sound.frame_setScopeTable (h : env.Sound names) {table : SymbolTable} (hTy : env.types.IsStored ty)
    (hTable : table.names = env.scopeTable.names ++ [(name, ty)]) :
    Frame names env (env.setScopeTable table) := by
  cases hMethod : env.position.method? with
  | none =>
    have hScope : env.position.scope = .program := by rw [h.of_main hMethod]; rfl
    simp only [scopeTable, hScope] at hTable
    simp only [setScopeTable, hScope]
    refine h.toWellFormed.frame ⟨.refl _, fun _ => List.prefix_rfl, ?_⟩ rfl h.locals ?_
    · rw [hTable]
      exact List.prefix_append _ _
    · intro ty' hTy'
      rw [hTable] at hTy'
      rcases mem_types_append hTy' with hOld | rfl
      · exact h.globals ty' hOld
      · exact hTy
  | some m =>
    obtain ⟨c, hMem, -, hScope, -⟩ := h.of_method hMethod
    have hm := (h.settled.coherent c).bounded m hMem
    have hOther : ∀ k, k ≠ m → (env.types.updateMethod m fun i =>
        { i with locals := table }).methodInfo k = env.types.methodInfo k :=
      fun k hk => methodInfo_updateMethod_of_ne _ _ hk
    have hSelf := methodInfo_updateMethod_self env.types (fun i => { i with locals := table }) hm
    simp only [scopeTable, hScope] at hTable
    simp only [setScopeTable, hScope]
    refine h.toWellFormed.frame ⟨sameInterface_updateLocals hm table, ?_, List.prefix_rfl⟩ rfl ?_ h.globals
    · intro k
      by_cases hk : k = m
      · rw [hk, hSelf, hTable]
        exact List.prefix_append _ _
      · exact hOther k hk ▸ List.prefix_rfl
    · intro k ty' hTy'
      by_cases hk : k = m
      · rw [hk, hSelf, hTable] at hTy'
        rcases mem_types_append hTy' with hOld | rfl
        · exact h.locals m ty' hOld
        · exact hTy
      · rw [hOther k hk] at hTy'
        exact h.locals k ty' hTy'

end Env

namespace Analysis

variable {names : String → Prop} {env : Env}

theorem ensures_declareName (h : env.Sound names) (hTy : env.types.IsStored ty) (line : Nat) (name : String) :
    Ensures (declareName line ty name) env (·.isDuplicateVariable) fun _ env' =>
      env.Frame names env' := by
  refine Ensures.get_bind ?_
  simp only
  split
  case h_1 table hFree =>
    refine Ensures.set_bind (Ensures.pure ?_)
    split at hFree
    · cases hFree
    · exact h.frame_setScopeTable hTy (Env.install?_eq_some hFree)
  case h_2 =>
    exact Ensures.report_bind rfl (Ensures.pure (.refl h.toWellFormed))

theorem ensures_declareNames (h : env.Sound names) (hTy : env.types.IsStored ty) (line : Nat)
    (declared : List String) :
    Ensures (declareNames line ty declared) env (·.isDuplicateVariable) fun _ env' =>
      env.Frame names env' := by
  induction declared generalizing env with
  | nil => exact Ensures.pure (.refl h.toWellFormed)
  | cons name rest ih =>
    refine Ensures.bind (ensures_declareName h hTy line name) ?_
    intro accepted env' hFrame
    have hTy' := (isStored_of_outline hFrame.below.interface.outline ty).mpr hTy
    refine Ensures.bind (ih (hFrame.sound h) hTy') ?_
    exact fun _ _ hFrame' => Ensures.pure (hFrame.trans hFrame')

end Analysis
end TLang
