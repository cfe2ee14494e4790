import TLang.Proofs.Renumbering.Bodies
import TLang.Proofs.Roster

/-! Every body is typed as if it were alone. Typing a body neither sees nor changes the variables of
any other, so all bodies may be typed in the environment that the declarations left behind: trees and
diagnostics are the same as if they were typed one after the other, and each routine ends up with the
variables that its own body declares. -/
namespace TLang

open Registry Analysis List

variable {p : Position}

theorem MethodInfo.eq_of_heading {m m' : MethodInfo} (hHeading : m'.heading = m.heading)
    (hLocals : m'.locals = m.locals) : m' = m := by
  cases m
  cases m'
  simp_all [heading]

variable {α β : Type} {ids more : List MethodId} {env env' env'' : Env}

/-- The environments agree on what is visible everywhere and on the records of some routines. -/
structure Env.Agrees (ids : List MethodId) (env env' : Env) : Prop where
  position : env'.position = env.position
  interface : SameInterface env.types env'.types
  own : ∀ m ∈ ids, env'.types.methodInfo m = env.types.methodInfo m

/-- Only the variables of some routines may have changed, by more of them. -/
structure Env.Touches (ids : List MethodId) (env env' : Env) : Prop where
  position : env'.position = env.position
  interface : SameInterface env.types env'.types
  globals : env'.globals = env.globals
  others : ∀ m, m ∉ ids → env'.types.methodInfo m = env.types.methodInfo m
  locals : ∀ m, (env.types.methodInfo m).locals.Extends (env'.types.methodInfo m).locals

/-- All routines are recorded, and the environment is at the position. -/
def Env.Ready (p : Position) (ids : List MethodId) (env : Env) : Prop :=
  env.position = p ∧ ∀ m ∈ ids, m.index < env.types.methods.length

theorem Env.Ready.mono (h : env.Ready p ids) (hMore : more ⊆ ids) : env.Ready p more :=
  ⟨h.1, fun m hm => h.2 m (hMore hm)⟩

theorem Env.Agrees.mono (h : Agrees ids env env') (hMore : more ⊆ ids) : Agrees more env env' :=
  ⟨h.position, h.interface, fun m hm => h.own m (hMore hm)⟩

theorem Env.Agrees.ready (h : Agrees ids env env') (hReady : env.Ready p more) : env'.Ready p more :=
  ⟨h.position.trans hReady.1, fun m hm => h.interface.length ▸ hReady.2 m hm⟩

namespace Env.Touches

theorem refl (ids : List MethodId) (env : Env) : Touches ids env env :=
  ⟨rfl, .refl _, rfl, fun _ _ => rfl, fun _ => .refl _⟩

theorem trans (h : Touches ids env env') (h' : Touches more env' env'') :
    Touches (ids ++ more) env env'' where
  position := h'.position.trans h.position
  interface := h.interface.trans h'.interface
  globals := h'.globals.trans h.globals
  others := by
    intro m hm
    rw [mem_append, not_or] at hm
    rw [h'.others m hm.2, h.others m hm.1]
  locals m := (h.locals m).trans (h'.locals m)

/-- Routines that were not touched are as before. -/
theorem agrees (h : Touches ids env env') (hDisjoint : ids.Disjoint more) : Agrees more env env' :=
  ⟨h.position, h.interface, fun m hm => h.others m fun hIds => hDisjoint hIds hm⟩

theorem ready (h : Touches ids env env') (hReady : env.Ready p more) : env'.Ready p more :=
  (h.agrees (disjoint_nil_right ids)).ready hReady

end Env.Touches

/-- At the position, the analysis only sees and changes the variables of these routines. -/
structure Analysis.Local (p : Position) (ids : List MethodId) (x : Analysis α) : Prop where
  touches : ∀ env : Env, env.Ready p ids → env.Touches ids (x env).value.2
  value : ∀ {env env' : Env}, env.Ready p ids → env.Agrees ids env' → (x env').value.1 = (x env).value.1
  log : ∀ {env env' : Env}, env.Ready p ids → env.Agrees ids env' → (x env').log = (x env).log
  own : ∀ {env env' : Env}, env.Ready p ids → env.Agrees ids env' → ∀ m ∈ ids,
    (x env').value.2.types.methodInfo m = (x env).value.2.types.methodInfo m

/-- The outcome of a pass is what its steps would give one by one in the same environment. -/
structure Analysis.Apart (f : α → Analysis β) (ids : α → List MethodId) (as : List α) (env : Env) :
    Prop where
  value : (as.mapM f env).value.1 = as.map fun a => (f a env).value.1
  log : (as.mapM f env).log = as.flatMap fun a => (f a env).log
  own : ∀ a ∈ as, ∀ m ∈ ids a,
    (as.mapM f env).value.2.types.methodInfo m = (f a env).value.2.types.methodInfo m

namespace Analysis.Local

variable {p : Position} {f : α → Analysis β} {ids : α → List MethodId}

theorem pure (p : Position) (ids : List MethodId) (a : α) : Local p ids (Pure.pure a) where
  touches := fun env _ => .refl ids env
  value := fun _ _ => rfl
  log := fun _ _ => rfl
  own := fun _ h => h.own

/-- Steps that look at different routines do not depend on each other. -/
theorem apart (as : List α) (hLocal : ∀ a ∈ as, Local p (ids a) (f a))
    (hNodup : (as.flatMap ids).Nodup) {env : Env} (hReady : env.Ready p (as.flatMap ids)) :
    env.Touches (as.flatMap ids) (as.mapM f env).value.2 ∧ Apart f ids as env := by
  induction as generalizing env with
  | nil => exact ⟨.refl _ env, rfl, rfl, fun _ h => absurd h not_mem_nil⟩
  | cons a as ih =>
    rw [flatMap_cons] at hNodup hReady ⊢
    obtain ⟨-, hRestNodup, hDisjoint⟩ := nodup_append'.mp hNodup
    have hFirst := hLocal a mem_cons_self
    have hRestLocal : ∀ b ∈ as, Local p (ids b) (f b) :=
      fun b hb => hLocal b (mem_cons_of_mem _ hb)
    have hReadyRest := hReady.mono (subset_append_right _ _)
    have hTouches := hFirst.touches env (hReady.mono (subset_append_left _ _))
    have hAgrees := hTouches.agrees hDisjoint
    obtain ⟨hTouchesRest, hApart⟩ := ih hRestLocal hRestNodup (hTouches.ready hReadyRest)
    have hReadyAt : ∀ b ∈ as, env.Ready p (ids b) :=
      fun b hb => hReadyRest.mono fun _ => mem_flatMap_of_mem hb
    have hAgreesAt : ∀ b ∈ as, env.Agrees (ids b) (f a env).value.2 :=
      fun b hb => hAgrees.mono fun _ => mem_flatMap_of_mem hb
    rw [mapM_cons_apply]
    refine ⟨hTouches.trans hTouchesRest, ?_, ?_, ?_⟩
    · rw [mapM_cons_apply, hApart.value, map_cons, map_congr_left fun b hb =>
        (hRestLocal b hb).value (hReadyAt b hb) (hAgreesAt b hb)]
    · rw [mapM_cons_apply, hApart.log, flatMap_cons, flatMap_congr fun b hb =>
        (hRestLocal b hb).log (hReadyAt b hb) (hAgreesAt b hb)]
    · intro b hb m hm
      rw [mapM_cons_apply]
      rcases mem_cons.mp hb with rfl | hb
      · exact hTouchesRest.others m fun hRest => hDisjoint hm hRest
      · exact (hApart.own b hb m hm).trans
          ((hRestLocal b hb).own (hReadyAt b hb) (hAgreesAt b hb) m hm)

/-- A pass over steps that look at different routines is such a step itself. -/
theorem mapM (as : List α) (hLocal : ∀ a ∈ as, Local p (ids a) (f a))
    (hNodup : (as.flatMap ids).Nodup) : Local p (as.flatMap ids) (as.mapM f) := by
  have hAt : ∀ {e e' : Env}, e.Ready p (as.flatMap ids) → e.Agrees (as.flatMap ids) e' →
      ∀ a ∈ as, e.Ready p (ids a) ∧ e.Agrees (ids a) e' := by
    intro e e' hReady hAgrees a ha
    have hMem : ids a ⊆ as.flatMap ids := fun _ => mem_flatMap_of_mem ha
    exact ⟨hReady.mono hMem, hAgrees.mono hMem⟩
  refine ⟨?_, ?_, ?_, ?_⟩
  · exact fun e hReady => (apart as hLocal hNodup hReady).1
  · intro e e' hReady hAgrees
    rw [(apart as hLocal hNodup hReady).2.value,
      (apart as hLocal hNodup (hAgrees.ready hReady)).2.value]
    apply map_congr_left
    intro a ha
    obtain ⟨hReadyAt, hAgreesAt⟩ := hAt hReady hAgrees a ha
    exact (hLocal a ha).value hReadyAt hAgreesAt
  · intro e e' hReady hAgrees
    rw [(apart as hLocal hNodup hReady).2.log, (apart as hLocal hNodup (hAgrees.ready hReady)).2.log]
    apply flatMap_congr
    intro a ha
    obtain ⟨hReadyAt, hAgreesAt⟩ := hAt hReady hAgrees a ha
    exact (hLocal a ha).log hReadyAt hAgreesAt
  · intro e e' hReady hAgrees m hm
    obtain ⟨a, ha, hm⟩ := mem_flatMap.mp hm
    obtain ⟨hReadyAt, hAgreesAt⟩ := hAt hReady hAgrees a ha
    rw [(apart as hLocal hNodup hReady).2.own a ha m hm,
      (apart as hLocal hNodup (hAgrees.ready hReady)).2.own a ha m hm]
    exact (hLocal a ha).own hReadyAt hAgreesAt m hm

end Analysis.Local

theorem Env.keepsScope_method {m : MethodId} (hScope : env.position.scope = .method m)
    (hm : m.index < env.types.methods.length) : env.KeepsScope := by
  rw [KeepsScope, hScope]
  exact hm

/-- The second environment is the first one under other numbers, as far as the bodies of some
routines are concerned. -/
structure Env.Copies (ρ : Renumbering) (ids : List MethodId) (env env' : Env) : Prop where
  types : Renumbered ρ env.types env'.types
  own : ∀ m ∈ ids, env'.types.methodInfo (ρ.method m) = (env.types.methodInfo m).renumber ρ

/-- Two outcomes are the same up to numbers, and so are the records of some routines. -/
structure Analysis.Copied (ρ : Renumbering) (ids : List MethodId) (f : α → β)
    (x : Checked (α × Env)) (x' : Checked (β × Env)) : Prop where
  value : x'.value.1 = f x.value.1
  log : x'.log = x.log
  own : ∀ m ∈ ids, x'.value.2.types.methodInfo (ρ.method m) = (x.value.2.types.methodInfo m).renumber ρ

/-- If the steps of two passes are the same up to numbers one by one, then so are the passes. -/
theorem Analysis.Copied.mapM {α' β' : Type} {ρ : Renumbering} (hρ : ρ.Faithful) {p' : Position}
    {f : α → Analysis β} {f' : α' → Analysis β'} {g : α → α'} {h : β → β'} (ids : α → List MethodId)
    (ids' : α' → List MethodId) (as : List α) (hIds : ∀ a, ids' (g a) = (ids a).map ρ.method)
    (hLocal : ∀ a ∈ as, Local p (ids a) (f a)) (hLocal' : ∀ a ∈ as, Local p' (ids' (g a)) (f' (g a)))
    (hNodup : (as.flatMap ids).Nodup) (hReady : env.Ready p (as.flatMap ids))
    (hReady' : env'.Ready p' ((as.flatMap ids).map ρ.method))
    (hStep : ∀ a ∈ as, Copied ρ (ids a) h (f a env) (f' (g a) env')) :
    Copied ρ (as.flatMap ids) (List.map h) (as.mapM f env) ((as.map g).mapM f' env') := by
  have hMapped : (as.map g).flatMap ids' = (as.flatMap ids).map ρ.method := by
    rw [flatMap_map, map_flatMap]
    exact flatMap_congr fun a _ => hIds a
  have hNodup' : ((as.map g).flatMap ids').Nodup :=
    hMapped ▸ hNodup.map fun m m' hEq => hρ.method hEq
  have hApart := (Local.apart as hLocal hNodup hReady).2
  have hApart' := (Local.apart (as.map g) (by simpa using hLocal') hNodup' (hMapped ▸ hReady')).2
  refine ⟨?_, ?_, ?_⟩
  · rw [hApart.value, hApart'.value, map_map, map_map]
    exact map_congr_left fun a ha => (hStep a ha).value
  · rw [hApart.log, hApart'.log, flatMap_map]
    exact flatMap_congr fun a ha => (hStep a ha).log
  · intro m hm
    obtain ⟨a, ha, hm⟩ := mem_flatMap.mp hm
    rw [hApart.own a ha m hm, ← (hStep a ha).own m hm]
    exact hApart'.own (g a) (mem_map_of_mem ha) _ (hIds a ▸ mem_map_of_mem hm)

/-- What is the same up to numbers whenever the environments are, and changes nothing else, does not
depend on other routines. -/
theorem Analysis.Local.of_copied {x : Analysis α}
    (hTouches : ∀ env : Env, env.Ready p ids → env.Touches ids (x env).value.2)
    (hCopied : ∀ {env env' : Env}, env.Ready p ids → env'.Ready p ids → env.Copies .same ids env' →
      Copied .same ids id (x env) (x env')) : Local p ids x := by
  have hRun : ∀ {env env' : Env}, env.Ready p ids → env.Agrees ids env' →
      Copied .same ids id (x env) (x env') :=
    fun hReady hAgrees => hCopied hReady (hAgrees.ready hReady)
      ⟨.of_interface hAgrees.interface, by simpa using hAgrees.own⟩
  refine ⟨hTouches, ?_, ?_, ?_⟩
  · exact fun hReady hAgrees => (hRun hReady hAgrees).value
  · exact fun hReady hAgrees => (hRun hReady hAgrees).log
  · intro env env' hReady hAgrees m hm
    have hOwn := (hRun hReady hAgrees).own m hm
    rw [MethodInfo.renumber_same] at hOwn
    exact hOwn

namespace MethodDecl

variable {ρ : Renumbering} {c : ClassId} {m : MethodId}

theorem fullBody_renumber (ρ : Renumbering) (d : MethodDecl) :
    (d.renumber ρ).fullBody = Stmt.renumberAll ρ d.fullBody := by
  have hHead : (Stmt.renumberAll ρ d.body).head?.any Stmt.isConstruct =
      d.body.head?.any Stmt.isConstruct := by
    cases d.body with
    | nil => rfl
    | cons s rest => cases s <;> rfl
  simp only [fullBody, renumber, hHead]
  split <;> rfl

/-- The environment in which the body of a method is typed. -/
def inside (m : MethodId) (env : Env) : Env := env.updatePosition (·.enterMethod m)

theorem analyzeBody_apply {d : MethodDecl} (hResolved : d.resolved = some m) (env : Env) :
    d.analyzeBody env = let body := Stmt.analyzeBody (d.kind = .constructor) d.fullBody (inside m env)
      ⟨({ d with body := body.value.1 }, body.value.2.updatePosition (·.leaveMethod)), body.log⟩ := by
  apply Logged.ext <;> simp [analyzeBody, hResolved, inside]

theorem scope_inside (hReady : env.Ready { inClass := some c } [m]) :
    (inside m env).position.scope = .method m := by
  simp [inside, Env.updatePosition, hReady.1, Position.enterMethod, Position.scope]

theorem keepsScope_inside (hReady : env.Ready { inClass := some c } [m]) : (inside m env).KeepsScope :=
  Env.keepsScope_method (scope_inside hReady) (hReady.2 m mem_cons_self)

/-- The body of a method only changes the variables of that method. -/
theorem touches_analyzeBody (d : MethodDecl) (env : Env)
    (hReady : env.Ready { inClass := some c } d.resolved.toList) :
    env.Touches d.resolved.toList (d.analyzeBody env).value.2 := by
  cases hResolved : d.resolved with
  | none =>
    rw [analyzeBody, hResolved]
    exact .refl _ env
  | some m =>
    rw [hResolved] at hReady
    have hAllots := Stmt.allots_analyzeBody (d.kind = .constructor) d.fullBody (inside m env)
    have hOthers : ∀ k, k ≠ m → _ := fun k hk =>
      hAllots.methodInfo_of_ne (m := k) (by rw [scope_inside hReady]; rintro ⟨⟩; exact hk rfl)
    rw [analyzeBody_apply hResolved]
    refine ⟨?_, hAllots.interface (keepsScope_inside hReady), ?_, ?_, fun k => ?_⟩
    · have hPosition : (inside m env).position = { inClass := some c, inMethod := some m } := by
        simp [inside, Env.updatePosition, hReady.1, Position.enterMethod]
      simp [Env.updatePosition, hAllots.position.trans hPosition, hReady.1, Position.leaveMethod]
    · exact hAllots.globals (by simp [scope_inside hReady])
    · exact fun k hk => hOthers k fun hEq => hk (hEq ▸ mem_cons_self)
    · by_cases hk : k = m
      · have hTable := hAllots.extends_scopeTable (keepsScope_inside hReady)
        rw [Env.scopeTable, Env.scopeTable, hAllots.position, scope_inside hReady] at hTable
        exact hk ▸ hTable
      · exact congrArg MethodInfo.locals (hOthers k hk) ▸ .refl _

/-- The body of a method is typed the same under other numbers. -/
theorem copied_analyzeBody (d : MethodDecl)
    (hReady : env.Ready { inClass := some c } d.resolved.toList)
    (hReady' : env'.Ready { inClass := some (ρ.cls c) } (d.resolved.toList.map ρ.method))
    (hCopies : env.Copies ρ d.resolved.toList env') :
    Copied ρ d.resolved.toList (renumber ρ) (d.analyzeBody env) ((d.renumber ρ).analyzeBody env') := by
  cases hResolved : d.resolved with
  | none =>
    have hResolved' : (d.renumber ρ).resolved = none := by rw [renumber, hResolved, Option.map_none]
    rw [analyzeBody, hResolved, analyzeBody, hResolved']
    exact ⟨rfl, rfl, fun _ hm => absurd hm not_mem_nil⟩
  | some m =>
    have hResolved' : (d.renumber ρ).resolved = some (ρ.method m) := by
      rw [renumber, hResolved, Option.map_some]
    rw [hResolved] at hReady hReady' hCopies
    have hOwn := hCopies.own m mem_cons_self
    have hMirrors : (inside m env).Mirrors ρ (inside (ρ.method m) env') := {
      types := hCopies.types
      position := by
        simp [inside, Env.updatePosition, hReady.1, hReady'.1, Position.enterMethod, Position.renumber]
      scope := by
        rw [Env.scopeTable, Env.scopeTable, scope_inside hReady, scope_inside hReady']
        exact congrArg MethodInfo.locals hOwn
      keeps := keepsScope_inside hReady
      keeps' := keepsScope_inside hReady' }
    have hBody := Stmt.mirrored_analyzeBody (d.kind = .constructor) d.fullBody hMirrors
    rw [← fullBody_renumber] at hBody
    have hAllots := Stmt.allots_analyzeBody (d.kind = .constructor) d.fullBody (inside m env)
    have hAllots' := Stmt.allots_analyzeBody (d.kind = .constructor) (d.renumber ρ).fullBody
      (inside (ρ.method m) env')
    rw [analyzeBody_apply hResolved, analyzeBody_apply hResolved']
    refine ⟨?_, hBody.log, ?_⟩
    · exact congrArg (fun body => { d.renumber ρ with body }) hBody.value
    · intro m' hm'
      obtain rfl : m' = m := mem_singleton.mp hm'
      apply MethodInfo.eq_of_heading
      · exact hBody.env.types.heading m'
      · have hTable := hBody.env.scope
        rw [Env.scopeTable, Env.scopeTable, hAllots.position, hAllots'.position,
          scope_inside hReady, scope_inside hReady'] at hTable
        exact hTable

theorem local_analyzeBody (c : ClassId) (d : MethodDecl) :
    Local { inClass := some c } d.resolved.toList d.analyzeBody := by
  refine .of_copied d.touches_analyzeBody ?_
  intro env env' hReady hReady' hCopies
  have h := d.copied_analyzeBody (c := c) hReady (by simpa using hReady') hCopies
  rw [renumber_same] at h
  exact ⟨h.value.trans (renumber_same _), h.log, h.own⟩

end MethodDecl

namespace Member

variable {ρ : Renumbering} {c : ClassId}

/-- Typing a member depends on nothing that the other bodies leave behind, and it changes its own method only. -/
theorem local_analyzeBody (c : ClassId) (member : Member) :
    Local { inClass := some c } member.routine?.toList member.analyzeBody := by
  cases member with
  | field d => exact .pure _ _ _
  | method d =>
    obtain ⟨hTouches, hValue, hLog, hOwn⟩ := d.local_analyzeBody c
    refine ⟨hTouches, ?_, ?_, hOwn⟩
    · exact fun hReady hAgrees => congrArg Member.method (hValue hReady hAgrees)
    · intro env env' hReady hAgrees
      simpa [analyzeBody] using hLog hReady hAgrees

/-- Under other numbers a member is typed in the same way, with the same report. -/
theorem copied_analyzeBody (member : Member)
    (hReady : env.Ready { inClass := some c } member.routine?.toList)
    (hReady' : env'.Ready { inClass := some (ρ.cls c) } (member.routine?.toList.map ρ.method))
    (hCopies : env.Copies ρ member.routine?.toList env') :
    Copied ρ member.routine?.toList (renumber ρ) (member.analyzeBody env)
      ((member.renumber ρ).analyzeBody env') := by
  cases member with
  | field d => exact ⟨rfl, rfl, fun _ hm => absurd hm not_mem_nil⟩
  | method d =>
    have h := d.copied_analyzeBody hReady hReady' hCopies
    refine ⟨congrArg Member.method h.value, ?_, h.own⟩
    simpa [analyzeBody, renumber] using h.log

theorem routine?_renumber (ρ : Renumbering) (member : Member) :
    (member.renumber ρ).routine? = member.routine?.map ρ.method := by
  cases member <;> rfl

end Member

namespace ClassDecl

variable {ρ : Renumbering} {c : ClassId} {d : ClassDecl}

theorem routines_eq_flatMap (d : ClassDecl) :
    d.routines = d.members.flatMap fun member => member.routine?.toList := by
  rw [routines, filterMap_eq_flatMap_toList]

theorem routines_renumber (ρ : Renumbering) (d : ClassDecl) :
    (d.renumber ρ).routines = d.routines.map ρ.method := by
  simp only [routines, renumber, filterMap_map, Function.comp_def, Member.routine?_renumber,
    map_filterMap]

/-- The environment in which the bodies of a class are typed. -/
def inside (c : ClassId) (env : Env) : Env := env.updatePosition (·.enterClass c)

theorem analyzeBodies_apply (hResolved : d.resolved = some c) (env : Env) : d.analyzeBodies env =
      let bodies := d.members.mapM Member.analyzeBody (inside c env)
      ⟨({ d with members := bodies.value.1 }, bodies.value.2.updatePosition (·.leaveClass)),
        bodies.log⟩ := by
  apply Logged.ext <;> simp [analyzeBodies, hResolved, inside]

theorem ready_inside (c : ClassId) (hReady : env.Ready {} ids) :
    (inside c env).Ready { inClass := some c } ids := by
  refine ⟨?_, hReady.2⟩
  simp [inside, Env.updatePosition, hReady.1, Position.enterClass]

theorem local_members (c : ClassId) (hNodup : d.routines.Nodup) :
    Local { inClass := some c } d.routines (d.members.mapM Member.analyzeBody) := by
  rw [routines_eq_flatMap] at hNodup ⊢
  exact .mapM d.members (fun member _ => member.local_analyzeBody c) hNodup

/-- The bodies of a class only see and change the variables of its own routines. -/
theorem local_analyzeBodies (hNodup : d.routines.Nodup) : Local {} d.routines d.analyzeBodies := by
  cases hResolved : d.resolved with
  | none =>
    have hPure : d.analyzeBodies = pure d := by rw [analyzeBodies, hResolved]
    rw [hPure]
    exact .pure _ _ d
  | some c =>
    have hMembers := local_members c hNodup
    have hAgrees : ∀ {env env' : Env}, env.Agrees d.routines env' →
        (inside c env).Agrees d.routines (inside c env') := fun h =>
      ⟨congrArg (Position.enterClass · c) h.position, h.interface, h.own⟩
    refine ⟨?_, ?_, ?_, ?_⟩
    · intro env hReady
      have hTouches := hMembers.touches (inside c env) (ready_inside c hReady)
      have hPosition := hTouches.position.trans (ready_inside c hReady).1
      rw [analyzeBodies_apply hResolved]
      refine ⟨?_, hTouches.interface, hTouches.globals, hTouches.others, hTouches.locals⟩
      simp [Env.updatePosition, hPosition, hReady.1, Position.leaveClass]
    · intro env env' hReady h
      rw [analyzeBodies_apply hResolved, analyzeBodies_apply hResolved]
      exact congrArg (fun members => { d with members })
        (hMembers.value (ready_inside c hReady) (hAgrees h))
    · intro env env' hReady h
      rw [analyzeBodies_apply hResolved, analyzeBodies_apply hResolved]
      exact hMembers.log (ready_inside c hReady) (hAgrees h)
    · intro env env' hReady h
      rw [analyzeBodies_apply hResolved, analyzeBodies_apply hResolved]
      exact hMembers.own (ready_inside c hReady) (hAgrees h)

/-- The bodies of a class are typed the same under other numbers. -/
theorem copied_analyzeBodies (hNodup : d.routines.Nodup) (hReady : env.Ready {} d.routines)
    (hReady' : env'.Ready {} (d.routines.map ρ.method)) (hCopies : env.Copies ρ d.routines env') :
    Copied ρ d.routines (renumber ρ) (d.analyzeBodies env) ((d.renumber ρ).analyzeBodies env') := by
  cases hResolved : d.resolved with
  | none =>
    have hResolved' : (d.renumber ρ).resolved = none := by rw [renumber, hResolved, Option.map_none]
    rw [analyzeBodies, hResolved, analyzeBodies, hResolved']
    exact ⟨rfl, rfl, hCopies.own⟩
  | some c =>
    have hResolved' : (d.renumber ρ).resolved = some (ρ.cls c) := by
      rw [renumber, hResolved, Option.map_some]
    have hInside := ready_inside c hReady
    have hInside' := ready_inside (ρ.cls c) hReady'
    rw [routines_eq_flatMap] at hNodup hInside hInside' hCopies ⊢
    have hIds : ∀ member : Member, (member.renumber ρ).routine?.toList =
        member.routine?.toList.map ρ.method := by
      intro member
      rw [Member.routine?_renumber, Option.toList_map]
    have hMembers : Copied ρ (d.members.flatMap (·.routine?.toList)) (List.map (Member.renumber ρ))
        (d.members.mapM Member.analyzeBody (inside c env))
        ((d.members.map (Member.renumber ρ)).mapM Member.analyzeBody (inside (ρ.cls c) env')) := by
      refine Copied.mapM hCopies.types.faithful (·.routine?.toList)
        (fun member : Member => member.routine?.toList) d.members hIds
        (fun member _ => member.local_analyzeBody c)
        (fun member _ => (member.renumber ρ).local_analyzeBody (ρ.cls c)) hNodup hInside hInside' ?_
      intro member hMember
      have hOwn : member.routine?.toList ⊆ d.members.flatMap (·.routine?.toList) :=
        fun m hm => mem_flatMap.mpr ⟨member, hMember, hm⟩
      exact member.copied_analyzeBody (hInside.mono hOwn) (hInside'.mono (map_subset _ hOwn))
        ⟨hCopies.types, fun m hm => hCopies.own m (hOwn hm)⟩
    rw [analyzeBodies_apply hResolved, analyzeBodies_apply hResolved']
    refine ⟨?_, hMembers.log, hMembers.own⟩
    exact congrArg (fun members => { d.renumber ρ with members }) hMembers.value

end ClassDecl

namespace MainBlock

variable {ρ : Renumbering}

/-- The environment in which the main block is typed. -/
def inside (env : Env) : Env := env.updatePosition (·.enterMain)

theorem analyze_apply (m : MainBlock) (env : Env) : m.analyze env =
      let body := Stmt.analyzeBody false m.body (inside env)
      ⟨({ m with body := body.value.1 }, body.value.2.updatePosition (·.leaveMain)), body.log⟩ := by
  apply Logged.ext <;> simp [analyze, inside]

theorem scope_inside (hPosition : env.position = {}) : (inside env).position.scope = .program := by
  simp [inside, Env.updatePosition, hPosition, Position.enterMain, Position.scope]

theorem keepsScope_inside (hPosition : env.position = {}) : (inside env).KeepsScope := by
  rw [Env.KeepsScope, scope_inside hPosition]
  trivial

theorem scopeTable_of_program (hScope : env.position.scope = .program) :
    env.scopeTable = env.globals := by
  rw [Env.scopeTable, hScope]

/-- The main block only adds variables of its own. -/
theorem extends_analyze (m : MainBlock) (hPosition : env.position = {}) :
    (m.analyze env).value.2.position = {} ∧ (m.analyze env).value.2.types = env.types ∧
      env.globals.Extends (m.analyze env).value.2.globals := by
  have hAllots := Stmt.allots_analyzeBody false m.body (inside env)
  have hScope := scope_inside hPosition
  have hTable := hAllots.extends_scopeTable (keepsScope_inside hPosition)
  rw [scopeTable_of_program hScope, scopeTable_of_program (hAllots.position ▸ hScope)] at hTable
  have hInside : (inside env).position = { inMain := true } := by
    simp [inside, Env.updatePosition, hPosition, Position.enterMain]
  rw [analyze_apply]
  refine ⟨?_, hAllots.types_of_program hScope, hTable⟩
  simp [Env.updatePosition, hAllots.position.trans hInside, Position.leaveMain]

/-- The main block is typed the same under other numbers. -/
theorem copied_analyze (m : MainBlock) (hTypes : Renumbered ρ env.types env'.types)
    (hPosition : env.position = {}) (hPosition' : env'.position = {})
    (hGlobals : env'.globals = env.globals.renumber ρ) :
    ((m.renumber ρ).analyze env').value.1 = (m.analyze env).value.1.renumber ρ ∧
      ((m.renumber ρ).analyze env').log = (m.analyze env).log ∧
      ((m.renumber ρ).analyze env').value.2.globals = (m.analyze env).value.2.globals.renumber ρ := by
  have hMirrors : (inside env).Mirrors ρ (inside env') := {
    types := hTypes
    position := by
      simp [inside, Env.updatePosition, hPosition, hPosition', Position.enterMain, Position.renumber]
    scope := by
      rw [scopeTable_of_program (scope_inside hPosition),
        scopeTable_of_program (scope_inside hPosition')]
      exact hGlobals
    keeps := keepsScope_inside hPosition
    keeps' := keepsScope_inside hPosition' }
  have hBody := Stmt.mirrored_analyzeBody false m.body hMirrors
  have hScope : ∀ {e : Env} (body : List Stmt), e.position = {} →
      (Stmt.analyzeBody false body (inside e)).value.2.scopeTable =
        (Stmt.analyzeBody false body (inside e)).value.2.globals := by
    intro e body he
    apply scopeTable_of_program
    rw [(Stmt.allots_analyzeBody false body (inside e)).position, scope_inside he]
  have hTable := hBody.env.scope
  rw [hScope _ hPosition, hScope _ hPosition'] at hTable
  rw [analyze_apply, analyze_apply]
  exact ⟨congrArg (fun body => { m with body }) hBody.value, hBody.log, hTable⟩

end MainBlock

namespace Program

/-- All bodies are typed as if each were alone, in the environment that the declarations left. -/
structure TypedApart (p : Program) (env : Env) (typed : Checked (Program × Env)) : Prop where
  classes : typed.value.1.classes = p.classes.map fun d => (d.analyzeBodies env).value.1
  main : typed.value.1.main = (p.main.analyze env).value.1
  log : typed.log = (p.classes.flatMap fun d => (d.analyzeBodies env).log) ++ (p.main.analyze env).log
  interface : SameInterface env.types typed.value.2.types
  globals : typed.value.2.globals = (p.main.analyze env).value.2.globals
  own : ∀ d ∈ p.classes, ∀ m ∈ d.routines,
    typed.value.2.types.methodInfo m = (d.analyzeBodies env).value.2.types.methodInfo m
  others : ∀ m, m ∉ p.classes.flatMap ClassDecl.routines →
    typed.value.2.types.methodInfo m = env.types.methodInfo m

/-- Each class and the main block are typed as if they were the only one. No two classes may share a routine. -/
theorem typedApart_analyzeBodies (p : Program) (hNodup : (p.classes.flatMap ClassDecl.routines).Nodup)
    (hReady : env.Ready {} (p.classes.flatMap ClassDecl.routines)) :
    p.TypedApart env (p.analyzeBodies env) := by
  have hLocal : ∀ d ∈ p.classes, Local {} d.routines d.analyzeBodies :=
    fun d hd => ClassDecl.local_analyzeBodies ((nodup_flatMap.mp hNodup).1 d hd)
  obtain ⟨hTouches, hApart⟩ := Local.apart p.classes hLocal hNodup hReady
  generalize hEnv : (p.classes.mapM ClassDecl.analyzeBodies env).value.2 = env₁ at hTouches
  have hPosition : env₁.position = {} := hTouches.position.trans hReady.1
  -- The main block cannot tell whether the classes have been typed before it.
  have hMain := p.main.copied_analyze (.of_interface hTouches.interface) hReady.1 hPosition
    (by rw [SymbolTable.renumber_same, hTouches.globals])
  simp only [MainBlock.renumber_same, SymbolTable.renumber_same] at hMain
  have hTypes := (p.main.extends_analyze hPosition).2.1
  have hApply : p.analyzeBodies env =
      ⟨(⟨(p.classes.mapM ClassDecl.analyzeBodies env).value.1, (p.main.analyze env₁).value.1⟩,
        (p.main.analyze env₁).value.2),
        (p.classes.mapM ClassDecl.analyzeBodies env).log ++ (p.main.analyze env₁).log⟩ := by
    apply Logged.ext <;> simp [analyzeBodies, hEnv]
  rw [hApply]
  refine ⟨hApart.value, hMain.1, ?_, hTypes ▸ hTouches.interface, hMain.2.2, ?_, ?_⟩
  · rw [hApart.log, hMain.2.1]
  · intro d hd m hm
    rw [hTypes, ← hEnv]
    exact hApart.own d hd m hm
  · intro m hm
    rw [hTypes]
    exact hTouches.others m hm

end Program
end TLang
