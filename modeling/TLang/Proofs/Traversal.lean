import TLang.Proofs.Consistency
import TLang.Proofs.Decoration

/-! How bodies are traversed. A body is a sequence of events: an expression uses names, a declaration adds
one. Blocks and branches leave no trace in it. The environment in which an expression is typed is that of
the start of the body, changed by the declarations that come before the expression. -/
namespace TLang

open Registry Analysis List

variable {d : ClassDecl} {c : ClassId} {m : MethodId} {start : Env}

variable {env : Env} {s : MethodStart}

namespace Env

/-- The expressions that are used, each with the environment in which it is. -/
def uses (env : Env) : List ScopeEvent → List (Expr × Env)
  | [] => []
  | .use e :: events => (e, env) :: env.uses events
  | .declare line type name :: events => (env.step (.declare line type name)).uses events

theorem uses_append (env : Env) (events more : List ScopeEvent) :
    env.uses (events ++ more) = env.uses events ++ (env.after events).uses more := by
  induction events generalizing env with
  | nil => rfl
  | cons event events ih =>
    cases event with
    | use e => exact congrArg ((e, env) :: ·) (ih env)
    | declare line type name => exact ih _

end Env

/-! Where bodies start. -/

/-- In a pass whose steps only see and change their own routines, whoever has a turn finds these as they
were at the start. -/
theorem Analysis.Local.turn {α β : Type} {p : Position} {f : α → Analysis β} {ids : α → List MethodId}
    {as : List α} (hLocal : ∀ a ∈ as, Local p (ids a) (f a)) (hNodup : (as.flatMap ids).Nodup)
    (hReady : env.Ready p (as.flatMap ids)) {t : α × Env} (ht : t ∈ turns f as env) :
    ∃ others, env.Touches others t.2 ∧ t.2.Ready p (ids t.1) ∧ ∀ m ∈ ids t.1, m ∉ others := by
  obtain ⟨before, rest, rfl, hEnv, -⟩ := exists_split_of_mem_turns ht
  rw [flatMap_append, flatMap_cons] at hNodup hReady
  have hTouches := (Local.apart before (fun a ha => hLocal a (mem_append_left _ ha))
    (nodup_append.mp hNodup).1 (hReady.mono (subset_append_left _ _))).1
  rw [← hEnv] at hTouches
  have hOwn := hReady.mono (subset_append_of_subset_right _ (subset_append_left (ids t.1) _))
  refine ⟨_, hTouches, hTouches.ready hOwn, ?_⟩
  intro m hm hBefore
  exact (nodup_append'.mp hNodup).2.2 hBefore (mem_append_left _ hm)

/-- A method of a class and the environment in which the typing of its body starts. -/
structure MethodStart where
  cls : ClassId
  decl : MethodDecl
  method : MethodId
  env : Env

namespace MethodStart

/-- The typing of the body. -/
def typing (s : MethodStart) : Checked (List Stmt × Env) :=
  Stmt.analyzeBody (s.decl.kind = .constructor) s.decl.fullBody s.env

/-- The method with its body typed. -/
def typed (s : MethodStart) : MethodDecl := { s.decl with body := s.typing.value.1 }

end MethodStart

/-- The body of a member whose turn has come in a class. -/
def Member.starts (c : ClassId) : Member × Env → List MethodStart
  | (.field _, _) => []
  | (.method e, env) => e.resolved.toList.map fun m => ⟨c, e, m, MethodDecl.inside m env⟩

/-- The bodies of a class whose turn has come. -/
def ClassDecl.starts : ClassDecl × Env → List MethodStart
  | (d, env) => d.resolved.toList.flatMap fun c =>
    (turns Member.analyzeBody d.members (ClassDecl.inside c env)).flatMap (Member.starts c)

theorem Member.log_starts (c : ClassId) (t : Member × Env) :
    (Member.analyzeBody t.1 t.2).log = (Member.starts c t).flatMap (·.typing.log) := by
  obtain ⟨member, env⟩ := t
  cases member with
  | field d => rfl
  | method e =>
    have hLog : (Member.analyzeBody (.method e) env).log = (e.analyzeBody env).log := append_nil _
    rw [hLog, Member.starts]
    cases hResolved : e.resolved with
    | none =>
      rw [MethodDecl.analyzeBody, hResolved]
      rfl
    | some m =>
      rw [MethodDecl.analyzeBody_apply hResolved]
      exact (append_nil _).symm

theorem ClassDecl.log_starts (t : ClassDecl × Env) :
    (t.1.analyzeBodies t.2).log = (ClassDecl.starts t).flatMap (·.typing.log) := by
  obtain ⟨d, env⟩ := t
  rw [ClassDecl.starts]
  cases hResolved : d.resolved with
  | none =>
    rw [ClassDecl.analyzeBodies, hResolved]
    rfl
  | some c =>
    rw [ClassDecl.analyzeBodies_apply hResolved]
    refine (log_mapM Member.analyzeBody d.members (ClassDecl.inside c env)).trans ?_
    rw [Option.toList_some, flatMap_singleton, flatMap_assoc]
    exact flatMap_congr fun t _ => Member.log_starts c t

namespace Program

/-- The bodies of methods that are typed, in order. -/
def methodStarts (p : Program) : List MethodStart :=
  (turns ClassDecl.analyzeBodies p.settledClasses p.outset).flatMap ClassDecl.starts

/-- The environment in which the typing of the main block starts. -/
def mainStart (p : Program) : Env :=
  MainBlock.inside (p.settledClasses.mapM ClassDecl.analyzeBodies p.outset).value.2

/-- The typing of the main block. -/
def mainTyping (p : Program) : Checked (List Stmt × Env) := Stmt.analyzeBody false p.main.body p.mainStart

/-- The body is typed, and the environment is that at its start. -/
inductive Enters (p : Program) : List Stmt → Env → Prop where
  | method {s : MethodStart} (h : s ∈ p.methodStarts) : Enters p s.decl.fullBody s.env
  | main : Enters p p.main.body p.mainStart

/-- The environment is reached while bodies are typed. -/
def Reaches (p : Program) (env : Env) : Prop :=
  ∃ body start before, p.Enters body start ∧ before <+: Stmt.eventsOfAll body ∧ env = start.after before

/-- A method starts with its parameters and without variables. -/
structure StartsMethod (p : Program) (s : MethodStart) : Prop where
  position : s.env.position = { inClass := some s.cls, inMethod := some s.method }
  interface : SameInterface p.outset.types s.env.types
  registered : s.cls.index < s.env.types.classes.length
  bounded : s.method.index < s.env.types.methods.length
  info : s.env.types.methodInfo s.method = p.outset.routineInfo s.cls s.decl

/-- The main block starts without variables. -/
structure StartsMain (p : Program) (start : Env) : Prop where
  position : start.position = { inMain := true }
  interface : SameInterface p.outset.types start.types
  globals : start.globals = {}

variable {p : Program}

theorem globals_outset (hFresh : p.isFresh = true) : p.outset.globals = {} :=
  (established_declareClasses fun _ hd => resolved_of_isFresh hFresh hd).globals

/-- All routines are ready to be typed, each for itself. -/
theorem ready_outset (hFresh : p.isFresh = true) : (p.settledClasses.flatMap ClassDecl.routines).Nodup ∧
      p.outset.Ready {} (p.settledClasses.flatMap ClassDecl.routines) := by
  have hEstablished := established_declareClasses fun d hd => resolved_of_isFresh hFresh hd
  exact ⟨hEstablished.apart.nodup, hEstablished.position, hEstablished.apart.bounded⟩

theorem local_settledClasses (hNodup : (p.settledClasses.flatMap ClassDecl.routines).Nodup) :
    ∀ d ∈ p.settledClasses, Local {} d.routines d.analyzeBodies :=
  fun d hd => ClassDecl.local_analyzeBodies ((nodup_flatMap.mp hNodup).1 d hd)

/-- A method whose body is typed is a member of a class, and both have had their turn. -/
theorem exists_turns_of_mem_methodStarts (h : s ∈ p.methodStarts) :
    ∃ d env env', (d, env) ∈ turns ClassDecl.analyzeBodies p.settledClasses p.outset ∧
      d.resolved = some s.cls ∧
      (.method s.decl, env') ∈ turns Member.analyzeBody d.members (ClassDecl.inside s.cls env) ∧
      s.decl.resolved = some s.method ∧ s.env = MethodDecl.inside s.method env' := by
  obtain ⟨⟨d, env⟩, hClass, h⟩ := mem_flatMap.mp h
  obtain ⟨c, hc, h⟩ := mem_flatMap.mp h
  obtain ⟨⟨member, env'⟩, hMember, h⟩ := mem_flatMap.mp h
  cases member with
  | field f => cases h
  | method e =>
    obtain ⟨m, hm, rfl⟩ := mem_map.mp h
    exact ⟨d, env, env', hClass, Option.mem_toList.mp hc, hMember, Option.mem_toList.mp hm, rfl⟩

theorem mem_methodStarts {env' : Env} {e : MethodDecl}
    (hClass : (d, env) ∈ turns ClassDecl.analyzeBodies p.settledClasses p.outset) (hc : d.resolved = some c)
    (hMember : (.method e, env') ∈ turns Member.analyzeBody d.members (ClassDecl.inside c env))
    (hm : e.resolved = some m) : ⟨c, e, m, MethodDecl.inside m env'⟩ ∈ p.methodStarts := by
  refine mem_flatMap.mpr ⟨_, hClass, mem_flatMap.mpr ⟨c, Option.mem_toList.mpr hc, ?_⟩⟩
  exact mem_flatMap.mpr ⟨_, hMember, mem_map.mpr ⟨m, Option.mem_toList.mpr hm, rfl⟩⟩

theorem startsMethod (hFresh : p.isFresh = true) (h : s ∈ p.methodStarts) : p.StartsMethod s := by
  obtain ⟨d, env, env', hClass, hc, hMember, hm, hEnv⟩ := exists_turns_of_mem_methodStarts h
  obtain ⟨hNodup, hReady⟩ := ready_outset hFresh
  obtain ⟨others, hTouches, hReady', hApart⟩ :=
    Local.turn (local_settledClasses hNodup) hNodup hReady hClass
  have hd := fst_mem_of_mem_turns hClass
  have hOwn : d.routines.Nodup := (nodup_flatMap.mp hNodup).1 d hd
  have hInside := ClassDecl.ready_inside s.cls hReady'
  rw [ClassDecl.routines_eq_flatMap] at hOwn hInside
  obtain ⟨others', hTouches', hReady'', hApart'⟩ :=
    Local.turn (fun member _ => member.local_analyzeBody s.cls) hOwn hInside hMember
  have hRoutine : s.method ∈ (Member.method s.decl).routine?.toList := by simp [Member.routine?, hm]
  have he := fst_mem_of_mem_turns hMember
  have hIn : s.method ∈ d.routines := mem_filterMap.mpr ⟨_, he, hm⟩
  have hEntered := (settles hFresh).ledger.entered d hd s.cls hc
  obtain ⟨-, hInfo⟩ := hEntered.records s.decl he s.method hm
  have hPosition : env'.position = { inClass := some s.cls } := hReady''.1
  have hInterface : SameInterface p.outset.types env'.types := hTouches.interface.trans hTouches'.interface
  have hFirst := hTouches.others s.method (hApart s.method hIn)
  have hSecond := hTouches'.others s.method (hApart' s.method hRoutine)
  constructor
  all_goals rw [hEnv]
  · simp [MethodDecl.inside, Env.updatePosition, hPosition, Position.enterMethod]
  · exact hInterface
  · exact hInterface.classes ▸ hEntered.registered
  · exact hReady''.2 s.method hRoutine
  · exact hSecond.trans (hFirst.trans hInfo)

theorem startsMain (hFresh : p.isFresh = true) : p.StartsMain p.mainStart := by
  obtain ⟨hNodup, hReady⟩ := ready_outset hFresh
  have hTouches := (Local.apart p.settledClasses (local_settledClasses hNodup) hNodup hReady).1
  have hPosition := hTouches.position.trans hReady.1
  rw [mainStart]
  generalize (p.settledClasses.mapM ClassDecl.analyzeBodies p.outset).value.2 = env at hTouches hPosition ⊢
  refine ⟨?_, hTouches.interface, hTouches.globals.trans (globals_outset hFresh)⟩
  simp [MainBlock.inside, Env.updatePosition, hPosition, Position.enterMain]

theorem StartsMethod.scope (h : p.StartsMethod s) : s.env.position.scope = .method s.method := by
  rw [h.position]
  rfl

theorem StartsMethod.keepsScope (h : p.StartsMethod s) : s.env.KeepsScope := by
  rw [Env.KeepsScope, h.scope]
  exact h.bounded

theorem StartsMain.scope (h : p.StartsMain start) : start.position.scope = .program := by
  rw [h.position]
  rfl

theorem StartsMain.keepsScope (h : p.StartsMain start) : start.KeepsScope := by
  rw [Env.KeepsScope, h.scope]
  trivial

/-! What becomes of the bodies. -/

theorem analyzeBodies_outset (p : Program) : analyzeBodies ⟨p.settledClasses, p.main⟩ p.outset =
      let classes := p.settledClasses.mapM ClassDecl.analyzeBodies p.outset
      let main := p.main.analyze classes.value.2
      ⟨(⟨classes.value.1, main.value.1⟩, main.value.2), classes.log ++ main.log⟩ := by
  apply Logged.ext <;> simp [analyzeBodies]

/-- Each method of the analyzed program that has a number is one whose body was typed. -/
theorem exists_methodStart (hd : d ∈ p.analyzed.classes) (hc : d.resolved = some c) {f : MethodDecl}
    (hf : .method f ∈ d.members) (hm : f.resolved = some m) :
    ∃ s ∈ p.methodStarts, s.cls = c ∧ s.method = m ∧ s.typed = f := by
  have hClasses : p.analyzed.classes = (turns ClassDecl.analyzeBodies p.settledClasses p.outset).map
      fun t => (t.1.analyzeBodies t.2).value.1 := by
    rw [← value_mapM]
    exact congrArg (fun x : Checked (Program × Env) => x.value.1.classes) p.analyzeBodies_outset
  rw [hClasses] at hd
  obtain ⟨⟨source, env⟩, hClass, rfl⟩ := mem_map.mp hd
  have hSource : source.resolved = some c :=
    (congrArg Prod.fst (source.roster_analyzeBodies env)).symm.trans hc
  have hMembers : (source.analyzeBodies env).value.1.members =
      (turns Member.analyzeBody source.members (ClassDecl.inside c env)).map fun t =>
        (t.1.analyzeBody t.2).value.1 := by
    rw [ClassDecl.analyzeBodies_apply hSource, ← value_mapM]
  obtain ⟨⟨member, env'⟩, hMember, hTyped⟩ := mem_map.mp (hMembers ▸ hf)
  cases member with
  | field field => cases hTyped
  | method e =>
    have he : e.resolved = some m := by
      have hSame := Member.routine?_analyzeBody (.method e) env'
      rw [show (Member.analyzeBody (.method e) env').value.1 = .method f from hTyped] at hSame
      exact hSame.symm.trans hm
    have hTyped : (e.analyzeBody env').value.1 = f := Member.method.inj hTyped
    rw [MethodDecl.analyzeBody_apply he] at hTyped
    exact ⟨_, mem_methodStarts hClass hSource hMember he, rfl, rfl, hTyped⟩

theorem analyzed_main_body (p : Program) : p.analyzed.main.body = p.mainTyping.value.1 := by
  have hMain : p.analyzed.main =
      (p.main.analyze (p.settledClasses.mapM ClassDecl.analyzeBodies p.outset).value.2).value.1 :=
    congrArg (fun x : Checked (Program × Env) => x.value.1.main) p.analyzeBodies_outset
  rw [hMain, MainBlock.analyze_apply]
  rfl

/-- What is reported comes from the declarations, from the bodies of methods, and from the main block. -/
theorem diagnostics_bodies (p : Program) : p.diagnostics = (declareClasses p.classes {}).log ++
    (p.methodStarts.flatMap (·.typing.log) ++ p.mainTyping.log) := by
  have hBodies : (p.settledClasses.mapM ClassDecl.analyzeBodies p.outset).log =
      p.methodStarts.flatMap (·.typing.log) := by
    rw [log_mapM, methodStarts, flatMap_assoc]
    exact flatMap_congr fun t _ => ClassDecl.log_starts t
  have hMain : (p.main.analyze (p.settledClasses.mapM ClassDecl.analyzeBodies p.outset).value.2).log =
      p.mainTyping.log := by
    rw [MainBlock.analyze_apply]
    rfl
  have hLog : (analyzeBodies ⟨p.settledClasses, p.main⟩ p.outset).log =
      p.methodStarts.flatMap (·.typing.log) ++ p.mainTyping.log := by
    rw [analyzeBodies_outset, ← hBodies, ← hMain]
  exact congrArg ((declareClasses p.classes {}).log ++ ·) hLog

/-- Wherever bodies are typed, declarations are recorded, and what was declared before can be seen. -/
theorem Reaches.interface (h : p.Reaches env) (hFresh : p.isFresh = true) :
    env.KeepsScope ∧ SameInterface p.outset.types env.types := by
  obtain ⟨body, start, before, hEnters, -, rfl⟩ := h
  have hStart : start.KeepsScope ∧ SameInterface p.outset.types start.types := by
    cases hEnters with
    | method h => exact ⟨(startsMethod hFresh h).keepsScope, (startsMethod hFresh h).interface⟩
    | main => exact ⟨(startsMain hFresh).keepsScope, (startsMain hFresh).interface⟩
  have hAllots := start.allots_after before
  exact ⟨hAllots.keepsScope hStart.1, hStart.2.trans (hAllots.interface hStart.1)⟩

end Program
end TLang
