import TLang.Proofs.Ordering
import TLang.Proofs.Traversal

/-! What the typing of bodies may change. The bodies of a class add variables to its own routines and the
main block adds variables to the program, behind those that are there; nothing else changes. What becomes of
a class does not depend on the bodies that were typed before. Statements are told where they stand; if the
analysis kept this in its state, it would find it at the end of every body as it was at the start. -/
namespace TLang

open Registry Analysis List

/-- Where a statement stands: the number of loops around it, and whether it opens the body of a
constructor. -/
structure Standing where
  loops : Nat := 0
  first : Bool := false

/-- Analysis that keeps the standing of statements in its state. -/
abbrev Tracking := StateT Standing Analysis

/-- Whatever comes next does not open a body. -/
def Standing.behind (here : Standing) : Standing := { here with first := false }

mutual

/-- Type a statement that stands where the state says. -/
def Stmt.track : Stmt → Tracking Stmt
  | .block line body => do
    modify Standing.behind
    let body ← Stmt.trackAll body
    return .block line body
  | .branch line cond thenBranch elseBranch => do
    modify Standing.behind
    let cond ← condition .branch cond
    let thenBranch ← thenBranch.track
    let elseBranch ← Stmt.trackElse elseBranch
    return .branch line cond thenBranch elseBranch
  | .loop line cond body => do
    modify Standing.behind
    let cond ← condition .loop cond
    modify fun here => { here with loops := here.loops + 1 }
    let body ← body.track
    modify fun here => { here with loops := here.loops - 1 }
    return .loop line cond body
  | s => do
    let here ← getModify Standing.behind
    s.analyze (0 < here.loops) here.first

def Stmt.trackElse : Option Stmt → Tracking (Option Stmt)
  | none => pure none
  | some s => do
    let s ← s.track
    return some s

def Stmt.trackAll : List Stmt → Tracking (List Stmt)
  | [] => pure []
  | s :: rest => do
    let s ← s.track
    let rest ← Stmt.trackAll rest
    return s :: rest

end

/-- Type the body of a declared method. -/
def MethodDecl.track (d : MethodDecl) : Tracking MethodDecl :=
  match d.resolved with
  | none => pure d
  | some id => do
    modifyThe Env (·.updatePosition (·.enterMethod id))
    set { first := d.kind = .constructor : Standing }
    let body ← Stmt.trackAll d.fullBody
    modify Standing.behind
    modifyThe Env (·.updatePosition (·.leaveMethod))
    return { d with body }

def Member.track : Member → Tracking Member
  | field d => pure (field d)
  | method d => do
    let d ← d.track
    return method d

def ClassDecl.track (d : ClassDecl) : Tracking ClassDecl :=
  match d.resolved with
  | none => pure d
  | some id => do
    modifyThe Env (·.updatePosition (·.enterClass id))
    let members ← d.members.mapM Member.track
    modifyThe Env (·.updatePosition (·.leaveClass))
    return { d with members }

def MainBlock.track (m : MainBlock) : Tracking MainBlock := do
  modifyThe Env (·.updatePosition (·.enterMain))
  modify fun here => { here with loops := 0 }
  let body ← Stmt.trackAll m.body
  modifyThe Env (·.updatePosition (·.leaveMain))
  return { m with body }

namespace Tracking

variable {α β : Type} {x : Tracking α} {y : Analysis α} {here there next : Standing}

/-- Entered with one standing, the analysis does what another one does and leaves with a certain standing. -/
def Leads (here there : Standing) (x : Tracking α) (y : Analysis α) : Prop := x here = (·, there) <$> y

theorem Leads.bind {f : α → Tracking β} {g : α → Analysis β} (hx : Leads here next x y)
    (hf : ∀ a, Leads next there (f a) (g a)) : Leads here there (x >>= f) (y >>= g) := by
  have hBoth : (x >>= f) here = x here >>= fun r => f r.1 r.2 := rfl
  rw [Leads, hBoth, hx, bind_map_left, map_bind]
  exact bind_congr hf

theorem Leads.pure (a : α) : Leads here here (Pure.pure a) (Pure.pure a) := rfl

theorem Leads.lift (y : Analysis α) : Leads here here (liftM y) y := rfl

/-- A step that only changes the standing. -/
theorem Leads.step {move : Tracking Unit} {f : Unit → Tracking α} (hMove : move here = Pure.pure ((), next))
    (h : Leads next there (f ()) y) : Leads here there (move >>= f) y := by
  have hBoth : (move >>= f) here = move here >>= fun r => f r.1 r.2 := rfl
  rw [Leads, hBoth, hMove, pure_bind]
  exact h

theorem Leads.mapM {f : α → Tracking β} {g : α → Analysis β} (h : ∀ a, Leads here here (f a) (g a)) :
    (as : List α) → Leads here here (as.mapM f) (as.mapM g)
  | [] => rfl
  | a :: as => by
    rw [mapM_cons, mapM_cons]
    exact (h a).bind fun _ => (Leads.mapM h as).bind fun _ => rfl

end Tracking

open Tracking

namespace Stmt

mutual

/-- A statement is typed as if it had been told where it stands, and the standing is restored. -/
theorem leads_track : (s : Stmt) → (here : Standing) →
    Leads here here.behind s.track (s.analyze (0 < here.loops) here.first)
  | .expr _ _, _ | .declare _ _ _, _ | .print _ _, _ | .ret _ _ _, _ | .breakLoop _, _ | .continueLoop _, _
  | .delete _ _, _ | .construct _ _ _ _, _ | .empty _, _ => rfl
  | .block _ body, here => .step rfl ((leads_trackAll body here.loops).bind fun _ => .pure _)
  | .branch _ _ thenBranch elseBranch, here =>
    .step rfl (.bind (.lift _) fun _ => (leads_track thenBranch ⟨here.loops, false⟩).bind fun _ =>
      (leads_trackElse elseBranch here.loops).bind fun _ => .pure _)
  | .loop _ _ body, here =>
    .step rfl (.bind (.lift _) fun _ => .step rfl ((leads_track body ⟨here.loops + 1, false⟩).bind fun _ =>
      .step rfl (.pure _)))

theorem leads_trackElse : (s : Option Stmt) → (loops : Nat) →
    Leads ⟨loops, false⟩ ⟨loops, false⟩ (trackElse s) (analyzeElse (0 < loops) s)
  | none, _ => rfl
  | some s, loops => (leads_track s ⟨loops, false⟩).bind fun _ => rfl

theorem leads_trackAll : (ss : List Stmt) → (loops : Nat) →
    Leads ⟨loops, false⟩ ⟨loops, false⟩ (trackAll ss) (analyzeAll (0 < loops) ss)
  | [], _ => rfl
  | s :: rest, loops => (leads_track s ⟨loops, false⟩).bind fun _ => (leads_trackAll rest loops).bind fun _ => rfl

end

theorem leads_trackBody : (ss : List Stmt) → (first : Bool) →
    Leads ⟨0, first⟩ ⟨0, ss.isEmpty && first⟩ (trackAll ss) (analyzeBody first ss)
  | [], _ => rfl
  | s :: rest, first => (leads_track s ⟨0, first⟩).bind fun _ => (leads_trackAll rest 0).bind fun _ => .pure _

end Stmt

theorem MethodDecl.leads_track (d : MethodDecl) : Leads {} {} d.track d.analyzeBody := by
  rw [track, analyzeBody]
  cases d.resolved with
  | none => exact .pure d
  | some id =>
    refine .bind (.lift _) fun _ => .step rfl ?_
    exact (Stmt.leads_trackBody _ _).bind fun _ => .step rfl (.bind (.lift _) fun _ => .pure _)

theorem Member.leads_track : (member : Member) → Leads {} {} member.track member.analyzeBody
  | .field _ => .pure _
  | .method d => d.leads_track.bind fun _ => .pure _

theorem ClassDecl.leads_track (d : ClassDecl) : Leads {} {} d.track d.analyzeBodies := by
  rw [track, analyzeBodies]
  cases d.resolved with
  | none => exact .pure d
  | some id =>
    refine .bind (.lift _) fun _ => (Leads.mapM Member.leads_track d.members).bind fun _ => ?_
    exact .bind (.lift _) fun _ => .pure _

theorem MainBlock.leads_track (m : MainBlock) : Leads {} {} m.track m.analyze := by
  have hBody := Stmt.leads_trackBody m.body false
  rw [Bool.and_false] at hBody
  exact .bind (.lift _) fun _ => .step rfl (hBody.bind fun _ => .bind (.lift _) fun _ => .pure _)

/-- What an analysis does to a context. -/
def Context.perform {α : Type} (x : Analysis α) (c : Context) : Context :=
  { env := (x c.env).value.2, diagnostics := c.diagnostics ++ (x c.env).log }

/-- What comes of typing the bodies of a class. Only its own routines change, by more variables, and all is
as if its bodies were typed first. -/
structure ClassDecl.TypedWithin (d : ClassDecl) (outset : Env) (start : Context) : Prop where
  touches : start.env.Touches d.routines (start.perform d.analyzeBodies).env
  diagnostics : start.diagnostics <+: (start.perform d.analyzeBodies).diagnostics
  position : (start.perform d.analyzeBodies).env.position = {}
  standing : Leads {} {} d.track d.analyzeBodies
  value : (d.analyzeBodies start.env).value.1 = (d.analyzeBodies outset).value.1
  log : (d.analyzeBodies start.env).log = (d.analyzeBodies outset).log
  own : ∀ m ∈ d.routines, (start.perform d.analyzeBodies).env.types.methodInfo m =
    (d.analyzeBodies outset).value.2.types.methodInfo m

/-- What comes of typing the main block. Only the variables of the program change, by more of them. -/
structure MainBlock.TypedWithin (m : MainBlock) (start : Context) : Prop where
  types : (start.perform m.analyze).env.types = start.env.types
  globals : start.env.globals.Extends (start.perform m.analyze).env.globals
  diagnostics : start.diagnostics <+: (start.perform m.analyze).diagnostics
  position : (start.perform m.analyze).env.position = {}
  standing : Leads {} {} m.track m.analyze

namespace Program

variable {p : Program} {others : List ClassDecl}

/-- The context once all declarations are made and the bodies of some classes are typed. -/
def midway (p : Program) (others : List ClassDecl) : Context :=
  Context.perform (others.mapM ClassDecl.analyzeBodies)
    { env := p.outset, diagnostics := (declareClasses p.classes {}).log }

theorem ready_of_subperm (hFresh : p.isFresh = true) (h : others.Subperm p.settledClasses) :
    (others.flatMap ClassDecl.routines).Nodup ∧ p.outset.Ready {} (others.flatMap ClassDecl.routines) := by
  obtain ⟨hNodup, hReady⟩ := ready_outset hFresh
  obtain ⟨some, hPerm, hSublist⟩ := h
  have hRoutines := hPerm.flatMap_right ClassDecl.routines
  have hAmong := hSublist.flatMap ClassDecl.routines
  exact ⟨hRoutines.nodup_iff.mp (hNodup.sublist hAmong),
    hReady.mono fun _ hm => hAmong.subset (hRoutines.mem_iff.mpr hm)⟩

theorem touches_midway (hFresh : p.isFresh = true) (h : others.Subperm p.settledClasses) :
    p.outset.Touches (others.flatMap ClassDecl.routines) (p.midway others).env := by
  obtain ⟨hNodup, hReady⟩ := ready_of_subperm hFresh h
  have hLocal : ∀ d ∈ others, Local {} d.routines d.analyzeBodies :=
    fun d hd => ClassDecl.local_analyzeBodies ((nodup_flatMap.mp hNodup).1 d hd)
  exact (Local.apart others hLocal hNodup hReady).1

/-- The typing of bodies is confined to their own scopes, whichever bodies were typed before, and leaves all
that was declared as it is. Reports are kept too, and those of a class do not depend on other bodies. -/
theorem bodies_confined (p : Program) (hFresh : p.isFresh = true) :
    (∀ d others, (d :: others).Subperm p.settledClasses → d.TypedWithin p.outset (p.midway others)) ∧
      (∀ others, others.Subperm p.settledClasses → p.main.TypedWithin (p.midway others)) ∧
      (Context.analyze {} p).2 = (p.midway p.settledClasses).perform p.main.analyze ∧
      SameInterface p.outset.types (Context.analyze {} p).2.env.types := by
  refine ⟨fun d others hSome => ?_, fun others hSome => ?_, ?_, ?_⟩
  · have hTouches := touches_midway hFresh ((subperm_cons_self).trans hSome)
    obtain ⟨hNodup, hReady⟩ := ready_of_subperm hFresh hSome
    rw [flatMap_cons] at hNodup hReady
    obtain ⟨hOwn, -, hApart⟩ := nodup_append'.mp hNodup
    have hLocal := ClassDecl.local_analyzeBodies hOwn
    have hStart := hReady.mono (subset_append_left _ _)
    have hAgrees := hTouches.agrees hApart.symm
    have hNow := hTouches.ready hStart
    have hChange := hLocal.touches _ hNow
    exact ⟨hChange, prefix_append _ _, hChange.position.trans hNow.1, d.leads_track,
      hLocal.value hStart hAgrees, hLocal.log hStart hAgrees, hLocal.own hStart hAgrees⟩
  · have hPosition := (touches_midway hFresh hSome).position.trans (ready_outset hFresh).2.1
    obtain ⟨hLeft, hTypes, hGlobals⟩ := p.main.extends_analyze hPosition
    exact ⟨hTypes, hGlobals, prefix_append _ _, hLeft, p.main.leads_track⟩
  · rw [analyze_eq, diagnostics, env]
    simp [Context.perform, midway, analyze, analyzeBodies, settledClasses, outset]
  · rw [analyze_eq]
    exact sameInterface_env hFresh

theorem bodies_confined_scattered : scattered.isFresh = true ∧
    ∃ d others, scattered.settledClasses = d :: others ∧ others.length = 3 ∧
      (∃ m ∈ d.routines, (((scattered.midway others).perform d.analyzeBodies).env.types.methodInfo m).locals.names =
        [("t", .ofClass ⟨4⟩)]) ∧
      d.TypedWithin scattered.outset (scattered.midway others) ∧
      scattered.main.TypedWithin (scattered.midway (d :: others)) := by
  have hFresh : scattered.isFresh = true := by decide
  obtain ⟨hClasses, hMain, -⟩ := bodies_confined scattered hFresh
  have hRun : ∃ d ∈ scattered.settledClasses.take 1, (scattered.settledClasses.drop 1).length = 3 ∧
      ∃ m ∈ d.routines, (((scattered.midway (scattered.settledClasses.drop 1)).perform
        d.analyzeBodies).env.types.methodInfo m).locals.names = [("t", .ofClass ⟨4⟩)] := by
    decide +kernel
  generalize scattered.settledClasses = classes at hRun hClasses hMain
  obtain ⟨d, hd, hLength, hLocals⟩ := hRun
  cases classes with
  | nil => cases hd
  | cons first others =>
    obtain rfl : d = first := mem_singleton.mp hd
    exact ⟨hFresh, d, others, rfl, hLength, hLocals, hClasses d others (.refl _), hMain _ (.refl _)⟩

end Program
end TLang
