import TLang.Proofs.Headings
import TLang.Proofs.Outcome

/-! Annotations do not matter. A tree may carry the annotations of an earlier analysis, or any others:
analysis computes all of them anew, and puts reads of cells where they belong. Only widenings are taken
as they are found. -/
namespace TLang

open Analysis

mutual

/-- An expression without its annotations. Widenings, with their types, are no annotations. -/
def Expr.strip : Expr → Expr
  | .int mark value => .int mark.erase value
  | .null mark => .null mark.erase
  | .this mark => .this mark.erase
  | .var mark name _ => .var mark.erase name none
  | .binary mark op left right => .binary mark.erase op left.strip right.strip
  | .unary mark op operand => .unary mark.erase op operand.strip
  | .assign mark target value => .assign mark.erase target.strip value.strip
  | .field mark object name _ => .field mark.erase object.strip name none
  | .call mark receiver name args _ _ =>
    .call mark.erase (Expr.stripReceiver receiver) name (Expr.stripAll args) none none
  | .new mark className args _ _ => .new mark.erase className (Expr.stripAll args) none none
  | .cast mark className operand _ => .cast mark.erase className operand.strip none
  | .deref _ address => address.strip
  | .convert mark operand => .convert mark operand.strip

def Expr.stripReceiver : Receiver Expr → Receiver Expr
  | .implicit => .implicit
  | .super => .super
  | .object e => .object e.strip

def Expr.stripAll : List Expr → List Expr
  | [] => []
  | e :: rest => e.strip :: Expr.stripAll rest

end

mutual

def Stmt.strip : Stmt → Stmt
  | .expr line e => .expr line e.strip
  | .declare line type names => .declare line type names
  | .print line e => .print line e.strip
  | .block line body => .block line (Stmt.stripAll body)
  | .branch line cond thenBranch elseBranch =>
    .branch line cond.strip thenBranch.strip (Stmt.stripElse elseBranch)
  | .loop line cond body => .loop line cond.strip body.strip
  | .ret line value _ => .ret line (value.map Expr.strip) none
  | .breakLoop line => .breakLoop line
  | .continueLoop line => .continueLoop line
  | .delete line target => .delete line target.strip
  | .construct line delegate args _ => .construct line delegate (Expr.stripAll args) none
  | .empty line => .empty line

def Stmt.stripElse : Option Stmt → Option Stmt
  | none => none
  | some s => some s.strip

def Stmt.stripAll : List Stmt → List Stmt
  | [] => []
  | s :: rest => s.strip :: Stmt.stripAll rest

end

/-- A program without the annotations of its expressions and statements. -/
def Program.strip (p : Program) : Program where
  classes := p.classes.map (ClassDecl.mapBodies Stmt.stripAll)
  main := ⟨p.main.line, Stmt.stripAll p.main.body⟩

@[simp] theorem Mark.line_erase (m : Mark) : m.erase.line = m.line := rfl

namespace Expr

variable (env : Env)

mutual

/-- Types that a tree carries already are not looked at when it is typed. -/
theorem analyze_strip : (e : Expr) → e.strip.analyze env = e.analyze env
  | .int _ _ | .null _ | .this _ | .var _ _ _ => rfl
  | .binary _ _ left right | .assign _ left right => by
    simp only [strip, analyze, analyze_strip left, analyze_strip right, Mark.line_erase]
  | .unary _ _ operand | .field _ operand _ _ | .cast _ _ operand _ | .convert _ operand => by
    simp only [strip, analyze, analyze_strip operand, Mark.line_erase]
  | .call _ receiver _ args _ _ => by
    simp only [strip, analyze, analyzeReceiver_strip receiver, analyzeArgs_strip args, Mark.line_erase]
  | .new _ _ args _ _ => by
    simp only [strip, analyze, analyzeArgs_strip args, Mark.line_erase]
  | .deref _ address => by
    rw [strip, analyze, analyze_strip address]

theorem analyzeReceiver_strip : (receiver : Receiver Expr) →
    analyzeReceiver env (stripReceiver receiver) = analyzeReceiver env receiver
  | .implicit | .super => rfl
  | .object e => by rw [stripReceiver, analyzeReceiver, analyzeReceiver, analyze_strip e]

theorem analyzeArgs_strip : (args : List Expr) → analyzeArgs env (stripAll args) = analyzeArgs env args
  | [] => rfl
  | e :: rest => by
    simp only [stripAll, analyzeArgs, analyze_strip e, analyzeArgs_strip rest]

end

end Expr

namespace Stmt

mutual

/-- Nor are those in a statement. The names of variables and the lines are still there to be looked at. -/
theorem analyze_strip (inLoop first : Bool) : (s : Stmt) → s.strip.analyze inLoop first =
    s.analyze inLoop first
  | .expr _ e | .print _ e | .delete _ e => by
    simp only [strip, analyze, Expr.analyze_strip]
  | .declare _ _ _ | .breakLoop _ | .continueLoop _ | .empty _ | .ret _ none _ => rfl
  | .block _ body => by
    simp only [strip, analyze, analyzeAll_strip inLoop body]
  | .branch _ cond thenBranch elseBranch => by
    simp only [strip, analyze, condition, Expr.analyze_strip, analyze_strip inLoop false thenBranch,
      analyzeElse_strip inLoop elseBranch]
  | .loop _ cond body => by
    simp only [strip, analyze, condition, Expr.analyze_strip, analyze_strip true false body]
  | .ret _ (some e) _ => by
    simp only [strip, analyze, Option.map_some, Option.mapM_some, Expr.analyze_strip]
  | .construct _ _ args _ => by
    simp only [strip, analyze, Expr.analyzeArgs_strip]

theorem analyzeElse_strip (inLoop : Bool) : (s : Option Stmt) →
    analyzeElse inLoop (stripElse s) = analyzeElse inLoop s
  | none => rfl
  | some s => by simp only [stripElse, analyzeElse, analyze_strip inLoop false s]

theorem analyzeAll_strip (inLoop : Bool) : (body : List Stmt) →
    analyzeAll inLoop (stripAll body) = analyzeAll inLoop body
  | [] => rfl
  | s :: rest => by
    simp only [stripAll, analyzeAll, analyze_strip inLoop false s, analyzeAll_strip inLoop rest]

end

theorem analyzeBody_strip (isConstructor : Bool) (body : List Stmt) :
    analyzeBody isConstructor (stripAll body) = analyzeBody isConstructor body := by
  cases body with
  | nil => rfl
  | cons s rest => simp only [stripAll, analyzeBody, analyze_strip, analyzeAll_strip]

theorem keepsDefaults_stripAll : KeepsDefaults stripAll := ⟨rfl, fun _ => rfl⟩

end Stmt

/-! Trees of declarations. What is not registered is not analyzed, so it keeps its annotations. -/

namespace MethodDecl

/-- The method without its annotations, unless analysis has put them there. -/
def stripUnresolved (d : MethodDecl) : MethodDecl :=
  if d.resolved.isSome then d else d.mapBody Stmt.stripAll

theorem fullBody_strip (d : MethodDecl) :
    (d.mapBody Stmt.stripAll).fullBody = Stmt.stripAll d.fullBody := by
  have hHead : (Stmt.stripAll d.body).head?.any Stmt.isConstruct = d.body.head?.any Stmt.isConstruct := by
    cases d.body with
    | nil => rfl
    | cons s rest => cases s <;> rfl
  simp only [fullBody, mapBody, hHead]
  split <;> rfl

theorem analyzeBody_strip_of_resolved {d : MethodDecl} (h : d.resolved.isSome = true) :
    (d.mapBody Stmt.stripAll).analyzeBody = d.analyzeBody := by
  obtain ⟨id, hResolved⟩ := Option.isSome_iff_exists.mp h
  have hResolved' : (d.mapBody Stmt.stripAll).resolved = some id := hResolved
  rw [analyzeBody, analyzeBody, hResolved, hResolved', fullBody_strip]
  simp only [Stmt.analyzeBody_strip]
  rfl

theorem resolved_analyzeBody (d : MethodDecl) (env : Env) :
    (d.analyzeBody env).value.1.resolved = d.resolved := by
  cases hResolved : d.resolved with
  | none => simp [analyzeBody, hResolved]
  | some id => simp [analyzeBody, hResolved]

/-- A method without a number is not typed, so there the stripped body is what remains. -/
theorem analyzeBody_strip (d : MethodDecl) :
    (d.mapBody Stmt.stripAll).analyzeBody = stripUnresolved <$> d.analyzeBody := by
  cases hResolved : d.resolved with
  | none =>
    have hResolved' : (d.mapBody Stmt.stripAll).resolved = none := hResolved
    simp [analyzeBody, hResolved, hResolved', stripUnresolved]
  | some id =>
    rw [analyzeBody_strip_of_resolved (by rw [hResolved]; rfl)]
    funext env
    have hStays : (d.analyzeBody env).value.1.stripUnresolved = (d.analyzeBody env).value.1 := by
      rw [stripUnresolved, resolved_analyzeBody, hResolved]
      rfl
    apply Logged.ext
    · rw [value_map, hStays]
    · rw [log_map]

end MethodDecl

def Member.stripUnresolved : Member → Member
  | field d => field d
  | method d => method d.stripUnresolved

theorem Member.analyzeBody_strip (member : Member) :
    (member.mapBody Stmt.stripAll).analyzeBody = stripUnresolved <$> member.analyzeBody := by
  cases member with
  | field d => simp [mapBody, analyzeBody, stripUnresolved]
  | method d => simp [mapBody, analyzeBody, stripUnresolved, d.analyzeBody_strip]

namespace ClassDecl

def stripUnresolved (d : ClassDecl) : ClassDecl :=
  if d.resolved.isSome then { d with members := d.members.map Member.stripUnresolved }
  else d.mapBodies Stmt.stripAll

theorem analyzeBodies_strip (d : ClassDecl) :
    (d.mapBodies Stmt.stripAll).analyzeBodies = stripUnresolved <$> d.analyzeBodies := by
  cases hResolved : d.resolved with
  | none => simp [analyzeBodies, mapBodies, hResolved, stripUnresolved]
  | some id =>
    simp only [analyzeBodies, mapBodies, hResolved, mapM_commute fun (member : Member) _ =>
      member.analyzeBody_strip, bind_map_left, map_bind, map_pure, stripUnresolved, Option.isSome_some,
      if_true]

/-- The class and all its methods are registered. -/
structure Bound (d : ClassDecl) : Prop where
  registered : d.resolved.isSome = true
  methods : ∀ m, .method m ∈ d.members → m.resolved.isSome = true

/-- If all methods have numbers, nothing of the old types is left, and the classes are the same. -/
theorem analyzeBodies_strip_of_bound {d : ClassDecl} (h : d.Bound) :
    (d.mapBodies Stmt.stripAll).analyzeBodies = d.analyzeBodies := by
  have hMembers : ∀ member ∈ d.members,
      (member.mapBody Stmt.stripAll).analyzeBody = id <$> member.analyzeBody := by
    intro member hMember
    cases member with
    | field m => rw [id_map]; rfl
    | method m =>
      simp only [Member.mapBody, Member.analyzeBody, id_map,
        MethodDecl.analyzeBody_strip_of_resolved (h.methods m hMember)]
  obtain ⟨c, hResolved⟩ := Option.isSome_iff_exists.mp h.registered
  simp only [analyzeBodies, mapBodies, hResolved, mapM_commute hMembers, List.map_id_fun, id_map]

end ClassDecl

theorem MainBlock.analyze_strip (m : MainBlock) :
    MainBlock.analyze ⟨m.line, Stmt.stripAll m.body⟩ = m.analyze := by
  simp only [analyze, Stmt.analyzeBody_strip]

namespace Program

open ClassDecl

def stripUnresolved (p : Program) : Program := { p with classes := p.classes.map ClassDecl.stripUnresolved }

/-- Annotations change neither what is reported nor what is declared, and are only left where nothing is
analyzed. -/
theorem analyze_strip (p : Program) : p.strip.analyze = stripUnresolved <$> p.analyze := by
  simp only [analyze, strip, declareClasses_mapBodies Stmt.keepsDefaults_stripAll, bind_map_left, map_bind,
    analyzeBodies, mapM_commute fun (d : ClassDecl) _ => d.analyzeBodies_strip, map_pure,
    MainBlock.analyze_strip, stripUnresolved]

/-- Unless a terminal fault is reported, all classes and methods are registered. -/
theorem bound_declareClasses {ds : List ClassDecl} (h : Quiet (declareClasses ds {}).log) :
    ∀ d ∈ (declareClasses ds {}).value.1, d.Bound := by
  have hPlaced : ∀ d ∈ registered ds, ∃ c, d.resolved = some c := by
    rw [(registered_of_quiet h).2]
    exact fun d hd => exists_resolved_numbered hd
  obtain ⟨env, hCollect⟩ : ∃ env, (collectClasses ds {}).value =
      ((registered ds, env.types.declarationOrder (registered ds)), env) := by
    rw [collectClasses, value_bind, mapM_register_start]
    exact ⟨_, rfl⟩
  have hNodup := Registry.nodup_declarationOrder env.types (registered ds)
  have hCovers := Registry.mem_declarationOrder (r := env.types) hPlaced
  simp only [declareClasses, value_bind, log_bind, hCollect, value_inOrder_buildVMT hNodup,
    Quiet.append_iff] at h ⊢
  obtain ⟨-, hFirst, hSecond, -⟩ := h
  intro d' hd'
  obtain ⟨own, hOwn, e', rfl, hLog'⟩ := exists_turn_of_mem_inOrder hNodup (by rwa [length_inOrder]) hd'
  obtain ⟨d, hd, e, rfl, hLog⟩ := exists_turn_of_mem_inOrder hNodup hCovers hOwn
  obtain ⟨c, hc⟩ := hPlaced d hd
  have hDeclared := (d.resolved_declareMembers e).trans hc
  have hAccepted := accepted_complete hDeclared (fun report hReport => hSecond report (hLog' hReport))
    (accepted_declareMembers hc fun report hReport => hFirst report (hLog hReport))
  exact ⟨Option.isSome_iff_exists.mpr ⟨c, (resolved_complete _ e').trans hDeclared⟩,
    fun m hm => Option.isSome_iff_exists.mpr (hAccepted m hm)⟩

/-- A program that is accepted is typed to the same result without the types it came with. -/
theorem analyzed_strip {p : Program} (h : Quiet p.diagnostics) : p.strip.analyzed = p.analyzed := by
  have hQuiet : Quiet (declareClasses p.classes {}).log := by
    rw [diagnostics, analyze, log_bind, Quiet.append_iff] at h
    exact h.1
  have hBound := bound_declareClasses hQuiet
  have hClasses : ∀ ds : List ClassDecl, (∀ d ∈ ds, d.Bound) →
      (ds.map (mapBodies Stmt.stripAll)).mapM ClassDecl.analyzeBodies = ds.mapM ClassDecl.analyzeBodies := by
    intro ds hds
    rw [mapM_commute (k := id) fun d hd => by rw [analyzeBodies_strip_of_bound (hds d hd), id_map],
      List.map_id_fun, id_map]
  simp only [analyzed, analyze, strip, declareClasses_mapBodies Stmt.keepsDefaults_stripAll, bind_map_left,
    value_bind, analyzeBodies, hClasses _ hBound, MainBlock.analyze_strip]

/-- Programs that differ in annotations only are analyzed alike: the same is reported in the same order, the
same is declared, and unless a terminal fault is reported, the analyzed trees are the same. Where one is, bodies
that are not typed keep the annotations that they came with. -/
theorem analysis_ignores_annotations (p q : Program) (h : p.strip = q.strip) :
    p.diagnostics = q.diagnostics ∧ p.env = q.env ∧
      (p.diagnostics.any Diagnostic.isTerminal = false → p.analyzed = q.analyzed) := by
  have hLog : ∀ p : Program, p.strip.diagnostics = p.diagnostics := by
    intro p
    rw [diagnostics, analyze_strip, log_map, diagnostics]
  have hEnv : ∀ p : Program, p.strip.env = p.env := by
    intro p
    rw [env, analyze_strip, value_map, env]
  have hSame : p.diagnostics = q.diagnostics := by rw [← hLog p, h, hLog q]
  refine ⟨hSame, by rw [← hEnv p, h, hEnv q], ?_⟩
  intro hTerminal
  have hQuiet : Quiet p.diagnostics := by
    intro d hd
    exact Bool.eq_false_iff.mpr fun hd' => Bool.eq_false_iff.mp hTerminal (List.any_eq_true.mpr ⟨d, hd, hd'⟩)
  rw [← analyzed_strip hQuiet, h, analyzed_strip (hSame ▸ hQuiet)]

/-- A program without annotations. -/
def unmarked : Program where
  classes := [
    { line := 1, name := "A", members := [
      .field ⟨2, .int, ["x"], none⟩,
      .method {
        line := 3, name := "f", returns := some .int, params := [⟨3, .int, "y"⟩]
        body := [
          .expr 4 (.assign 4 (.var 4 "x" none) (.var 4 "y" none)),
          .ret 5 (some (.field 5 (.this 5) "x" none)) none] }] }]
  main := ⟨7, [
    .declare 8 .int ["a"],
    .expr 9 (.assign 9 (.var 9 "a" none) (.call 9 (.object (.new 9 "A" [] none none)) "f"
        [.convert ⟨9, .int⟩ (.int 9 3)] none none))]⟩

/-- The same program with annotations that are all wrong. -/
def mismarked : Program where
  classes := [
    { line := 1, name := "A", members := [
      .field ⟨2, .int, ["x"], none⟩,
      .method {
        line := 3, name := "f", returns := some .int, params := [⟨3, .int, "y"⟩]
        body := [
          .expr 4 (.deref ⟨0, .null⟩ (.assign ⟨4, .error⟩
            (.deref ⟨4, .error⟩ (.deref ⟨4, .null⟩ (.var ⟨4, .int⟩ "x" (some (.param 7)))))
            (.var ⟨4, .null⟩ "y" (some .mainVar)))),
          .ret 5 (some (.field ⟨5, .int⟩ (.deref ⟨5, .int⟩ (.this ⟨5, .error⟩)) "x" (some 40)))
            (some "nowhere")] }] }]
  main := ⟨7, [
    .declare 8 .int ["a"],
    .expr 9 (.assign ⟨9, .null⟩ (.var ⟨9, .error⟩ "a" (some (.field 4)))
      (.call ⟨9, .ofClass ⟨5⟩⟩ (.object (.new ⟨9, .int⟩ "A" [] (some ⟨8⟩) (some ⟨9⟩))) "f"
        [.deref ⟨9, .error⟩ (.convert ⟨9, .int⟩ (.int ⟨9, .address⟩ 3))] (some ⟨99⟩) (some 6)))]⟩

theorem analysis_ignores_annotations_mismarked : mismarked.strip = unmarked.strip ∧
    mismarked.diagnostics.any Diagnostic.isTerminal = false ∧
    mismarked.diagnostics = unmarked.diagnostics ∧ mismarked.env = unmarked.env ∧
    mismarked.analyzed = unmarked.analyzed := by
  have hStrip : mismarked.strip = unmarked.strip := rfl
  have hTerminal : mismarked.diagnostics.any Diagnostic.isTerminal = false := by decide +kernel
  obtain ⟨hLog, hEnv, hTree⟩ := analysis_ignores_annotations mismarked unmarked hStrip
  exact ⟨hStrip, hTerminal, hLog, hEnv, hTree hTerminal⟩

end Program
end TLang
