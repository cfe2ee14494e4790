import TLang.Proofs.Annotations
import TLang.Proofs.Overloading
import TLang.Proofs.Redeclaration.Programs
import TLang.Proofs.Retyping.Bodies

/-! Analysis of an analyzed program. A second analysis gives the same tree and the same tables again, up to
the numbers of methods. But it does not recognise the constructors that the first one has added: each of
them is added once more, which is reported, and the copy is left without a record. -/
namespace TLang

open Registry Analysis List

variable {d d' : ClassDecl} {ρ : Renumbering}

namespace ClassDecl

theorem bodiless_analyzeBodies (d : ClassDecl) (env : Env) :
    (d.analyzeBodies env).value.1.bodiless = d.bodiless := by
  have hMembers := d.map_analyzeBodies Member.bodiless (fun _ _ => rfl) env
  have hSame := d.memberless_analyzeBodies env
  have hRest : ∀ d : ClassDecl, d.bodiless = { d.memberless with members := d.members.map Member.bodiless } :=
    fun _ => rfl
  rw [hRest, hMembers, hSame, ← hRest]

theorem refused_of_bodiless (h : d'.bodiless = d.bodiless) : d'.refused = d.refused := by
  have hDefault : d'.defaultConstructor = d.defaultConstructor := (congrArg ClassDecl.defaultConstructor h :)
  rw [refused, refused, declaresConstructor_of_bodiless h, hDefault]

/-- A constructor that was refused is not typed. -/
theorem mapM_refused (d : ClassDecl) (env : Env) :
    d.refused.mapM Member.analyzeBody env = ⟨(d.refused, env), []⟩ := by
  rw [refused]
  split
  · rfl
  · rfl

/-- Typing the bodies does not notice the constructor that was refused in between. -/
theorem analyzeBodies_regiven (d : ClassDecl) : d.regiven.analyzeBodies = regiven <$> d.analyzeBodies := by
  funext env
  cases hResolved : d.resolved with
  | none =>
    have hResolved' : d.regiven.resolved = none := hResolved
    simp [analyzeBodies, hResolved, hResolved']
  | some c =>
    have hResolved' : d.regiven.resolved = some c := hResolved
    have hRefused := refused_of_bodiless (d.bodiless_analyzeBodies env)
    rw [analyzeBodies_apply hResolved] at hRefused
    have hMembers : d.regiven.members.mapM Member.analyzeBody (inside c env) =
        ⟨((d.members.mapM Member.analyzeBody (inside c env)).value.1 ++ d.refused,
          (d.members.mapM Member.analyzeBody (inside c env)).value.2),
          (d.members.mapM Member.analyzeBody (inside c env)).log⟩ := by
      rw [regiven, mapM_append_apply, mapM_refused, append_nil]
    apply Logged.ext
    · rw [value_map, analyzeBodies_apply hResolved, analyzeBodies_apply hResolved', hMembers]
      simp only [regiven, hRefused]
    · rw [log_map, analyzeBodies_apply hResolved, analyzeBodies_apply hResolved', hMembers]

theorem declaresConstructor_renumber (ρ : Renumbering) (d : ClassDecl) :
    (d.renumber ρ).declaresConstructor = d.declaresConstructor := by
  refine declaresConstructor_of_map ?_
  rw [renumber, map_map]
  exact map_congr_left fun member _ => by cases member <;> rfl

/-- Whether all methods have numbers does not depend on the bodies. -/
theorem bound_mapBodies_iff {f : List Stmt → List Stmt} : (d.mapBodies f).Bound ↔ d.Bound := by
  constructor
  · rintro ⟨hRegistered, hMethods⟩
    exact ⟨hRegistered, fun m hm => hMethods (m.mapBody f) (mem_map.mpr ⟨_, hm, rfl⟩)⟩
  · rintro ⟨hRegistered, hMethods⟩
    refine ⟨hRegistered, fun m hm => ?_⟩
    obtain ⟨member, hMember, hEq⟩ := mem_map.mp hm
    cases member with
    | field e => cases hEq
    | method e =>
      cases hEq
      exact hMethods e hMember

theorem Bound.of_bodiless (hSame : d'.bodiless = d.bodiless) (h : d.Bound) : d'.Bound := by
  have hEq : ∀ d : ClassDecl, d.bodiless = d.mapBodies fun _ => [] := by
    intro d
    rw [bodiless, mapBodies]
    congr 1
  rwa [← bound_mapBodies_iff, ← hEq, hSame, hEq, bound_mapBodies_iff]

theorem Bound.restamped (h : d.Bound) (ρ : Renumbering) : (d.restamped ρ).Bound := by
  refine ⟨h.registered, fun m hm => ?_⟩
  obtain ⟨member, hMember, hEq⟩ := mem_map.mp hm
  cases member with
  | field e => cases hEq
  | method e =>
    cases hEq
    obtain ⟨k, hk⟩ := Option.isSome_iff_exists.mp (h.methods e hMember)
    simp [Member.routine?, hk]

/-- Annotations apart, new numbers for the routines of a class are new numbers for all. -/
theorem strip_restamped (hρ : ρ.cls = id) (hOwned : d.Owned)
    (hPortable : ∀ member ∈ d.members, Stmt.PortableAll member.body) :
    (d.restamped ρ).mapBodies Stmt.stripAll = (d.renumber ρ).mapBodies Stmt.stripAll := by
  rw [restamped, renumber, mapBodies, mapBodies, map_map, map_map, hρ, Option.map_id, id]
  congr 1
  refine map_congr_left fun member hMember => ?_
  have hOwner := hOwned member hMember
  have hBody := hPortable member hMember ρ hρ
  cases member with
  | field e =>
    have hOwner : e.owner = some d.name := hOwner
    simp [Member.stamped, Member.renumber, Member.mapBody, ← hOwner]
  | method e =>
    have hOwner : e.owner = some d.name := hOwner
    have hBody : Stmt.stripAll (Stmt.renumberAll ρ e.body) = Stmt.stripAll e.body := hBody
    have hResolved : (e.resolved.map ρ.method).or e.resolved = e.resolved.map ρ.method := by
      cases e.resolved <;> rfl
    simp only [Function.comp_apply, Member.stamped, Member.renumber, Member.mapBody, MethodDecl.mapBody,
      MethodDecl.renumber, Member.routine?, hBody, hResolved, ← hOwner]

/-- The bodies that a second run finds are typed as if they were there under new numbers. -/
theorem analyzeBodies_restamped (hρ : ρ.cls = id) (hBound : d.Bound) (hOwned : d.Owned)
    (hPortable : ∀ member ∈ d.members, Stmt.PortableAll member.body) :
    (d.restamped ρ).analyzeBodies = (d.renumber ρ).analyzeBodies := by
  have hStrip := strip_restamped hρ hOwned hPortable
  have hBound' := bound_mapBodies_iff.mp (hStrip ▸ bound_mapBodies_iff.mpr (hBound.restamped ρ))
  rw [← analyzeBodies_strip_of_bound (hBound.restamped ρ), hStrip, analyzeBodies_strip_of_bound hBound']

end ClassDecl

/-! Whole programs. -/

namespace Program

variable {p : Program}

/-- If analysis reports nothing, then neither the declarations nor the bodies give rise to a report. -/
theorem quiet_of_clean (hLog : p.diagnostics = []) : (declareClasses p.classes {}).log = [] ∧
    analyzeBodies ⟨p.settledClasses, p.main⟩ p.outset = pure (p.analyzed, p.env) := by
  rw [diagnostics, analyze, log_bind, append_eq_nil_iff, ← settledClasses, ← outset] at hLog
  have hValue : (p.analyzed, p.env) = (analyzeBodies ⟨p.settledClasses, p.main⟩ p.outset).value := by
    rw [analyzed, env, value_analyze, ← settledClasses, ← outset]
  rw [hValue]
  exact ⟨hLog.1, Logged.eq_pure_of_log hLog.2⟩

section

variable (hFresh : p.isFresh = true)
include hFresh

/-- Bodies are fresh until they are typed. The declarations pass them on as they were read. -/
theorem areFresh_settledClasses (hQuiet : Quiet (declareClasses p.classes {}).log)
    (hd : d ∈ p.settledClasses) {member : Member} (hMember : member ∈ d.members) :
    Stmt.areFresh member.body = true := by
  have hDeclared : Declared (fun _ => True) p.classes p.settledClasses p.outset :=
    declared_of_quiet hFresh hQuiet
  obtain ⟨c, hLinked, -⟩ := hDeclared.classes d hd
  have hDeclarable := hLinked.members member hMember
  cases member with
  | field e => rfl
  | method e => exact hDeclarable.2.1

/-- What analysis made of the bodies of a program is typed to itself. -/
theorem analyzeBodies_again (hNames : p.PlainlyNamed)
    (hLog : p.diagnostics = []) :
    analyzeBodies p.analyzed p.outset = pure (p.analyzed, p.env) ∧
      (∀ d ∈ p.analyzed.classes, ∀ member ∈ d.members, Stmt.PortableAll member.body) ∧
      Stmt.PortableAll p.analyzed.main.body := by
  obtain ⟨hDeclare, hBodies⟩ := quiet_of_clean hLog
  have hNone : ∀ {log : List Diagnostic}, log = [] → Quiet log :=
    fun h => h ▸ fun d hd => absurd hd not_mem_nil
  have hPlain := ((legible_of_quiet hFresh (hNone hLog) hNames).plainlyNamed).of_interface
    (sameInterface_env hFresh).symm
  have hTypable : Typable ⟨p.settledClasses, p.main⟩ p.outset := typable p hFresh
  obtain ⟨hNodup, hReady⟩ := hTypable
  have hLocal : ∀ d ∈ p.settledClasses, Local {} d.routines d.analyzeBodies :=
    fun d hd => ClassDecl.local_analyzeBodies ((nodup_flatMap.mp hNodup).1 d hd)
  have hTouches := (Local.apart p.settledClasses hLocal hNodup hReady).1
  obtain ⟨classes, e, hClasses, hRest⟩ := bind_eq_pure.mp hBodies
  dsimp only at hClasses
  obtain ⟨main, e', hMain, hRest⟩ := bind_eq_pure.mp hRest
  obtain ⟨hProgram, rfl⟩ := pure_eq_pure.mp hRest
  rw [hClasses] at hTouches
  obtain ⟨hAgain, hPortable⟩ := mapM_again
    (fun e => e.types.PlainlyNamed ∧ e.Ready {} (p.settledClasses.flatMap ClassDecl.routines)) (by
      rintro d hd d' e e' ⟨hNames, hReady⟩ hTyped
      have hOwn : e.Ready {} d.routines := hReady.mono fun _ => mem_flatMap_of_mem hd
      have hTouches := (hLocal d hd).touches e hOwn
      rw [hTyped] at hTouches
      exact ⟨ClassDecl.analyzeBodies_again
          (fun member hMember => areFresh_settledClasses hFresh (hNone hDeclare) hd hMember) hNames hOwn hTyped,
        hNames.of_interface hTouches.interface, hTouches.ready hReady⟩) ⟨hPlain, hReady⟩ hClasses
  obtain ⟨hMainAgain, hMainPortable⟩ := MainBlock.analyze_again (areFresh_main hFresh)
    (hPlain.of_interface hTouches.interface) (hTouches.position.trans hReady.1) hMain
  rw [← hProgram]
  exact ⟨bind_eq_pure.mpr ⟨classes, e, hAgain, bind_eq_pure.mpr ⟨main, _, hMainAgain, rfl⟩⟩,
    hPortable, hMainPortable⟩

theorem routines_analyzed : p.analyzed.classes.flatMap ClassDecl.routines =
    p.settledClasses.flatMap ClassDecl.routines := by
  rw [analyzed_classes hFresh, flatMap_map]
  exact flatMap_congr fun d _ => congrArg Prod.snd (d.roster_analyzeBodies p.outset)

theorem typable_analyzed : p.analyzed.Typable p.outset := by
  obtain ⟨hDistinct, hReady⟩ : Typable ⟨p.settledClasses, p.main⟩ p.outset := typable p hFresh
  constructor
  · rw [routines_analyzed hFresh]
    exact hDistinct
  · rw [routines_analyzed hFresh]
    exact hReady

end

/-- The declarations of an analyzed program, once they are made a second time. -/
structure DeclaredAgain (ρ : Renumbering) (p : Program) : Prop where
  cls : ρ.cls = id
  log : (declareClasses p.analyzed.classes {}).log.Perm (p.classes.flatMap ClassDecl.redeclarations)
  alike : p.outset.Alike ρ p.analyzed.outset
  position : p.analyzed.outset.position = p.outset.position
  globals : p.analyzed.outset.globals = p.outset.globals
  settled : p.analyzed.settledClasses = p.analyzed.classes.map fun d => (d.restamped ρ).regiven
  classes : ∀ d ∈ p.analyzed.classes, d.Bound ∧ d.Owned

/-- The declarations of a program without diagnostics can be made a second time. What is reported then are the
constructors that the first run supplied. -/
theorem exists_declaredAgain (hFresh : p.isFresh = true) (hLog : p.diagnostics = []) :
    ∃ ρ, DeclaredAgain ρ p := by
  have hDeclare := (quiet_of_clean hLog).1
  have hQuiet : Quiet (declareClasses p.classes {}).log := hDeclare ▸ fun d hd => absurd hd not_mem_nil
  obtain ⟨cs, order, start, hClean⟩ := exists_declaredCleanly hFresh hDeclare
  have hSame : p.analyzed.classes.map ClassDecl.bodiless = p.settledClasses.map ClassDecl.bodiless := by
    rw [analyzed_classes hFresh, map_map]
    exact map_congr_left fun d _ => d.bodiless_analyzeBodies p.outset
  obtain ⟨g, hSettled, hReports, hAlike, hPosition, hGlobals⟩ :=
    hClean.exists_declaredAgain hFresh hQuiet hSame
  refine ⟨.ofNumbers id g, rfl, hReports, hAlike, hPosition, hGlobals, hSettled, fun d hd => ?_⟩
  rw [analyzed_classes hFresh] at hd
  obtain ⟨r, hr, rfl⟩ := mem_map.mp hd
  have hBodiless := r.bodiless_analyzeBodies p.outset
  exact ⟨.of_bodiless hBodiless (bound_declareClasses hQuiet r hr), .of_bodiless hBodiless (hClean.owned r hr)⟩

/-- A program whose classes are given constructors, unless they declare some. -/
def regiven (p : Program) : Program := { p with classes := p.classes.map ClassDecl.regiven }

/-- The bodies that a second analysis finds are typed as if they were there under new numbers. -/
theorem DeclaredAgain.analyzeBodies_eq (h : DeclaredAgain ρ p)
    (hPortable : ∀ d ∈ p.analyzed.classes, ∀ member ∈ d.members, Stmt.PortableAll member.body)
    (hMain : Stmt.PortableAll p.analyzed.main.body) :
    analyzeBodies ⟨p.analyzed.settledClasses, p.analyzed.main⟩ =
      regiven <$> analyzeBodies (p.analyzed.renumber ρ) := by
  have hMainBlock : p.analyzed.main.analyze = (p.analyzed.main.renumber ρ).analyze := by
    rw [← MainBlock.analyze_strip, ← MainBlock.analyze_strip (p.analyzed.main.renumber ρ),
      MainBlock.renumber, hMain ρ h.cls]
  have hClasses : p.analyzed.settledClasses.mapM ClassDecl.analyzeBodies =
      List.map ClassDecl.regiven <$> (p.analyzed.classes.map (ClassDecl.renumber ρ)).mapM
        ClassDecl.analyzeBodies := by
    have hEach : ∀ d ∈ p.analyzed.classes, (d.restamped ρ).regiven.analyzeBodies =
        ClassDecl.regiven <$> (d.renumber ρ).analyzeBodies := by
      intro d hd
      obtain ⟨hBound, hOwned⟩ := h.classes d hd
      rw [ClassDecl.analyzeBodies_regiven, ClassDecl.analyzeBodies_restamped h.cls hBound hOwned (hPortable d hd)]
    rw [h.settled]
    generalize p.analyzed.classes = ds at hEach
    induction ds with
    | nil => rfl
    | cons d ds ih =>
      rw [forall_mem_cons] at hEach
      simp only [mapM_cons, map_cons, hEach.1, ih hEach.2, bind_map_left, map_bind, map_pure]
  simp only [analyzeBodies, hMainBlock, hClasses, Program.renumber, regiven, bind_map_left, map_bind,
    map_pure]

/-- Nothing changes in an analyzed program if all classes declare a constructor. -/
theorem regiven_analyzed (hFresh : p.isFresh = true) (hLog : p.diagnostics = []) (ρ : Renumbering)
    (hDeclares : ∀ d ∈ p.classes, d.declaresConstructor = true) :
    (p.analyzed.renumber ρ).regiven = p.analyzed.renumber ρ := by
  have hQuiet : Quiet (declareClasses p.classes {}).log :=
    (quiet_of_clean hLog).1 ▸ fun d hd => absurd hd not_mem_nil
  have hFormed := formed_of_quiet hFresh hQuiet
  have hClasses : ∀ d ∈ p.analyzed.classes, (d.renumber ρ).regiven = d.renumber ρ := by
    intro d hd
    rw [analyzed_classes hFresh] at hd
    obtain ⟨r, hr, rfl⟩ := mem_map.mp hd
    obtain ⟨i, hi, rfl⟩ := getElem_of_mem hr
    have hi' : i < p.classes.length := hFormed.length_eq ▸ hi
    obtain ⟨c, hClass⟩ := (forall₂_iff_get.mp hFormed).2 i hi' hi
    have hNumbers : ((p.settledClasses[i].analyzeBodies p.outset).value.1.renumber ρ).declaresConstructor = true := by
      rw [ClassDecl.declaresConstructor_renumber, ClassDecl.declaresConstructor_of_bodiless
        (p.settledClasses[i].bodiless_analyzeBodies p.outset)]
      exact (hClass.declaresConstructor fun e he => synthetic_of_isFresh hFresh (getElem_mem hi') he).trans
        (hDeclares _ (getElem_mem hi'))
    rw [ClassDecl.regiven, ClassDecl.refused, if_pos hNumbers, append_nil]
  simp only [regiven, Program.renumber, map_map, Function.comp_def, map_congr_left hClasses]

/-- If the bodies of a program are typed like those of another one, then so is the program. -/
theorem analyze_of_bodies {q r : Program} {g : Program → Program}
    (h : analyzeBodies ⟨q.settledClasses, q.main⟩ = g <$> r.analyzeBodies) :
    q.diagnostics = (declareClasses q.classes {}).log ++ (r.analyzeBodies q.outset).log ∧
      q.analyzed = g (r.analyzeBodies q.outset).value.1 ∧ q.env = (r.analyzeBodies q.outset).value.2 := by
  have hValue : (q.analyze {}).value =
      (g (r.analyzeBodies q.outset).value.1, (r.analyzeBodies q.outset).value.2) := by
    rw [value_analyze, ← settledClasses, ← outset, h, value_map]
  refine ⟨?_, ?_, ?_⟩
  · rw [diagnostics, analyze, log_bind, ← settledClasses, ← outset, h, log_map]
  · rw [analyzed, hValue]
  · rw [env, hValue]

/-- What a second analysis makes of an analyzed program. -/
theorem exists_typedAgain (hFresh : p.isFresh = true) (hNames : p.PlainlyNamed) (hLog : p.diagnostics = []) :
    ∃ ρ : Renumbering, ρ.cls = id ∧
      p.analyzed.diagnostics.Perm (p.classes.flatMap ClassDecl.redeclarations) ∧
      p.analyzed.analyzed = (p.analyzed.renumber ρ).regiven ∧
      Renumbered ρ p.env.types p.analyzed.env.types ∧
      (∀ m, p.analyzed.env.types.methodInfo (ρ.method m) = (p.env.types.methodInfo m).renumber ρ) ∧
      p.analyzed.env.globals = p.env.globals.renumber ρ := by
  obtain ⟨ρ, h⟩ := exists_declaredAgain hFresh hLog
  obtain ⟨hAgain, hPortable, hMain⟩ := analyzeBodies_again hFresh hNames hLog
  have hBodies := h.analyzeBodies_eq hPortable hMain
  have hTypable := typable_analyzed hFresh
  have hCorresponds := hTypable.corresponds h.alike (h.position.trans hTypable.ready.1)
  have hGlobals : p.analyzed.outset.globals = p.outset.globals.renumber ρ := by
    have hEmpty := (established_declareClasses fun d hd => resolved_of_isFresh hFresh hd).globals
    rw [← outset] at hEmpty
    rw [h.globals, hEmpty]
    rfl
  have hTypable' := hTypable.renumber hCorresponds
  have hApart := typedApart_analyzeBodies p.analyzed hTypable.distinct hTypable.ready
  have hApart' := typedApart_analyzeBodies (p.analyzed.renumber ρ) hTypable'.distinct hTypable'.ready
  obtain ⟨hTree, hReports, hGlobals⟩ := hApart.renumbered hTypable hCorresponds hGlobals hApart'
  have hInfos := hApart.infos hTypable hCorresponds ⟨.refl _, rfl⟩ hApart'
  have hTypes := hCorresponds.types.congr_interface hApart.interface hApart'.interface
  rw [hAgain] at hTree hReports hGlobals hInfos hTypes
  obtain ⟨hDiagnostics, hAnalyzed, hEnv⟩ := analyze_of_bodies hBodies
  rw [hReports, Logged.log_pure, append_nil] at hDiagnostics
  rw [hTree, Logged.value_pure] at hAnalyzed
  rw [← hEnv] at hGlobals hInfos hTypes
  exact ⟨ρ, h.cls, hDiagnostics ▸ h.log, hAnalyzed, hTypes, hInfos, hGlobals⟩

/-- Two analyses, the second one of what the first one made of a program. -/
structure AnalyzedAgain (ρ : Renumbering) (p : Program) : Prop where
  sameClasses : ρ.cls = id
  distinct : Function.Injective ρ.method
  /-- One report for each class that declares no constructor. -/
  diagnostics : p.analyzed.diagnostics.Perm (p.classes.flatMap ClassDecl.redeclarations)
  tree : p.analyzed.analyzed = (p.analyzed.renumber ρ).regiven
  size : p.analyzed.env.types.classes.length = p.env.types.classes.length
  lookup : ∀ name, p.analyzed.env.types.lookupClass name = p.env.types.lookupClass name
  /-- In particular parents, own fields, the types of all members and lists of methods. -/
  classInfo : ∀ c, p.analyzed.env.types.classInfo c = (p.env.types.classInfo c).renumber ρ
  methodInfo : ∀ m, p.analyzed.env.types.methodInfo (ρ.method m) = (p.env.types.methodInfo m).renumber ρ
  offsets : ∀ c name, p.analyzed.env.types.fieldOffset c name = p.env.types.fieldOffset c name
  tables : ∀ c,
    (p.analyzed.env.types.classInfo c).vmt.map (fun m => (p.analyzed.env.types.methodInfo m).label) =
      (p.env.types.classInfo c).vmt.map fun m => (p.env.types.methodInfo m).label
  globals : p.analyzed.env.globals = p.env.globals.renumber ρ

/-- Analysis of an analyzed program gives the same again, up to the numbers of methods, but for the classes that
declare no constructor. Each of them is reported, and gets one more constructor without a record. Programs about
which something was reported in the first analysis are left out. -/
theorem analysis_repeated (p : Program) (hFresh : p.isFresh = true) (hNames : p.PlainlyNamed)
    (hClean : p.diagnostics = []) : ∃ ρ, AnalyzedAgain ρ p ∧
      (p.analyzed.diagnostics = [] ↔ ∀ d ∈ p.classes, d.declaresConstructor = true) ∧
      (p.analyzed.diagnostics = [] → p.analyzed.analyzed = p.analyzed.renumber ρ) := by
  obtain ⟨ρ, hCls, hLog, hTree, hTypes, hInfos, hGlobals⟩ := exists_typedAgain hFresh hNames hClean
  have hSame : ∀ c, ρ.cls c = c := fun c => by rw [hCls, id]
  have hNone : p.analyzed.diagnostics = [] ↔ ∀ d ∈ p.classes, d.declaresConstructor = true := by
    rw [← perm_nil, hLog.congr_left, perm_nil, flatMap_eq_nil_iff]
    refine forall₂_congr fun d _ => ?_
    rw [ClassDecl.redeclarations]
    split <;> simp_all
  refine ⟨ρ, ?_, hNone, fun hEmpty => hTree.trans (regiven_analyzed hFresh hClean ρ (hNone.mp hEmpty))⟩
  constructor
  case sameClasses => exact hCls
  case distinct => exact fun m m' hEq => hTypes.faithful.method hEq
  case diagnostics => exact hLog
  case tree => exact hTree
  case size => exact hTypes.size
  case lookup =>
    intro name
    rw [hTypes.lookup, hCls, Option.map_id, id]
  case classInfo =>
    intro c
    rw [← hTypes.classInfo, hSame]
  case methodInfo => exact hInfos
  case offsets =>
    intro c name
    rw [← hTypes.fieldOffset, hSame]
  case tables =>
    intro c
    have hInfo := hTypes.classInfo c
    rw [hSame] at hInfo
    rw [hInfo, ClassInfo.renumber, map_map]
    exact map_congr_left fun m _ => hTypes.label m
  case globals => exact hGlobals

/-- Two classes that declare their constructors, but no destructors. The subclass comes first, and values of
it are passed on where ones of its parent are expected. -/
def equipped : Program where
  classes := [
    { line := 1, name := "Leaf", parent := some "Base", members := [
      .method {
        line := 2, kind := .constructor, name := "Leaf", params := [⟨2, .named "Leaf", "twin"⟩]
        body := [.construct 3 .super [.var 3 "twin" none] none] }] },
    { line := 5, name := "Base", members := [
      .field ⟨6, .named "Base", ["next"], none⟩,
      .method {
        line := 7, kind := .constructor, name := "Base", params := [⟨7, .named "Base", "other"⟩]
        body := [.expr 8 (.assign 8 (.var 8 "next" none) (.var 8 "other" none))] },
      .method {
        line := 9, name := "last", returns := some (.named "Base")
        params := [⟨9, .named "Base", "other"⟩]
        body := [.ret 10 (some (.var 10 "other" none)) none] }] }]
  main := ⟨12, [
    .declare 13 (.named "Base") ["b"],
    .expr 14 (.assign 14 (.var 14 "b" none)
      (.call 14 (.object (.new 14 "Leaf" [.null 14] none none)) "last"
        [.new 14 "Leaf" [.null 14] none none] none none))]⟩

theorem analysis_repeated_equipped : equipped.isFresh = true ∧ equipped.PlainlyNamed ∧
    equipped.diagnostics = [] ∧ equipped.analyzed.diagnostics = [] ∧
    ∃ ρ, AnalyzedAgain ρ equipped ∧ equipped.analyzed.analyzed = equipped.analyzed.renumber ρ := by
  have hFresh : equipped.isFresh = true := by decide
  have hNames : equipped.PlainlyNamed := ⟨by decide, by decide⟩
  have hClean : equipped.diagnostics = [] := by decide +kernel
  have hDeclares : ∀ d ∈ equipped.classes, d.declaresConstructor = true := by decide
  obtain ⟨ρ, hAgain, hNone, hTree⟩ := analysis_repeated equipped hFresh hNames hClean
  have hQuiet := hNone.mpr hDeclares
  exact ⟨hFresh, hNames, hClean, hQuiet, ρ, hAgain, hTree hQuiet⟩

/-- A class that declares nothing. -/
def unequipped : Program where
  classes := [{ line := 1, name := "A" }]
  main := ⟨2, []⟩

/-- The constructor that the first analysis has added is reported by the second one. -/
theorem analysis_not_repeated : unequipped.isFresh = true ∧ unequipped.PlainlyNamed ∧
    unequipped.diagnostics = [] ∧
    unequipped.analyzed.diagnostics = [⟨1, .redeclared (.method "A") "A"⟩] ∧
    unequipped.analyzed.classes.map (·.members.length) = [2] ∧
    unequipped.analyzed.analyzed.classes.map (·.members.length) = [3] := by
  refine ⟨by decide, ⟨by decide, by decide⟩, ?_⟩
  decide +kernel

end Program
end TLang
