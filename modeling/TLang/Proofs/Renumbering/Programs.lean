import TLang.Proofs.Independence
import TLang.Proofs.Renumbering.Passes

/-! Programs that differ in numbers and in the order of classes. Once their classes are settled alike,
their bodies are typed alike: the trees, the reports and the tables of variables are the same up to
numbers and up to the order of classes. -/
namespace TLang

open Registry Analysis List

variable {d : ClassDecl}

variable {x x' : Checked (Program × Env)} {ρ : Renumbering} {env env' : Env}

/-- Typing bodies does not change who is who. -/
theorem Env.Alike.of_interface {final final' : Env} (h : env.Alike ρ env')
    (hInterface : SameInterface env.types final.types)
    (hInterface' : SameInterface env'.types final'.types)
    (hInfos : ∀ m, final'.types.methodInfo (ρ.method m) = (final.types.methodInfo m).renumber ρ) :
    final.Alike ρ final' where
  outline := h.outline.congr_outline hInterface.outline hInterface'.outline
  classInfo := by rw [hInterface.classInfo, hInterface'.classInfo]; exact h.classInfo
  infos := hInfos
  bounded := by rw [Env.size, Env.size, hInterface.length, hInterface'.length]; exact h.bounded

/-- A program whose bodies can be typed apart from each other. -/
structure Program.Typable (p : Program) (env : Env) : Prop where
  distinct : (p.classes.flatMap ClassDecl.routines).Nodup
  ready : env.Ready {} (p.classes.flatMap ClassDecl.routines)

/-- The second environment has the classes and methods of the first under other numbers, and all methods
of the program are recorded in it. -/
structure Program.Corresponds (ρ : Renumbering) (p : Program) (env env' : Env) : Prop where
  types : Renumbered ρ env.types env'.types
  infos : ∀ m, env'.types.methodInfo (ρ.method m) = (env.types.methodInfo m).renumber ρ
  ready : env'.Ready {} ((p.classes.flatMap ClassDecl.routines).map ρ.method)

/-- Two analyses that give the same up to numbers and up to the order of classes. -/
structure TypedAlike (ρ : Renumbering) (x x' : Checked (Program × Env)) : Prop where
  classes : x'.value.1.classes.Perm (x.value.1.classes.map (ClassDecl.renumber ρ))
  main : x'.value.1.main = x.value.1.main.renumber ρ
  log : x'.log.Perm x.log
  alike : x.value.2.Alike ρ x'.value.2
  globals : x'.value.2.globals = x.value.2.globals.renumber ρ

namespace Program

variable {p p' : Program}

theorem Typable.corresponds (h : p.Typable env) (hAlike : env.Alike ρ env')
    (hPosition : env'.position = {}) : p.Corresponds ρ env env' := by
  refine ⟨hAlike.types, hAlike.infos, hPosition, ?_⟩
  intro m' hm'
  obtain ⟨m, hm, rfl⟩ := mem_map.mp hm'
  exact (hAlike.bounded m).mpr (h.ready.2 m hm)

/-- The bodies of one class are typed alike. -/
theorem Typable.copied_class (h : p.Typable env) (hEnv : p.Corresponds ρ env env') (hd : d ∈ p.classes) :
    Copied ρ d.routines (ClassDecl.renumber ρ) (d.analyzeBodies env) ((d.renumber ρ).analyzeBodies env') := by
  refine ClassDecl.copied_analyzeBodies ((nodup_flatMap.mp h.distinct).1 d hd)
    (h.ready.mono fun _ hm => mem_flatMap.mpr ⟨d, hd, hm⟩) ⟨hEnv.ready.1, ?_⟩ ⟨hEnv.types, fun m _ => hEnv.infos m⟩
  intro m' hm'
  obtain ⟨m, hm, rfl⟩ := mem_map.mp hm'
  exact hEnv.ready.2 _ (mem_map_of_mem (mem_flatMap.mpr ⟨d, hd, hm⟩))

/-- Two programs that are the same up to numbers and up to the order of classes. -/
structure SameUpTo (ρ : Renumbering) (p p' : Program) : Prop where
  classes : p'.classes.Perm (p.classes.map (ClassDecl.renumber ρ))
  main : p'.main = p.main.renumber ρ

theorem SameUpTo.mem_routines_iff (h : SameUpTo ρ p p') (hρ : ρ.Faithful) (m : MethodId) :
    ρ.method m ∈ p'.classes.flatMap ClassDecl.routines ↔ m ∈ p.classes.flatMap ClassDecl.routines := by
  rw [(h.classes.flatMap_right ClassDecl.routines).mem_iff, flatMap_map]
  simp only [ClassDecl.routines_renumber, ← map_flatMap]
  refine ⟨?_, mem_map_of_mem⟩
  intro hMem
  obtain ⟨m', hm', hEq⟩ := mem_map.mp hMem
  exact hρ.method hEq ▸ hm'

/-- The variables of all bodies are recorded alike. -/
theorem TypedApart.infos (h : p.Typable env) (hEnv : p.Corresponds ρ env env') (hSame : SameUpTo ρ p p')
    (hx : p.TypedApart env x) (hx' : p'.TypedApart env' x') (m : MethodId) :
    x'.value.2.types.methodInfo (ρ.method m) = (x.value.2.types.methodInfo m).renumber ρ := by
  by_cases hm : m ∈ p.classes.flatMap ClassDecl.routines
  · obtain ⟨d, hd, hm⟩ := mem_flatMap.mp hm
    have hMem : d.renumber ρ ∈ p'.classes := hSame.classes.mem_iff.mpr (mem_map_of_mem hd)
    have hOwn : ρ.method m ∈ (d.renumber ρ).routines := by
      rw [ClassDecl.routines_renumber]
      exact mem_map_of_mem hm
    rw [hx.own d hd m hm, hx'.own _ hMem _ hOwn]
    exact (h.copied_class hEnv hd).own m hm
  · have hm' := mt (hSame.mem_routines_iff hEnv.types.faithful m).mp hm
    rw [hx.others m hm, hx'.others _ hm', hEnv.infos]

def renumber (ρ : Renumbering) (p : Program) : Program :=
  ⟨p.classes.map (ClassDecl.renumber ρ), p.main.renumber ρ⟩

theorem Typable.renumber (h : p.Typable env) (hEnv : p.Corresponds ρ env env') :
    (p.renumber ρ).Typable env' := by
  have hRoutines : (p.renumber ρ).classes.flatMap ClassDecl.routines =
      (p.classes.flatMap ClassDecl.routines).map ρ.method := by
    simp only [Program.renumber, flatMap_map, ClassDecl.routines_renumber, map_flatMap]
  exact ⟨hRoutines ▸ h.distinct.map fun m m' hEq => hEnv.types.faithful.method hEq, hRoutines ▸ hEnv.ready⟩

/-- Bodies are typed the same under other numbers. -/
theorem TypedApart.renumbered (h : p.Typable env) (hEnv : p.Corresponds ρ env env')
    (hGlobals : env'.globals = env.globals.renumber ρ) (hx : p.TypedApart env x)
    (hx' : (p.renumber ρ).TypedApart env' x') :
    x'.value.1 = x.value.1.renumber ρ ∧ x'.log = x.log ∧
      x'.value.2.globals = x.value.2.globals.renumber ρ := by
  have hClass := fun d hd => h.copied_class hEnv (d := d) hd
  obtain ⟨hMain, hMainLog, hMainGlobals⟩ :=
    p.main.copied_analyze hEnv.types h.ready.1 hEnv.ready.1 hGlobals
  have hClasses : x'.value.1.classes = x.value.1.classes.map (ClassDecl.renumber ρ) := by
    rw [hx.classes, hx'.classes, map_map, Program.renumber, map_map]
    exact map_congr_left fun d hd => (hClass d hd).value
  refine ⟨?_, ?_, ?_⟩
  · show Program.mk x'.value.1.classes x'.value.1.main = _
    rw [hClasses, hx'.main, Program.renumber, hMain, Program.renumber, hx.main]
  · rw [hx.log, hx'.log, Program.renumber, hMainLog, flatMap_map]
    exact congrArg (· ++ _) (flatMap_congr fun d hd => (hClass d hd).log)
  · rw [hx.globals, hx'.globals, Program.renumber, hMainGlobals]

/-- Bodies are typed alike in environments that are alike. -/
theorem TypedApart.alike (h : p.Typable env) (hPosition : env'.position = {}) (hAlike : env.Alike ρ env')
    (hGlobals : env'.globals = env.globals.renumber ρ) (hSame : SameUpTo ρ p p') (hx : p.TypedApart env x)
    (hx' : p'.TypedApart env' x') : TypedAlike ρ x x' := by
  have hEnv := h.corresponds hAlike hPosition
  have hClass := fun d hd => h.copied_class hEnv (d := d) hd
  obtain ⟨hMain, hMainLog, hMainGlobals⟩ :=
    p.main.copied_analyze hAlike.types h.ready.1 hPosition hGlobals
  constructor
  case classes =>
    rw [hx.classes, hx'.classes, map_map]
    refine (hSame.classes.map _).trans (List.Perm.of_eq ?_)
    rw [map_map]
    exact map_congr_left fun d hd => (hClass d hd).value
  case main => rw [hx.main, hx'.main, hSame.main, hMain]
  case log =>
    rw [hx.log, hx'.log, hSame.main, hMainLog]
    refine List.Perm.append_right _ ((hSame.classes.flatMap_right _).trans (List.Perm.of_eq ?_))
    rw [flatMap_map]
    exact flatMap_congr fun d hd => (hClass d hd).log
  case alike =>
    exact hAlike.of_interface hx.interface hx'.interface (hx.infos h hEnv hSame hx')
  case globals => rw [hx.globals, hx'.globals, hSame.main, hMainGlobals]

end Program
end TLang
