import TLang.Proofs.Independence

/-! The registry after the analysis of any program, whatever is reported. Bodies do not change the tables
of classes, and they are typed apart from each other. -/
namespace TLang

open Registry Analysis

/-- Bodies do not change the tables of classes. -/
theorem Registry.SameInterface.consistent {r r' : Registry} (h : SameInterface r r')
    (hConsistent : r.Consistent) : r'.Consistent where
  lineal := hConsistent.lineal.of_outline h.outline
  tidy := by
    intro c
    have hOld := hConsistent.tidy c
    constructor
    all_goals simp only [h.classInfo, h.signature, h.length]
    · exact hOld.table
    · exact hOld.distinct
    · exact hOld.bounded
    · exact hOld.fields
  lookups := by
    rw [h.classes]
    intro c hc name
    rw [h.fieldType, ← hConsistent.lookups c hc name, lookupField, h.classInfo, lookupField]
  tables := by
    rw [h.classes, h.classInfo]
    intro c hc
    rw [h.dispatchTable]
    exact hConsistent.tables c hc

namespace Program

open ClassDecl

variable {p : Program}

/-- Bodies are typed apart from each other, in the environment that the declarations left. -/
theorem typedApart (hFresh : p.isFresh = true) :
    TypedApart ⟨(declareClasses p.classes {}).value.1, p.main⟩ (declareClasses p.classes {}).value.2
      (analyzeBodies ⟨(declareClasses p.classes {}).value.1, p.main⟩
        (declareClasses p.classes {}).value.2) := by
  have hEstablished := established_declareClasses fun d hd => resolved_of_isFresh hFresh hd
  exact typedApart_analyzeBodies _ hEstablished.apart.nodup ⟨hEstablished.position, hEstablished.apart.bounded⟩

theorem value_analyze (p : Program) (env : Env) : (p.analyze env).value =
    (analyzeBodies ⟨(declareClasses p.classes env).value.1, p.main⟩
      (declareClasses p.classes env).value.2).value := by
  rw [analyze, value_bind]

/-- What the analysis of a program leaves in the registry, whatever was reported. -/
theorem consistent_analyze (hFresh : p.isFresh = true) : let env := (p.analyze {}).value.2
    env.types.Consistent ∧
      env.types.classes.map ClassInfo.name = objectName :: (firsts p.classes).map ClassDecl.name ∧
      ∀ i d, Registers p.classes i d → (env.types.classInfo (place p.classes i)).fields =
        Bindings.extend [] (d.fieldEntries env) := by
  have hEstablished := established_declareClasses fun d hd => resolved_of_isFresh hFresh hd
  have hInterface := (typedApart hFresh).interface
  rw [value_analyze]
  generalize declareClasses p.classes {} = declared at hEstablished hInterface
  generalize analyzeBodies ⟨declared.value.1, p.main⟩ declared.value.2 = bodies at hInterface
  refine ⟨hInterface.consistent hEstablished.consistent, ?_, ?_⟩
  · exact (names_of_outline hInterface.outline).trans hEstablished.names
  · intro i d hd
    simp only [hInterface.classInfo, d.fieldEntries_of_outline hInterface.outline]
    exact hEstablished.fields i d hd

end Program

/-! What analysis makes of a program, seen from its declarations. -/

namespace Program

variable {p : Program}

/-- The classes of a program once they are settled, with bodies as they were read. -/
def settledClasses (p : Program) : List ClassDecl := (declareClasses p.classes {}).value.1

/-- The environment in which the typing of bodies starts. -/
def outset (p : Program) : Env := (declareClasses p.classes {}).value.2

variable (hFresh : p.isFresh = true)
include hFresh

theorem settles :
    SettlesClasses p.classes p.settledClasses p.outset (declareClasses p.classes {}).log :=
  settles_declareClasses fun _ hd => resolved_of_isFresh hFresh hd

theorem analyzed_classes :
    p.analyzed.classes = p.settledClasses.map fun d => (d.analyzeBodies p.outset).value.1 := by
  rw [analyzed, value_analyze, (typedApart hFresh).classes]
  rfl

theorem analyzed_main : p.analyzed.main = (p.main.analyze p.outset).value.1 := by
  rw [analyzed, value_analyze, (typedApart hFresh).main]
  rfl

theorem sameInterface_env : SameInterface p.outset.types p.env.types := by
  rw [env, value_analyze]
  exact (typedApart hFresh).interface

theorem diagnostics_eq : p.diagnostics = (declareClasses p.classes {}).log ++
      ((p.settledClasses.flatMap fun d => (d.analyzeBodies p.outset).log) ++
        (p.main.analyze p.outset).log) := by
  rw [diagnostics, analyze, log_bind, (typedApart hFresh).log]
  rfl

end Program
end TLang
