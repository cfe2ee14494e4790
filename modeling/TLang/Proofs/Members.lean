import TLang.Analysis.Members
import TLang.Proofs.Fresh
import TLang.Proofs.Parts
import TLang.Proofs.Registry.Contents
import TLang.Proofs.Steps

/-! Declaring members. As long as nothing terminal is reported, the tables of the registry stay
coherent, every method declaration is recorded in its class, and every type that is recorded is
known. -/
namespace TLang

variable {env' env'' : Env}

variable {names : String → Prop} {id : ClassId} {env : Env}

/-- Only the registry changes, and only in a way that `R` allows. -/
structure Env.Along (R : Registry → Registry → Prop) (env env' : Env) : Prop where
  types : R env.types env'.types
  globals : env'.globals = env.globals
  position : env'.position = env.position

theorem Env.Along.trans {R : Registry → Registry → Prop} (h : env.Along R env') (h' : env'.Along R env'')
    (hTrans : ∀ r r' r'', R r r' → R r' r'' → R r r'') : env.Along R env'' :=
  ⟨hTrans _ _ _ h.types h'.types, h'.globals.trans h.globals, h'.position.trans h.position⟩

/-- While the members of one class are declared, the registry only grows. -/
abbrev Env.Grows (id : ClassId) : Env → Env → Prop := Env.Along (Registry.Grows id)

namespace Env.Grows

theorem refl (id : ClassId) (env : Env) : env.Grows id env := ⟨.refl id env.types, rfl, rfl⟩

theorem trans (h : env.Grows id env') (h' : env'.Grows id env'') : env.Grows id env'' :=
  Env.Along.trans h h' fun _ _ _ => Registry.Grows.trans

theorem of_types {types : Registry} (h : Registry.Grows id env.types types) :
    env.Grows id { env with types } := ⟨h, rfl, rfl⟩

end Env.Grows

namespace Registry

/-- The class records the declared method under the number `m`. -/
structure Records (r : Registry) (c : ClassId) (m : MethodId) (d : MethodDecl) : Prop where
  mem : m ∈ (r.classInfo c).methods
  lt : m.index < r.methods.length
  kind : (r.methodInfo m).kind = d.kind
  name : (r.methodInfo m).name = d.name

/-- The table of a class has no name but those of its own fields. -/
def FieldsOpen (r : Registry) (c : ClassId) : Prop :=
  (r.classInfo c).members.names = (r.classInfo c).fields

end Registry

namespace Member

/-- A member that may be declared: the body of a method is as it was read, and the names of plain
methods and of those called are ones that `names` allows. -/
def Declarable (names : String → Prop) : Member → Prop
  | field _ => True
  | method d => (d.kind = .method → names d.name) ∧ Stmt.areFresh d.body = true ∧
      Stmt.CallBy names (Stmt.partsOfAll d.body)

/-- The class records the member, if it is a method. -/
def DeclaredIn (r : Registry) (c : ClassId) : Member → Prop
  | field _ => True
  | method d => ∃ m, d.resolved = some m ∧ r.Records c m d

end Member

open Registry

/-- A type that is found is known. -/
theorem Env.resolveTypeName_quiet (hFound : env.types.FoundByName) {line : Nat} {type : TypeName}
    (hQuiet : Quiet (env.resolveTypeName line type).log) :
    (env.resolveTypeName line type).log = [] ∧
      env.types.IsStored (env.resolveTypeName line type).value := by
  cases type with
  | int => exact ⟨rfl, trivial⟩
  | named name =>
    cases hClass : env.types.lookupClass name with
    | some c =>
      simp only [Env.resolveTypeName, hClass]
      exact ⟨rfl, ((hFound name c).mp hClass).1⟩
    | none =>
      simp only [Env.resolveTypeName, hClass] at hQuiet
      exact absurd hQuiet (Quiet.not_report_bind rfl)

namespace Analysis

variable {allowed : Fault → Prop}

section

variable (hFound : env.types.FoundByName)
include hFound

theorem ensures_resolveTypeName (line : Nat) (type : TypeName) :
    Ensures (read fun env => env.resolveTypeName line type) env allowed fun ty env' =>
      env' = env ∧ env.types.IsStored ty := by
  refine Ensures.read ?_
  intro hQuiet
  obtain ⟨hLog, hTy⟩ := Env.resolveTypeName_quiet hFound hQuiet
  exact ⟨by simp [hLog], rfl, hTy⟩

/-- If nothing terminal is reported, the types of parameters are types of values that exist. -/
theorem ensures_resolveParams (method : String) (params : List Param) (known : Bindings)
    (hKnown : ∀ ty ∈ known.types, env.types.IsStored ty) :
    Ensures (resolveParams method params known) env allowed fun bindings env' =>
      env' = env ∧ ∀ ty ∈ bindings.types, env.types.IsStored ty := by
  induction params generalizing known with
  | nil => exact Ensures.pure ⟨rfl, hKnown⟩
  | cons p params ih =>
    refine Ensures.bind (ensures_resolveTypeName hFound p.line p.type) ?_
    rintro ty env' ⟨rfl, hTy⟩
    cases hAdd : known.add? p.name ty with
    | none => exact Ensures.report_terminal_bind rfl
    | some extended =>
      obtain ⟨-, rfl⟩ := Bindings.add?_eq_some_iff.mp hAdd
      refine ih _ ?_
      intro t ht
      simp only [Bindings.types, List.map_append, List.mem_append, List.map_cons, List.map_nil,
        List.mem_singleton] at ht
      rcases ht with ht | rfl
      · exact hKnown t ht
      · exact hTy

theorem ensures_resolveReturn (className : String) (d : MethodDecl) :
    Ensures (resolveReturn className d) env allowed fun returns env' =>
      env' = env ∧ (d.kind = .method → ∃ ty, returns = some ty ∧ env.types.IsStored ty) := by
  cases hKind : d.kind with
  | method =>
    cases hReturns : d.returns with
    | none =>
      simp only [resolveReturn, hKind, hReturns]
      exact Ensures.report_terminal_bind rfl
    | some type =>
      simp only [resolveReturn, hKind, hReturns]
      refine Ensures.bind (ensures_resolveTypeName hFound _ _) ?_
      rintro ty env' ⟨rfl, hTy⟩
      exact Ensures.pure ⟨rfl, fun _ => ⟨ty, rfl, hTy⟩⟩
  | constructor | destructor =>
    cases hReturns : d.returns with
    | none =>
      simp only [resolveReturn, hKind, hReturns]
      exact Ensures.pure ⟨rfl, nofun⟩
    | some type =>
      simp only [resolveReturn, hKind, hReturns]
      exact Ensures.report_terminal_bind rfl

end

/-- A constructor is named like its class, unless something terminal is reported. -/
theorem ensures_checkShape (className : String) (d : MethodDecl) :
    Ensures (checkShape className d) env allowed fun _ env' =>
      env' = env ∧ (d.kind = .constructor → d.name = className) := by
  cases hKind : d.kind with
  | method =>
    simp only [checkShape, hKind]
    exact Ensures.pure ⟨rfl, nofun⟩
  | constructor =>
    simp only [checkShape, hKind]
    by_cases hName : d.name = className
    · rw [if_pos hName]
      exact Ensures.pure ⟨rfl, fun _ => hName⟩
    · rw [if_neg hName]
      exact Ensures.report_terminal rfl
  | destructor =>
    simp only [checkShape, hKind]
    split
    · exact Ensures.pure ⟨rfl, nofun⟩
    · exact Ensures.report_terminal rfl

end Analysis

namespace ClassDecl

open Analysis

/-- A class is known under the name of its declaration, and its members may be declared. -/
structure Linked (names : String → Prop) (r : Registry) (d : ClassDecl) (id : ClassId) : Prop where
  resolved : d.resolved = some id
  registered : id.index < r.classes.length
  below : id ≠ object
  name : (r.classInfo id).name = d.name
  members : ∀ member ∈ d.members, member.Declarable names

theorem Linked.of_outline {r r' : Registry} {d : ClassDecl} (h : d.Linked names r id)
    (hOutline : r'.outline = r.outline) : d.Linked names r' id where
  resolved := h.resolved
  registered := length_classes_of_outline hOutline ▸ h.registered
  below := h.below
  name := name_of_outline hOutline id ▸ h.name
  members := h.members

/-- All members are declared. -/
def MembersDeclared (r : Registry) (id : ClassId) (d : ClassDecl) : Prop :=
  ∀ member ∈ d.members, member.DeclaredIn r id

end ClassDecl
end TLang
