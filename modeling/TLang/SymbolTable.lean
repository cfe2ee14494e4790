import TLang.Ty

/-! Tables of declared names. Declarations keep their order, because the order of locals and fields
fixes where they are stored. -/
namespace TLang

/-- Names with their types, in order of declaration. -/
abbrev Bindings := List (String × Ty)

namespace Bindings

def names (b : Bindings) : List String := b.map Prod.fst

def types (b : Bindings) : List Ty := b.map Prod.snd

def declares (b : Bindings) (name : String) : Bool := b.any (·.1 == name)

/-- The type of the first declaration of a name. -/
def type? (b : Bindings) (name : String) : Option Ty := (b.find? (·.1 == name)).map Prod.snd

/-- The rank of the first declaration of a name. -/
def position? (b : Bindings) (name : String) : Option Nat := b.findIdx? (·.1 == name)

/-- Declare a name that is not declared yet. -/
def add? (b : Bindings) (name : String) (ty : Ty) : Option Bindings :=
  if b.declares name then none else some (b ++ [(name, ty)])

/-- Declare a name, or keep the declaration it already has. -/
def addNew (b : Bindings) (entry : String × Ty) : Bindings :=
  (b.add? entry.1 entry.2).getD b

/-- Declare, in order, all names that are not declared yet. -/
def extend (b : Bindings) (more : Bindings) : Bindings := more.foldl addNew b

@[simp] theorem names_append (b more : Bindings) :
    Bindings.names (b ++ more) = b.names ++ more.names := by
  simp [names]

@[simp] theorem declares_iff {b : Bindings} {name : String} : b.declares name ↔ name ∈ b.names := by
  simp [declares, names]

theorem add?_eq_none_iff {b : Bindings} {name : String} {ty : Ty} :
    b.add? name ty = none ↔ name ∈ b.names := by
  simp [add?]

theorem add?_eq_some_iff {b extended : Bindings} {name : String} {ty : Ty} :
    b.add? name ty = some extended ↔ name ∉ b.names ∧ extended = b ++ [(name, ty)] := by
  by_cases hName : name ∈ b.names
  · simp [add?, hName]
  · rw [add?, if_neg (by simpa using hName), Option.some.injEq]
    exact ⟨fun hEq => ⟨hName, hEq.symm⟩, fun h => h.2.symm⟩

theorem type?_eq_none_iff {b : Bindings} {name : String} : b.type? name = none ↔ name ∉ b.names := by
  simp only [type?, Option.map_eq_none_iff, List.find?_eq_none, names, List.mem_map, beq_iff_eq]
  exact ⟨fun h ⟨entry, hMem, hEq⟩ => h entry hMem hEq, fun h entry hMem hEq => h ⟨entry, hMem, hEq⟩⟩

/-- Earlier declarations hide later ones. -/
theorem type?_append (b more : Bindings) (name : String) :
    Bindings.type? (b ++ more) name = (b.type? name).or (more.type? name) := by
  simp [type?, List.find?_append]
  cases b.find? (·.1 == name) <;> rfl

theorem position?_eq_none_iff {b : Bindings} {name : String} :
    b.position? name = none ↔ name ∉ b.names := by
  simp only [position?, List.findIdx?_eq_none_iff, names, List.mem_map, beq_eq_false_iff_ne]
  exact ⟨fun h ⟨entry, hMem, hEq⟩ => h entry hMem hEq, fun h entry hMem hEq => h ⟨entry, hMem, hEq⟩⟩

end Bindings

/-- The names of a scope, and beside them the methods it declares, indexed by signature. The two
never clash: a field and a method may share a name. -/
structure SymbolTable where
  names : Bindings := []
  methods : Bindings := []
deriving DecidableEq

namespace SymbolTable

def install? (t : SymbolTable) (name : String) (ty : Ty) : Option SymbolTable :=
  (t.names.add? name ty).map fun names => { t with names }

def installMethod? (t : SymbolTable) (signature : String) (ty : Ty) : Option SymbolTable :=
  (t.methods.add? signature ty).map fun methods => { t with methods }

end SymbolTable
end TLang
