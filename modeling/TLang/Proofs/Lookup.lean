import TLang.Proofs.FieldLayout

/-! What a variable refers to. In the body of a method a name stands for a variable of the body, for a
parameter or for a field of the class, in this order. In the main block it stands for a variable of the
block. -/
namespace TLang

open Registry

/-- A variable of the body of a method. -/
def MethodInfo.localVariable (method : MethodInfo) (name : String) : Option (Ty × Storage) := do
  let slot ← method.locals.names.position? name
  let ty ← method.locals.names.type? name
  return (ty, .localVar slot)

namespace Env

variable {env : Env} {m : MethodId}

theorem method?_of_scope (hScope : env.position.scope = .method m) :
    env.method? = some (env.types.methodInfo m) := by
  rcases hPosition : env.position with ⟨inMain, _ | c, _ | m'⟩ <;>
    simp_all [Position.scope, Env.method?, Position.method?]

theorem method?_of_program (hScope : env.position.scope = .program) : env.method? = none := by
  rcases hPosition : env.position with ⟨inMain, _ | c, _ | m'⟩ <;>
    simp_all [Position.scope, Env.method?, Position.method?]

theorem resolveVariable_of_program (hScope : env.position.scope = .program) (name : String) :
    env.resolveVariable name = (env.globals.names.type? name).map fun ty => (ty, .mainVar) := by
  rw [resolveVariable, scopeTable, hScope, method?_of_program hScope]
  cases env.globals.names.type? name <;> rfl

/-- In a method, variables are looked for before parameters and these before fields. -/
theorem resolveVariable_of_method (hScope : env.position.scope = .method m) (name : String) :
    env.resolveVariable name = (((env.types.methodInfo m).localVariable name).or
      ((env.types.methodInfo m).paramVariable name)).or (env.fieldVariable (env.types.methodInfo m) name) := by
  rw [resolveVariable, scopeTable, hScope, method?_of_scope hScope, MethodInfo.localVariable]
  cases hType : (env.types.methodInfo m).locals.names.type? name with
  | none => cases (env.types.methodInfo m).locals.names.position? name <;> simp
  | some ty =>
    cases hSlot : (env.types.methodInfo m).locals.names.position? name with
    | none =>
      rw [Bindings.type?_eq_none_iff.mpr (Bindings.position?_eq_none_iff.mp hSlot)] at hType
      cases hType
    | some slot => simp

/-- A field is found in the class that owns the method. -/
theorem fieldVariable_eq_some_iff (hScope : env.position.scope = .method m) {name : String} {ty : Ty}
    {storage : Storage} : env.fieldVariable (env.types.methodInfo m) name = some (ty, storage) ↔
      env.types.lookupField (env.types.methodInfo m).owner name = some ty ∧
        ∃ offset, env.types.fieldOffset (env.types.methodInfo m).owner name = some offset ∧
          storage = .field offset := by
  simp only [fieldVariable, enclosingTable, hScope, Option.bind_eq_bind, Option.bind_some, Option.pure_def,
    Option.bind_eq_some_iff, Option.some.injEq, Prod.mk.injEq, lookupField]
  constructor
  · rintro ⟨ty', hType, offset, hOffset, rfl, rfl⟩
    exact ⟨hType, offset, hOffset, rfl⟩
  · rintro ⟨hType, offset, hOffset, rfl⟩
    exact ⟨ty, hType, offset, hOffset, rfl, rfl⟩

end Env
end TLang
