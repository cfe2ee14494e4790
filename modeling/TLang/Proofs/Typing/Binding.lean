import TLang.Proofs.Typing.Scope

/-! How the invocations in a tree were bound. Whether or not all variables are declared, every call,
instantiation or hand-over to a constructor for which analysis settled on a routine was resolved by
the types of its arguments, and these have values. -/
namespace TLang

open Registry

variable {args : List Expr} {e : Expr}

variable {names : String → Prop} {Γ : Env} {s : Stmt}

/-- The routine that a node invokes, with the arguments that it passes. -/
def Expr.invocation? : Expr → Option (List Expr × MethodId)
  | .call _ _ _ args method _ | .new _ _ args _ method => method.map fun m => (args, m)
  | _ => none

/-- The constructor that a statement hands over to, with the arguments that it passes. -/
def Stmt.invocation? : Stmt → Option (List Expr × MethodId)
  | .construct _ _ args constructor => constructor.map fun m => (args, m)
  | _ => none

namespace Env

variable {env : Env}

/-- The routine was selected by the types of the arguments as they were written, which have
values. -/
def Resolves (names : String → Prop) (Γ : Env) (args : List Expr) (m : MethodId) : Prop :=
  (∃ c kind name, Γ.Selects names c kind name args m) ∧ ∀ a ∈ args, Γ.types.IsValue a.unwidened.ty

/-- Every invocation inside the expression is resolved. -/
def Bound (names : String → Prop) (Γ : Env) (e : Expr) : Prop :=
  ∀ (part : Expr) args m, part.IsPart e → part.invocation? = some (args, m) → Γ.Resolves names args m

theorem Below.resolves (h : env.Below Γ) {m : MethodId} (hResolves : env.Resolves names args m) :
    Γ.Resolves names args m := by
  obtain ⟨⟨c, kind, name, hSelects⟩, hValues⟩ := hResolves
  refine ⟨⟨c, kind, name, h.selects hSelects⟩, fun a ha => ?_⟩
  exact (hValues a ha).imp id (isStored_of_outline h.interface.outline _).mpr

theorem Below.bound (h : env.Below Γ) (hBound : env.Bound names e) : Γ.Bound names e :=
  fun part args m hPart hInvocation => h.resolves (hBound part args m hPart hInvocation)

namespace Bound

variable {e : Expr}

/-- A node is bound if it is resolved, should it invoke anything, and its operands are bound. -/
theorem of_operands (hOwn : ∀ args m, e.invocation? = some (args, m) → env.Resolves names args m)
    (hOperands : ∀ operand ∈ e.operands, env.Bound names operand) : env.Bound names e := by
  intro part args m hPart hInvocation
  cases hPart with
  | refl => exact hOwn args m hInvocation
  | step hOperand hPart => exact hOperands _ hOperand part args m hPart hInvocation

/-- A node that invokes nothing is bound if its operands are. -/
theorem node (hNone : e.invocation? = none) :
    (∀ operand ∈ e.operands, env.Bound names operand) → env.Bound names e :=
  of_operands fun args m hSome => by simp [hNone] at hSome

theorem operand {operand : Expr} (h : env.Bound names e) (hOperand : operand ∈ e.operands) :
    env.Bound names operand :=
  fun part args m hPart => h part args m (.step hOperand hPart)

theorem widen (h : env.Bound names e) (ty : Ty) : env.Bound names (e.widen ty) :=
  .node rfl (by simpa [Expr.widen, Expr.operands] using h)

end Bound

theorem bound_pair {left right : Expr} :
    (∀ e ∈ [left, right], env.Bound names e) ↔ env.Bound names left ∧ env.Bound names right := by
  simp

theorem bound_convertArgs (hArgs : ∀ a ∈ args, env.Bound names a) (resolution : Resolution) :
    ∀ a ∈ env.convertArgs resolution args, env.Bound names a := by
  intro a ha
  rw [convertArgs] at ha
  split at ha
  · exact hArgs a ha
  · obtain ⟨⟨arg, ty⟩, hPair, rfl⟩ := List.mem_map.mp ha
    have hArg := hArgs arg (List.of_mem_zip hPair).1
    simp only
    split
    · exact hArg
    · exact hArg.widen ty

end Env

/-- Every invocation of the statement itself is resolved. The statements inside it are not looked
at. -/
def Stmt.Bound (names : String → Prop) (Γ : Env) (s : Stmt) : Prop :=
  (∀ e ∈ s.operands, Γ.Bound names e) ∧
    ∀ args m, s.invocation? = some (args, m) → Γ.Resolves names args m

/-- A statement that invokes nothing is bound if its operands are. -/
theorem Stmt.Bound.of_operands (hNone : s.invocation? = none) (hOperands : ∀ e ∈ s.operands, Γ.Bound names e) :
    s.Bound names Γ :=
  ⟨hOperands, fun args m hSome => by simp [hNone] at hSome⟩

theorem Stmt.Bound.of_operand (hOperands : s.operands = [e]) (hNone : s.invocation? = none)
    (h : Γ.Bound names e) : s.Bound names Γ :=
  .of_operands hNone (hOperands ▸ List.forall_mem_singleton.mpr h)

theorem Env.Below.boundStmt {env : Env} (h : env.Below Γ) (hBound : s.Bound names env) : s.Bound names Γ :=
  ⟨fun e he => h.bound (hBound.1 e he), fun args m hSome => h.resolves (hBound.2 args m hSome)⟩

/-- The statements are bound, each of them for itself. -/
def Stmt.AllBound (names : String → Prop) (ss : List Stmt) (Γ : Env) : Prop :=
  ∀ s ∈ ss, s.Bound names Γ

namespace Stmt.AllBound

variable {ss ss' : List Stmt}

theorem nil : AllBound names [] Γ := nofun

theorem cons (h : s.Bound names Γ) (hs : AllBound names ss Γ) : AllBound names (s :: ss) Γ :=
  List.forall_mem_cons.mpr ⟨h, hs⟩

theorem single (h : s.Bound names Γ) : AllBound names [s] Γ := .cons h .nil

theorem append (h : AllBound names ss Γ) (h' : AllBound names ss' Γ) : AllBound names (ss ++ ss') Γ :=
  List.forall_mem_append.mpr ⟨h, h'⟩

theorem flatMap {α : Type} {as : List α} {f : α → List Stmt} (h : ∀ a ∈ as, AllBound names (f a) Γ) :
    AllBound names (as.flatMap f) Γ := by
  intro s hs
  obtain ⟨a, ha, hs⟩ := List.mem_flatMap.mp hs
  exact h a ha s hs

end Stmt.AllBound
end TLang
