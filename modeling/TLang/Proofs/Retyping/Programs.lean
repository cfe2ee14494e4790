import TLang.Proofs.Overloading
import TLang.Proofs.Retyping.Expressions
import TLang.Proofs.Traversal

/-! Typed expressions in whole programs. Once the classes of a program with plain names are declared and
nothing terminal was reported, an expression that is typed without a report is typed to itself, wherever
bodies are typed. -/
namespace TLang.Program

open Registry

variable {p : Program} {env : Env} {e : Expr}

/-- Typing is idempotent. An expression is read at the same places, widened to the same types and bound to the
same storage and routines if it is typed once more, and again nothing is reported in it. Names with a separator
are left out, since widened arguments could then spell the signature of another method. -/
theorem typing_idempotent (hFresh : p.isFresh = true) (hNames : p.PlainlyNamed)
    (hQuiet : Quiet (declareClasses p.classes {}).log) (hReached : p.Reaches env) (hExpr : e.isFresh = true)
    (hSilent : (e.analyze env).log = []) :
    ((e.analyze env).value.analyze env).log = [] ∧
      ((e.analyze env).value.analyze env).value = (e.analyze env).value := by
  have hTyped : (e.analyze env).value.Typed env :=
    Expr.typed_of_analyze ((legible_outset hFresh hQuiet hNames).plainlyNamed.of_interface
      (hReached.interface hFresh).2) e hExpr (Logged.eq_pure_of_log hSilent)
  rw [hTyped.again]
  exact ⟨rfl, rfl⟩

/-- A class whose method is hidden by an overload in a subclass, unless its parameter fits exactly. -/
def veiled : Program where
  classes := [
    { line := 1, name := "A", members := [
      .field { line := 2, type := .named "A", names := ["next"] },
      .method { line := 3, name := "f", returns := some .int, params := [⟨3, .named "B", "b"⟩]
                body := [.ret 4 (some (.int 4 1)) none] }] },
    { line := 5, name := "B", parent := some "A", members := [
      .method { line := 6, name := "f", returns := some .int, params := [⟨6, .named "A", "a"⟩]
                body := [.declare 7 (.named "B") ["b"], .ret 8 (some (.int 8 2)) none] }] }]
  main := ⟨9, []⟩

/-- In the subclass, `f(null) + (f(b.next = b) + f(b))` takes the nearer overload for `null`, which is
widened, and for the value of the assignment, in which `b` is widened, and the one it hides for `b`. -/
theorem typing_idempotent_veiled : let b : Expr := .var 8 "b" none
    let f : Expr → Expr := fun arg => .call 8 .implicit "f" [arg] none none
    let stored : Expr := .assign 8 (.field 8 b "next" none) b
    let sum : Expr := .binary 8 .add (f (.null 8)) (.binary 8 .add (f stored) (f b))
    veiled.isFresh = true ∧ veiled.PlainlyNamed ∧ Quiet (declareClasses veiled.classes {}).log ∧
      sum.isFresh = true ∧ ∃ env, veiled.Reaches env ∧ (sum.analyze env).log = [] ∧
        (sum.analyze env).value.ty = .int ∧ ((sum.analyze env).value.analyze env).log = [] ∧
        ((sum.analyze env).value.analyze env).value = (sum.analyze env).value := by
  intro b f stored sum
  have hFresh : veiled.isFresh = true := by decide
  have hNames : veiled.PlainlyNamed := ⟨by decide, by decide⟩
  have hQuiet : Quiet (declareClasses veiled.classes {}).log := by decide +kernel
  have hExpr : sum.isFresh = true := by decide
  have hRun : ∃ s ∈ veiled.methodStarts,
      (sum.analyze (s.env.after ((Stmt.eventsOfAll s.decl.fullBody).take 1))).log = [] ∧
      (sum.analyze (s.env.after ((Stmt.eventsOfAll s.decl.fullBody).take 1))).value.ty = .int := by
    decide +kernel
  obtain ⟨s, hs, hSilent, hTy⟩ := hRun
  have hReached : veiled.Reaches (s.env.after ((Stmt.eventsOfAll s.decl.fullBody).take 1)) :=
    ⟨_, _, _, .method hs, List.take_prefix 1 _, rfl⟩
  exact ⟨hFresh, hNames, hQuiet, hExpr, _, hReached, hSilent, hTy,
    typing_idempotent hFresh hNames hQuiet hReached hExpr hSilent⟩

end TLang.Program
