import TLang.Proofs.Arithmetic.Preservation
import TLang.Proofs.Machine.Addresses
import TLang.Proofs.Machine.Calls

/-! The calling convention. Whoever calls a routine pushes the arguments, the last one first, and then the
receiver, and takes them off the stack when the routine has returned; the routine finds them at fixed
distances from its frame. -/
namespace TLang

open Emit Machine List

variable {code : List Line} {args : List Expr} {e : Expr} {done : Label}

section

variable (σ : Setting) (code : List Line)

/-- Arguments are evaluated, the last one first, each by the code generated for it. The value of an argument
is the word that its code leaves on top of the stack. -/
inductive Evaluates : EmitState → Config → List Expr → List Word → EmitState → Config → Prop where
  | nil {s : EmitState} {c : Config} : Evaluates s c [] [] s c
  | cons {s s' t : EmitState} {c c' : Config} {e : Expr} {rest : List Expr} {values : List Word}
      {ls : List Line} {stop : Nat} {m : Machine} (hRest : Evaluates s c rest values s' c')
      (hCode : e.code σ.types s' = ⟨(.ok (), t), ls⟩) (hPlace : ls <+: code.drop c'.line)
      (hStop : stop = c'.line + ls.length) (hRun : Config.Runs σ code c' ⟨stop, m⟩) :
      Evaluates s c (e :: rest) (m.view.word 0 :: values) t ⟨stop, m⟩

end

variable {σ : Setting} {types : Registry} {host : Host} {frame : Word} {before ls after : List Line}
  {s t : EmitState} {ws values : List Word} {m m' : Machine}

theorem Machine.Passes.track {post : Machine → Prop} (h : m.Passes σ before ls after post) :
    m.Passes σ before ls after fun m' => post m' ∧
      Config.Runs σ (before ++ ls ++ after) ⟨before.length, m⟩ ⟨(before ++ ls).length, m'⟩ := by
  intro c hc
  refine (h c hc).imp_right ?_
  rintro ⟨m', hPost, hRun, hOn⟩
  exact ⟨m', ⟨hPost, hRun⟩, hRun, hOn⟩

theorem Evaluates.length_eq {c c' : Config} (h : Evaluates σ code s c args values t c') :
    values.length = args.length := by
  induction h with
  | nil => rfl
  | cons _ _ _ _ _ ih => exact congrArg (· + 1) ih

section

variable {s₁ : EmitState} {call : Instr} {is drops result : List Instr} {argLines : List Line}

end

def Registry.callRoutine (types : Registry) (callee : MethodId) : Instr :=
  .call (.symbol (types.methodInfo callee).label)

/-- The instruction that calls a method. -/
def Receiver.call (types : Registry) (callee : MethodId) : Receiver Expr → Instr
  | super => types.callRoutine callee
  | implicit | object _ => .callReg .eax

end TLang
