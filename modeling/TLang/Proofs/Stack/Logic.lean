import TLang.Code.Expr

/-! What is common to all accounts of the code of expressions. Apart from divisions, allocations and
assignments, it is made of instructions that go on with the next line, keep the frame, store nothing and
move the stack by a known number of words. -/
namespace TLang

/-- A register to compute in. -/
def Reg.isScratch : Reg → Bool
  | eax | ecx | edx => true
  | esp | ebp => false

namespace Instr

/-- The instruction leaves the stack as high as it is, keeps the frame, stores nothing and goes on with the
next line. Routines that are called may store. -/
def isLevel : Instr → Bool
  | arith _ _ r | lea _ r | neg r | mov _ (.reg r) => r.isScratch
  | set _ | extendByte | extendSign | idiv _ | call _ | callReg _ => true
  | mov _ (.imm _) | mov _ (.addr _) | mov _ (.mem _ _) | push _ | pop _ | jump _ | jumpIf _ _ | ret => false

/-- The instructions lead from one number of words on the stack to another. -/
inductive Shifts : Nat → List Instr → Nat → Prop where
  | nil {n : Nat} : Shifts n [] n
  | push {n m : Nat} {source : Operand} {is : List Instr} (h : Shifts (n + 1) is m) :
      Shifts n (push source :: is) m
  | pop {n m : Nat} {r : Reg} {is : List Instr} (hr : r.isScratch = true) (h : Shifts n is m) :
      Shifts (n + 1) (pop r :: is) m
  | drop {n k m words : Nat} {is : List Instr} (hDepth : n = k + words) (h : Shifts k is m) :
      Shifts n (drop words :: is) m
  | keep {n m : Nat} {i : Instr} {is : List Instr} (hi : i.isLevel = true) (h : Shifts n is m) :
      Shifts n (i :: is) m

end Instr

open Emit

/-- An account of steps by the numbers of words on the stack before and after them. -/
structure StackSteps (P : (α : Type) → Nat → Nat → Emit α → Prop) : Prop where
  pure {α : Type} {n : Nat} (a : α) : P α n n (Pure.pure a)
  throw {α : Type} {n m : Nat} (refusal : Refusal) : P α n m (throw refusal)
  bind {α β : Type} {n k m : Nat} {x : Emit α} {f : α → Emit β} (hx : P α n k x)
    (hf : ∀ a, P β k m (f a)) : P β n m (x >>= f)
  instrs {n m : Nat} {is : List Instr} (h : Instr.Shifts n is m) : P Unit n m (instrs is)
  division {n : Nat} (line : Nat) : P Unit (n + 2) (n + 1) (division line)

/-- An account that also covers the two templates which store. What is known of the operands of an
assignment is known at any number of words, since its target is below the code of the value. -/
structure StackLogic (types : Registry) (P : (α : Type) → Nat → Nat → Emit α → Prop) : Prop extends
    StackSteps P where
  /-- The object takes the place of the arguments of its constructor. -/
  allocation {n : Nat} (line : Nat) (c : ClassId) (constructor : MethodId) (args : Nat) :
    P Unit (n + args) (n + 1) (allocation types line c constructor args)
  assign {n : Nat} {mark : Mark} {target value : Expr} (hTarget : ∀ k, P Unit k (k + 1) (target.code types))
    (hValue : ∀ k, P Unit k (k + 1) (value.code types)) :
    P Unit n (n + 1) ((Expr.assign mark target value).code types)

variable {P : (α : Type) → Nat → Nat → Emit α → Prop} {types : Registry} {n : Nat}

namespace StackSteps

variable (h : StackSteps P)

include h

theorem require {α : Type} (refusal : Refusal) (a : Option α) : P α n n (Emit.require refusal a) := by
  cases a with
  | none => exact h.throw refusal
  | some a => exact h.pure a

theorem requireTyped (mark : Mark) : P Unit n n (Emit.requireTyped mark) := by
  rw [Emit.requireTyped]
  split
  · exact h.throw _
  · exact h.throw _
  · exact h.pure ()

theorem storageAddress (name : String) (storage : Storage) :
    P Unit n (n + 1) (Emit.storageAddress name storage) := by
  cases storage with
  | mainVar => exact h.instrs (.push .nil)
  | param | localVar => exact h.instrs (.keep rfl (.push .nil))
  | field => exact h.instrs (.keep rfl (.keep rfl (.push .nil)))

theorem applyBinary (line : Nat) (op : BinaryOp) : P Unit (n + 2) (n + 1) (Emit.applyBinary line op) := by
  cases op with
  | div => exact h.division line
  | add | sub | mul => exact h.instrs (.pop rfl (.pop rfl (.keep rfl (.push .nil))))
  | eq | lt | gt => exact h.instrs (.pop rfl (.pop rfl (.keep rfl (.keep rfl (.keep rfl (.push .nil))))))

theorem applyUnary (op : UnaryOp) : P Unit (n + 1) (n + 1) (Emit.applyUnary op) := by
  cases op with
  | neg => exact h.instrs (.pop rfl (.keep rfl (.push .nil)))
  | not => exact h.instrs (.pop rfl (.keep rfl (.keep rfl (.keep rfl (.push .nil)))))

theorem loadThis : P Unit n (n + 1) Emit.loadThis := h.instrs (.keep rfl (.push .nil))

theorem nullCheck (line : Nat) : P Unit n n (Emit.nullCheck line) := h.instrs (.push (.keep rfl (.drop rfl .nil)))

theorem dispatch (offset : Nat) : P Unit n n (Emit.dispatch offset) :=
  h.instrs (.keep rfl (.keep rfl (.keep rfl (.keep rfl .nil))))

theorem virtualCall (line : Nat) (slot : Option Nat) : P Unit n n (Emit.virtualCall line slot) :=
  h.bind (h.require _ _) fun _ => h.dispatch _

/-- Where it does not matter what is stored to which address, the templates are covered step by step. -/
theorem logic (hStore : ∀ n source distance r, P Unit n n (Emit.instrs [.mov source (.mem distance r)]))
    (hCheck : ∀ n line, P Unit n n (Emit.memoryCheck line)) : StackLogic types P where
  toStackSteps := h
  allocation line c constructor args := by
    refine h.bind (h.instrs (.push (.push (.keep rfl (.drop rfl .nil))))) fun _ => h.bind (hCheck _ line) fun _ =>
      h.bind (h.bind (hStore _ _ _ _) fun _ => h.instrs (.push (.keep rfl (.pop rfl .nil)))) fun _ => ?_
    split
    case isTrue => exact h.bind (h.instrs (.drop rfl .nil)) fun _ => h.instrs (.push .nil)
    case isFalse hNone =>
      obtain rfl : args = 0 := by omega
      exact h.instrs (.push .nil)
  assign hTarget hValue :=
    h.bind (h.requireTyped _) fun _ => h.bind (hTarget _) fun _ => h.bind (hValue _) fun _ =>
      h.bind (h.instrs (.pop rfl (.pop rfl .nil))) fun _ => h.bind (hStore _ _ _ _) fun _ => h.instrs (.push .nil)

end StackSteps

namespace StackLogic

mutual

/-- The code of an expression leaves one word. -/
theorem code (h : StackLogic types P) {n : Nat} : (e : Expr) → P Unit n (n + 1) (e.code types)
  | .int _ _ | .null _ => h.bind (h.requireTyped _) fun _ => h.instrs (.push .nil)
  | .this _ => h.bind (h.requireTyped _) fun _ => h.loadThis
  | .var _ _ _ => h.bind (h.requireTyped _) fun _ => h.bind (h.require _ _) fun _ => h.storageAddress _ _
  | .binary _ _ left right =>
    h.bind (h.requireTyped _) fun _ => h.bind (h.code left) fun _ => h.bind (h.code right) fun _ =>
      h.applyBinary _ _
  | .unary _ _ operand =>
    h.bind (h.requireTyped _) fun _ => h.bind (h.code operand) fun _ => h.applyUnary _
  | .assign _ target value => h.assign (fun _ => h.code target) fun _ => h.code value
  | .field _ object _ _ =>
    h.bind (h.requireTyped _) fun _ => h.bind (h.require _ _) fun _ => h.bind (h.code object) fun _ =>
      h.bind (h.nullCheck _) fun _ => h.instrs (.pop rfl (.keep rfl (.push .nil)))
  | .call _ receiver _ args _ _ =>
    h.bind (h.requireTyped _) fun _ => h.bind (h.require _ _) fun _ => h.bind (h.codeArgs args) fun _ =>
      h.bind (h.codeReceiver _ _ _ receiver) fun _ => h.instrs (.drop rfl (.push .nil))
  | .new _ _ args _ _ =>
    h.bind (h.requireTyped _) fun _ => h.bind (h.require _ _) fun _ => h.bind (h.require _ _) fun _ =>
      h.bind (h.codeArgs args) fun _ => h.allocation _ _ _ _
  | .cast _ _ operand _ =>
    h.bind (h.requireTyped _) fun _ => h.bind (h.require _ _) fun _ => h.bind (h.code operand) fun _ =>
      h.instrs (.push (.push (.keep rfl (.drop rfl .nil))))
  | .deref _ address =>
    h.bind (h.requireTyped _) fun _ => h.bind (h.code address) fun _ =>
      h.instrs (.pop rfl (.keep rfl (.push .nil)))
  | .convert _ operand => h.bind (h.requireTyped _) fun _ => h.code operand

theorem codeReceiver (h : StackLogic types P) {n : Nat} (line : Nat) (method : MethodId) (slot : Option Nat) :
    (receiver : Receiver Expr) → P Unit n (n + 1) (Expr.codeReceiver types line method slot receiver)
  | .super => h.bind h.loadThis fun _ => h.instrs (.keep rfl .nil)
  | .implicit => h.bind h.loadThis fun _ => h.virtualCall _ _
  | .object e => h.bind (h.code e) fun _ => h.bind (h.nullCheck _) fun _ => h.virtualCall _ _

theorem codeArgs (h : StackLogic types P) {n : Nat} :
    (args : List Expr) → P Unit n (n + args.length) (Expr.codeArgs types args)
  | [] => h.pure ()
  | e :: rest => h.bind (h.codeArgs rest) fun _ => h.code e

end

end StackLogic
end TLang
