import TLang.Code.Support
import TLang.Proofs.Machine.Flags

/-! Execution of assembly by a 32-bit machine. Lines are executed one after the other; a jump goes to
the first line that defines its label. Support routines are not part of the code: they return at
once, they may change the registers that callers do not rely on, and they are noted. -/
namespace TLang

variable {m' : Machine} {l : Line}

variable {outcome : Except Halt Machine}

/-- What calls of support routines do not keep. -/
structure Scratch where
  eax : Word
  ecx : Word
  edx : Word
  flags : Flags

structure Machine where
  regs : Reg → Word
  flags : Flags
  memory : Memory
  /-- The support routines called so far, each with its first argument. -/
  calls : List (SupportRoutine × Word) := []

/-- All that the meaning of the instructions leaves open. -/
structure Host where
  /-- Where the places of a program are. -/
  address : Label → Word
  /-- The flags after an instruction that does not define them. -/
  flags : Machine → Flags
  /-- What a support routine leaves behind. -/
  scratch : SupportRoutine → Machine → Scratch

/-- Why an execution stops. -/
inductive Halt where
  /-- A quotient does not exist, or not within a word. -/
  | divideError
  | endOfCode
  | unknownLabel
  /-- Control goes to code that is not executed here, or a line has no meaning. -/
  | unsupported
deriving DecidableEq

/-- Replace the low byte of a word. -/
def Word.withLowByte (w : Word) (b : BitVec 8) : Word := w.extractLsb' 8 24 ++ b

namespace Machine

def withFlags (m : Machine) (flags : Flags) : Machine := { m with flags }

def set (m : Machine) (r : Reg) (w : Word) : Machine :=
  { m with regs := fun r' => if r' = r then w else m.regs r' }

def store (m : Machine) (a w : Word) : Machine := { m with memory := m.memory.store a w }

def read (host : Host) (m : Machine) : Operand → Word
  | .imm value => .ofInt 32 value
  | .addr place => host.address place
  | .reg r => m.regs r
  | .mem distance base => m.memory.load (m.regs base + .ofInt 32 distance)

def write (m : Machine) (w : Word) : Operand → Except Halt Machine
  | .reg r => .ok (m.set r w)
  | .mem distance base => .ok (m.store (m.regs base + .ofInt 32 distance) w)
  | .imm _ | .addr _ => .error .unsupported

def push (m : Machine) (w : Word) : Machine :=
  (m.set .esp (m.regs .esp - 4)).store (m.regs .esp - 4) w

def pop (m : Machine) (target : Reg) : Machine :=
  (m.set .esp (m.regs .esp + 4)).set target (m.memory.load (m.regs .esp))

def arith (host : Host) (m : Machine) (target : Reg) (y : Word) : ArithOp → Machine
  | .add => (m.set target (m.regs target + y)).withFlags (.ofSum (m.regs target) y)
  | .sub => (m.set target (m.regs target - y)).withFlags (.ofDifference (m.regs target) y)
  | .imul => (m.set target (m.regs target * y)).withFlags (host.flags m)
  | .cmp => m.withFlags (.ofDifference (m.regs target) y)

/-- The number whose high word is in `%edx` and whose low word is in `%eax`. -/
def dividend (m : Machine) : Int := (m.regs .edx).toInt * 2 ^ 32 + (m.regs .eax).toNat

/-- Divide, toward zero. -/
def divide (host : Host) (m : Machine) (divisor : Word) : Except Halt Machine :=
  let quotient := m.dividend.tdiv divisor.toInt
  if divisor = 0 ∨ quotient < -2 ^ 31 ∨ 2 ^ 31 ≤ quotient then .error .divideError
  else .ok (((m.set .eax (.ofInt 32 quotient)).set .edx
    (.ofInt 32 (m.dividend.tmod divisor.toInt))).withFlags (host.flags m))

/-- Call a support routine. Its arguments are on the stack, the first one on top. -/
def support (host : Host) (m : Machine) (routine : SupportRoutine) : Machine :=
  let left := host.scratch routine m
  { (((m.set .eax left.eax).set .ecx left.ecx).set .edx left.edx).withFlags left.flags with
    calls := m.calls ++ [(routine, m.memory.load (m.regs .esp))] }

end Machine

/-- The support routine of a name. -/
def SupportRoutine.ofSymbol? (name : String) : Option SupportRoutine :=
  all.find? fun routine => routine.symbol == name

namespace Instr

/-- What an instruction does to the machine. That a jump goes to another line is seen to below. -/
def exec (host : Host) (m : Machine) : Instr → Except Halt Machine
  | push source => .ok (m.push (m.read host source))
  | pop target => .ok (m.pop target)
  | mov source target => m.write (m.read host source) target
  | lea (.mem distance base) target => .ok (m.set target (m.regs base + .ofInt 32 distance))
  | lea _ _ => .error .unsupported
  | arith op source target => .ok (m.arith host target (m.read host source) op)
  | neg target =>
    .ok ((m.set target (-m.regs target)).withFlags (.ofDifference 0 (m.regs target)))
  | set c =>
    .ok (m.set .eax ((m.regs .eax).withLowByte (if m.flags.holds c then 1 else 0)))
  | extendByte => .ok (m.set .eax (((m.regs .eax).setWidth 8).setWidth 32))
  | extendSign => .ok (m.set .edx (if (m.regs .eax).msb then -1 else 0))
  | idiv divisor => m.divide host (m.regs divisor)
  | jump _ | jumpIf _ _ => .ok m
  | call (.symbol name) =>
    match SupportRoutine.ofSymbol? name with
    | some routine => .ok (m.support host routine)
    | none => .error .unsupported
  | call _ | callReg _ | ret => .error .unsupported

def execAll (host : Host) : List Instr → Machine → Except Halt Machine
  | [], m => .ok m
  | i :: is, m => i.exec host m >>= execAll host is

/-- The instruction neither jumps nor divides. -/
def isStraight : Instr → Bool
  | jump _ | jumpIf _ _ | idiv _ => false
  | _ => true

end Instr

namespace Line

def exec (host : Host) (m : Machine) : Line → Except Halt Machine
  | instr i => i.exec host m
  | raw _ => .error .unsupported
  | _ => .ok m

/-- The label at which execution goes on after a line, unless it goes on with the next line. -/
def target? (m : Machine) : Line → Option Label
  | instr (.jump target) => some target
  | instr (.jumpIf c target) => if m.flags.holds c then some target else none
  | _ => none

end Line

/-- Lines that go on with the next one are executed. -/
def Machine.through (host : Host) (ls : List Line) (m : Machine) : Except Halt Machine :=
  ls.foldlM (fun m l => l.exec host m) m

/-- The machine, and the line it executes next. -/
structure Config where
  line : Nat
  machine : Machine

/-- Execute one line. -/
def Config.step (host : Host) (code : List Line) (c : Config) : Except Halt Config :=
  match code[c.line]? with
  | none => .error .endOfCode
  | some l => do
    let m ← l.exec host c.machine
    match l.target? c.machine with
    | none => .ok ⟨c.line + 1, m⟩
    | some target =>
      match code.findIdx? (· == .label target) with
      | some position => .ok ⟨position, m⟩
      | none => .error .unknownLabel

/-- Execute any number of lines. -/
abbrev Config.Reaches (host : Host) (code : List Line) : Config → Config → Prop :=
  Relation.ReflTransGen fun c c' => c.step host code = .ok c'

/-- Execution from one line on gets to another one, or stops before, but not in front of a division by
zero. -/
def Machine.Ends (host : Host) (code : List Line) (start stop : Nat) (m : Machine) :
    Except Halt Machine → Prop
  | .ok m' => Config.Reaches host code ⟨start, m⟩ ⟨stop, m'⟩
  | .error halt => ∃ c, Config.Reaches host code ⟨start, m⟩ c ∧ c.step host code = .error halt ∧
      ∀ r, code[c.line]? = some (.instr (.idiv r)) → c.machine.regs r ≠ 0

namespace Machine.Ends

variable {host : Host} {code : List Line} {start middle stop : Nat} {m : Machine}

theorem refl : Ends host code start start m (.ok m) := Relation.ReflTransGen.refl

/-- Steps in front of an execution are part of it. -/
theorem of_reaches (h : Config.Reaches host code ⟨start, m⟩ ⟨middle, m'⟩)
    (h' : Ends host code middle stop m' outcome) : Ends host code start stop m outcome := by
  cases outcome with
  | ok m'' => exact Relation.ReflTransGen.trans h h'
  | error halt =>
    obtain ⟨c, hc, hHalt⟩ := h'
    exact ⟨c, h.trans hc, hHalt⟩

theorem bind {first : Except Halt Machine} {next : Machine → Except Halt Machine}
    (h : Ends host code start middle m first)
    (h' : ∀ m', first = .ok m' → Ends host code middle stop m' (next m')) :
    Ends host code start stop m (first >>= next) := by
  cases first with
  | ok m' => exact of_reaches h (h' m' rfl)
  | error halt => exact h

/-- A line that does not jump hands over to the next one. -/
theorem next (hLine : code[start]? = some l) (hTarget : l.target? m = none) (hExec : l.exec host m = .ok m') :
    Ends host code start (start + 1) m (.ok m') := by
  refine Relation.ReflTransGen.single ?_
  simp only [Config.step, hLine, hTarget, hExec]
  rfl

theorem line (hLine : code[start]? = some l) (hTarget : l.target? m = none)
    (hZero : ∀ r, l = .instr (.idiv r) → m.regs r ≠ 0) :
    Ends host code start (start + 1) m (l.exec host m) := by
  cases hExec : l.exec host m with
  | ok m' => exact next hLine hTarget hExec
  | error halt =>
    refine ⟨_, Relation.ReflTransGen.refl, ?_, fun r hr => hZero r (Option.some.inj (hLine.symm.trans hr))⟩
    simp only [Config.step, hLine, hExec]
    rfl

/-- A jump goes to the first line that defines its label. -/
theorem jump {target : Label} (hLine : code[start]? = some l) (hTarget : l.target? m = some target)
    (hMachine : l.exec host m = .ok m) (hPosition : code.findIdx? (· == .label target) = some middle)
    (h : Ends host code middle stop m outcome) : Ends host code start stop m outcome := by
  refine of_reaches (Relation.ReflTransGen.single ?_) h
  simp only [Config.step, hLine, hMachine, hTarget, hPosition]
  rfl

/-- Steps behind an execution that gets there are part of it. -/
theorem extend (h : Ends host code start middle m outcome)
    (h' : ∀ m', Config.Reaches host code ⟨middle, m'⟩ ⟨stop, m'⟩) : Ends host code start stop m outcome := by
  cases outcome with
  | ok m' => exact Relation.ReflTransGen.trans h (h' m')
  | error halt => exact h

/-- Straight code is executed line by line. -/
theorem instrs (host : Host) (m : Machine) {is : List Instr}
    (hStraight : is.all Instr.isStraight = true) {before after : List Line}
    (hCode : code = before ++ is.map .instr ++ after) :
    Ends host code before.length (before.length + is.length) m (Instr.execAll host is m) := by
  induction is generalizing before m with
  | nil => exact refl
  | cons i is ih =>
    simp only [List.all_cons, Bool.and_eq_true] at hStraight
    have hLine : code[before.length]? = some (.instr i) := by simp [hCode]
    have hTarget : (Line.instr i).target? m = none := by
      cases i with
      | jump | jumpIf => cases hStraight.1
      | _ => rfl
    have hZero : ∀ r, Line.instr i = .instr (.idiv r) → m.regs r ≠ 0 := by
      rintro r ⟨⟩
      cases hStraight.1
    refine bind (line hLine hTarget hZero) fun m' _ => ?_
    have hCode' : code = before ++ [.instr i] ++ is.map .instr ++ after := by simp [hCode]
    have hRest := ih m' hStraight.2 hCode'
    rw [List.length_append, List.length_singleton, Nat.add_assoc, Nat.add_comm 1] at hRest
    exact hRest

end Machine.Ends

/-- The outcome is what a result asks for; without a result, a division has stopped the machine. -/
def Machine.Yields {α : Type} (post : α → Machine → Prop) (outcome : Except Halt Machine) :
    Option α → Prop
  | some a => ∃ m, outcome = .ok m ∧ post a m
  | none => outcome = .error .divideError

namespace Machine.Yields

variable {α β : Type} {post : α → Machine → Prop} {post' : β → Machine → Prop} {result : Option α}

theorem bind {effect : Machine → Except Halt Machine} {next : α → Option β}
    (h : Yields post outcome result)
    (h' : ∀ a m, post a m → Yields post' (effect m) (next a)) :
    Yields post' (outcome >>= effect) (result >>= next) := by
  cases result with
  | some a =>
    obtain ⟨m, rfl, hPost⟩ := h
    exact h' a m hPost
  | none =>
    change outcome = _ at h
    rw [h]
    rfl

theorem map {f : α → β} (h : Yields post outcome result)
    (h' : ∀ a m, post a m → post' (f a) m) : Yields post' outcome (result.map f) := by
  cases result with
  | some a =>
    obtain ⟨m, hOutcome, hPost⟩ := h
    exact ⟨m, hOutcome, h' a m hPost⟩
  | none => exact h

end Machine.Yields
end TLang
