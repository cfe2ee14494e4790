import TLang.Proofs.Machine.Fragments
import TLang.Proofs.Machine.Stack
import TLang.Proofs.Stack.Levels

/-! Execution of code that calls routines which are not part of it. The words that were pushed since the
stack stood at some base are pending. A routine returns with the stack and the frame as it found them and
with the pending words in place; what else it does is left open. The addresses that assignments evaluate and
those at which objects are allocated are apart from the pending words, as the cells of variables and the heap
are. That the stores of the code itself keep the pending words is proved from this, for the instructions of
each template as they are. Runs in which the stack goes all around the address space are not looked at. -/
namespace TLang

open List

variable {i : Instr} {a : Word} {r : Reg} {l : Line} {done : Label}

/-- What stays the same along a run: the registry that the code was generated with, the host of the machine,
and the address at which the stack stood when the run began. -/
structure Setting where
  types : Registry
  host : Host
  base : Word

namespace Machine

/-- The byte belongs to a pending word. -/
def Pending (base : Word) (m : Machine) (a : Word) : Prop :=
  (a - m.regs .esp).toNat < (base - m.regs .esp).toNat

/-- No byte of the word at the address is pending. -/
def Clear (base : Word) (m : Machine) (a : Word) : Prop := ∀ b, a.Covers b → ¬ m.Pending base b

/-- A routine was called and has returned. Nothing is said of the other registers, of the flags and of memory
outside the pending words. -/
structure Resumes (base : Word) (m m' : Machine) : Prop where
  esp : m'.regs .esp = m.regs .esp
  ebp : m'.regs .ebp = m.regs .ebp
  memory : ∀ a, m.Pending base a → m'.memory a = m.memory a

/-- The pending words are those given, the last one pushed first, and the frame is the one given. -/
structure Holds (base frame : Word) (ws : List Word) (m : Machine) : Prop where
  fits : 4 * ws.length < 2 ^ 32
  esp : m.regs .esp = base - .ofNat 32 (4 * ws.length)
  ebp : m.regs .ebp = frame
  words : ∀ i w, ws[i]? = some w → m.view.word i = w

end Machine

namespace Instr

def isCall : Instr → Bool
  | call _ | callReg _ => true
  | _ => false

/-- The calls after which `%eax` is the address of an object, to which the code then stores. A report that
memory is exhausted is one of them, since nothing keeps its routine from returning. -/
def allocators : List Instr := [SupportRoutine.allocate.call, SupportRoutine.reportOutOfMemory.call]

/-- There is room for a push below the pending words. -/
def HasRoom (base : Word) (m : Machine) : Instr → Prop
  | push _ => (base - m.regs .esp).toNat + 4 < 2 ^ 32
  | _ => True

/-- What may come of an instruction. Any instruction that is not a call does what the machine does, whatever
it stores and wherever. -/
def Does (σ : Setting) (m : Machine) (i : Instr) (m' : Machine) : Prop :=
  if i.isCall then m.Resumes σ.base m' ∧ (i ∈ allocators → m'.Clear σ.base (m'.regs .eax))
  else i.HasRoom σ.base m ∧ i.exec σ.host m = .ok m'

end Instr

def Line.Does (σ : Setting) (m : Machine) : Line → Machine → Prop
  | .instr i, m' => i.Does σ m m'
  | .raw _, _ => False
  | _, m' => m' = m

/-- The lines of the test behind an allocation. -/
def Emit.memoryCheckLines (line : Nat) (done : Label) : List Line :=
  [.arith .cmp (.imm 0) .eax, .jumpIf .notEqual done, .push (.imm line),
    SupportRoutine.reportOutOfMemory.call, .drop 1].map .instr ++ [.label done]

/-- The call of the allocator. -/
def Emit.allocateLines (cells : Nat) : List Line :=
  [.push (.imm 4), .push (.imm cells), SupportRoutine.allocate.call].map .instr

/-- From the return of the allocator to the call of the constructor. -/
def Emit.objectLines (line : Nat) (done table : Label) : List Line :=
  .instr (.drop 2) :: (memoryCheckLines line done ++
    [.mov (.addr table) (.mem 0 .eax), .push (.reg .eax)].map .instr)

/-- The code of some assignment stands among the lines, and the part of it that evaluates the target ends
before this line, so that the address to store to is on top of the stack. -/
inductive Expr.AddressAt (types : Registry) (code : List Line) : Nat → Prop where
  | intro {mark : Mark} {target value : Expr} {s t u : EmitState} {ls first : List Line} {start : Nat}
      (hCode : (Expr.assign mark target value).code types s = ⟨(.ok (), t), ls⟩)
      (hTarget : target.code types s = ⟨(.ok (), u), first⟩) (hPlace : ls <+: code.drop start) :
      AddressAt types code (start + first.length)

/-- One line is executed. If it is the first one behind the code of an assignment's target, then the address
that was evaluated is apart from the pending words. -/
def Config.Advances (σ : Setting) (code : List Line) (c c' : Config) : Prop :=
  (Expr.AddressAt σ.types code c.line → c.machine.Clear σ.base (c.machine.view.word 0)) ∧
  ∃ l, code[c.line]? = some l ∧ l.Does σ c.machine c'.machine ∧
    (l.target? c.machine).elim (some (c.line + 1)) (fun target => code.findIdx? (· == .label target)) =
      some c'.line

abbrev Config.Runs (σ : Setting) (code : List Line) : Config → Config → Prop :=
  Relation.ReflTransGen (Config.Advances σ code)

/-- Every run from one line on is still in front of another one, or has come to that with a machine as
asked for. Runs need not come to an end. -/
def Machine.Leads (σ : Setting) (code : List Line) (start stop : Nat) (m : Machine) (post : Machine → Prop) :
    Prop :=
  ∀ c, Config.Runs σ code ⟨start, m⟩ c → (start ≤ c.line ∧ c.line < stop) ∨
    ∃ m', post m' ∧ Config.Runs σ code ⟨start, m⟩ ⟨stop, m'⟩ ∧ Config.Runs σ code ⟨stop, m'⟩ c

variable {σ : Setting}

namespace Machine.Holds

variable {base frame v w : Word} {us ws : List Word} {m m' : Machine}

/-- Nothing is pending where a base and a frame are taken from the registers themselves. So a code fragment can
be looked at from wherever it is entered. -/
theorem start (m : Machine) : m.Holds (m.regs .esp) (m.regs .ebp) [] where
  fits := by decide
  esp := by simp
  ebp := rfl
  words := by simp

section

variable (h : m.Holds base frame ws)
include h

/-- How far the stack has grown is known from the number of pending values. The difference is that of words, so
it does not wrap around. -/
theorem pending : (base - m.regs .esp).toNat = 4 * ws.length := by
  have hFits := h.fits
  rw [h.esp]
  bv_omega

/-- The bytes of the words that are held are pending. -/
theorem pending_of_covers {i : Nat} (hi : i < ws.length) (ha : (m.regs .esp + .ofNat 32 (4 * i)).Covers a) :
    m.Pending base a := by
  have hFits := h.fits
  rw [Word.Covers] at ha
  rw [Pending, h.pending]
  bv_omega

/-- A routine that returns keeps what the stack holds. -/
theorem resume (hm : m.Resumes base m') : m'.Holds base frame ws where
  fits := h.fits
  esp := hm.esp.trans h.esp
  ebp := hm.ebp.trans h.ebp
  words i w hi := by
    rw [← h.words i w hi]
    simp only [View.word, view, hm.esp]
    obtain ⟨hLt, -⟩ := List.getElem?_eq_some_iff.mp hi
    exact Memory.load_congr fun a ha => hm.memory a (h.pending_of_covers hLt ha)

/-- A push stays below the pending words and adds to them. -/
theorem push (hRoom : (base - m.regs .esp).toNat + 4 < 2 ^ 32) (w : Word) :
    (m.push w).Holds base frame (w :: ws) where
  fits := by
    rw [h.pending] at hRoom
    rw [length_cons]
    omega
  esp := by
    show m.regs .esp - 4 = _
    rw [h.esp, length_cons]
    bv_omega
  ebp := h.ebp
  words i w' hi := by
    cases i with
    | zero =>
      obtain rfl := Option.some.inj hi
      rw [view_push, View.word_push_zero]
    | succ i =>
      rw [List.getElem?_cons_succ] at hi
      obtain ⟨hLt, -⟩ := List.getElem?_eq_some_iff.mp hi
      rw [← h.words i w' hi]
      have hPlace : m.regs .esp - 4 + BitVec.ofNat 32 (4 * (i + 1)) = m.regs .esp + .ofNat 32 (4 * i) := by
        bv_omega
      show (m.memory.store _ w).load _ = m.memory.load _
      rw [view_push, View.push, view, hPlace]
      refine Memory.load_store_of_apart fun a ha hNew => ?_
      have hPending := h.pending_of_covers hLt ha
      rw [Pending] at hPending
      rw [Word.Covers] at hNew
      bv_omega

end

/-- Words are taken off by moving the stack pointer only, so those below them stay. -/
theorem drop (h : m.Holds base frame (us ++ ws)) (flags : Flags) :
    ((m.set .esp (m.regs .esp + .ofNat 32 (4 * us.length))).withFlags flags).Holds base frame ws where
  fits := by
    have hFits := h.fits
    rw [length_append] at hFits
    omega
  esp := by
    have hFits := h.fits
    rw [length_append] at hFits
    show m.regs .esp + _ = _
    rw [h.esp, length_append]
    bv_omega
  ebp := h.ebp
  words i w hi := by
    have hWord := h.words (us.length + i) w (by rw [List.getElem?_append_right (by omega)]; simpa using hi)
    rw [← hWord, ← View.word_drop]
    rfl

/-- Registers to compute in, flags and calls are not looked at. -/
theorem of_view (h : m.Holds base frame ws) (hView : m'.view = m.view) : m'.Holds base frame ws where
  fits := h.fits
  esp := (congrArg View.esp hView).trans h.esp
  ebp := (congrArg View.ebp hView).trans h.ebp
  words := hView ▸ h.words

theorem set (h : m.Holds base frame ws) (hr : r.isScratch = true) (w : Word) :
    (m.set r w).Holds base frame ws :=
  h.of_view (m.view_set (by rintro rfl; cases hr) (by rintro rfl; cases hr) w)

theorem withFlags (h : m.Holds base frame ws) (flags : Flags) : (m.withFlags flags).Holds base frame ws :=
  h.of_view rfl

theorem pop (h : m.Holds base frame (w :: ws)) (hr : r.isScratch = true) : (m.pop r).Holds base frame ws :=
  (drop (show m.Holds base frame ([w] ++ ws) from h) m.flags).set hr _

/-- An address that is apart from more pending words is apart from fewer. -/
theorem clear (h : m.Holds base frame ws) (hm : m'.Holds base frame (us ++ ws)) (hClear : m'.Clear base a) :
    m.Clear base a := by
  intro b hb hPending
  refine hClear b hb ?_
  have hFits := hm.fits
  rw [Machine.Pending, h.pending, h.esp] at hPending
  rw [Machine.Pending, hm.pending, hm.esp]
  rw [length_append] at hFits ⊢
  bv_omega

/-- A store to an address that is apart from the pending words keeps them. -/
theorem store (h : m.Holds base frame ws) (ha : m.Clear base a) (w : Word) :
    (m.store a w).Holds base frame ws :=
  h.resume ⟨rfl, rfl, fun b hb => Memory.store_of_not_covers fun hCovers => ha b hCovers hb⟩

/-- An instruction that leaves the stack as high as it is keeps what the stack holds. -/
theorem level (h : m.Holds σ.base frame ws) (hi : i.isLevel = true) (hm : i.Does σ m m') :
    m'.Holds σ.base frame ws := by
  rw [Instr.Does] at hm
  split at hm
  · exact h.resume hm.1
  · obtain ⟨-, hExec⟩ := hm
    cases i with
    | push | pop | jump | jumpIf | ret => cases hi
    | call | callReg => simp [Instr.isCall] at *
    | mov source target =>
      cases target with
      | imm | addr | mem => cases hi
      | reg r => exact Except.ok.inj hExec ▸ h.set hi _
    | lea source =>
      cases source with
      | mem => exact Except.ok.inj hExec ▸ h.set hi _
      | imm | addr | reg => cases hExec
    | arith op =>
      obtain rfl := Except.ok.inj hExec
      cases op with
      | cmp => exact h.withFlags _
      | add | sub | imul => exact (h.set hi _).withFlags _
    | neg => exact Except.ok.inj hExec ▸ (h.set hi _).withFlags _
    | set | extendByte | extendSign => exact Except.ok.inj hExec ▸ h.set rfl _
    | idiv =>
      simp only [Instr.exec, divide] at hExec
      split at hExec
      · cases hExec
      · exact Except.ok.inj hExec ▸ ((h.set rfl _).set rfl _).withFlags _

end Machine.Holds

namespace Machine

variable {frame v w : Word} {us ws : List Word} {n k : Nat} {m m' m'' : Machine}

/-- Every run into the lines that stand between others is still inside them, or has come to their end with
a machine as asked for. -/
def Passes (σ : Setting) (before ls after : List Line) (m : Machine) (post : Machine → Prop) : Prop :=
  m.Leads σ (before ++ ls ++ after) before.length (before ++ ls).length post

namespace Passes

variable {before ls rest after : List Line} {post post' : Machine → Prop}

/-- A weaker postcondition may be asked for. The machines on the way are the same, so nothing else has to be
shown again. -/
theorem mono (h : m.Passes σ before ls after post) (hPost : ∀ m', post m' → post' m') :
    m.Passes σ before ls after post' := by
  intro c hc
  refine (h c hc).imp_right ?_
  rintro ⟨m', hm', hRuns⟩
  exact ⟨m', hPost m' hm', hRuns⟩

theorem nil (h : post m) : m.Passes σ before [] after post := by
  intro c hc
  rw [append_nil] at hc ⊢
  exact .inr ⟨m, h, .refl, hc⟩

/-- From the first line on, all lines that may come next are looked at. -/
theorem step (h : ∀ c, Config.Advances σ (before ++ l :: ls ++ after) ⟨before.length, m⟩ c →
    before.length ≤ c.line ∧
      c.machine.Leads σ (before ++ l :: ls ++ after) c.line (before ++ l :: ls).length post) :
    m.Passes σ before (l :: ls) after post := by
  intro c hc
  rcases hc.cases_head with rfl | ⟨c', hFirst, hRest⟩
  · exact .inl ⟨Nat.le_refl _, by simp⟩
  · obtain ⟨hLe, hLeads⟩ := h c' hFirst
    rcases hLeads c hRest with ⟨hFrom, hTo⟩ | ⟨m', hPost, hRun, hOn⟩
    · exact .inl ⟨hLe.trans hFrom, hTo⟩
    · exact .inr ⟨m', hPost, hRun.head hFirst, hOn⟩

/-- One line is passed before the others. The line must not be a jump: what a jump does depends on the labels of
the whole code and is stated apart. -/
theorem cons (hJump : l.jump? = none)
    (h : ∀ m', l.Does σ m m' → m'.Passes σ (before ++ [l]) ls after post) :
    m.Passes σ before (l :: ls) after post := by
  refine step ?_
  rintro ⟨next, m'⟩ ⟨-, l', hLine, hDoes, hNext⟩
  obtain rfl : l = l' := by simpa using hLine
  have hTarget : l.target? m = none := by
    cases l with
    | instr i =>
      cases i with
      | jump | jumpIf => cases hJump
      | _ => rfl
    | _ => rfl
  rw [hTarget] at hNext
  obtain rfl : before.length + 1 = next := Option.some.inj hNext
  refine ⟨Nat.le_succ _, ?_⟩
  simpa [Passes] using h m' hDoes

/-- Code that follows may rely on how it was reached. Passages alone would forget the run up to there, which
calls need to know. -/
theorem append (h : m.Passes σ before ls (rest ++ after) post)
    (h' : ∀ m', post m' → Config.Runs σ (before ++ ls ++ rest ++ after) ⟨before.length, m⟩
      ⟨(before ++ ls).length, m'⟩ → m'.Passes σ (before ++ ls) rest after post') :
    m.Passes σ before (ls ++ rest) after post' := by
  intro c hc
  rw [Passes, ← append_assoc] at h
  rw [← append_assoc before ls rest] at hc ⊢
  rcases h c hc with ⟨hFrom, hTo⟩ | ⟨m', hPost, hRun, hOn⟩
  · exact .inl ⟨hFrom, by rw [length_append]; omega⟩
  · rcases h' m' hPost hRun c hOn with ⟨hFrom, hTo⟩ | ⟨m'', hPost', hRun', hOn'⟩
    · rw [length_append] at hFrom
      exact .inl ⟨by omega, hTo⟩
    · exact .inr ⟨m'', hPost', hRun.trans hRun', hOn'⟩

/-- A jump over some lines, to a label that no line before it defines. -/
theorem jump {i : Instr} {target : Label} (skip : List Line) (hTarget : i.target? = some target)
    (hNew : .label target ∉ before ++ .instr i :: skip)
    (hThere : (Line.instr i).target? m = some target →
      m.Passes σ (before ++ .instr i :: skip) (.label target :: ls) after post)
    (hNext : (Line.instr i).target? m = none →
      m.Passes σ (before ++ [.instr i]) (skip ++ .label target :: ls) after post) :
    m.Passes σ before (.instr i :: (skip ++ .label target :: ls)) after post := by
  have hMoves : ∀ m', (Line.instr i).Does σ m m' → m' = m := by
    intro m' hDoes
    cases i with
    | jump | jumpIf => exact (Except.ok.inj hDoes.2).symm
    | _ => cases hTarget
  have hPlace : (before ++ .instr i :: (skip ++ .label target :: ls) ++ after).findIdx? (· == .label target) =
      some (before ++ .instr i :: skip).length := by
    simpa using Emit.findIdx?_label hNew (ls ++ after)
  refine step ?_
  rintro ⟨next, m'⟩ ⟨-, l, hLine, hDoes, hGo⟩
  obtain rfl : .instr i = l := by simpa using hLine
  obtain rfl := hMoves m' hDoes
  cases hTaken : (Line.instr i).target? m' with
  | none =>
    rw [hTaken] at hGo
    obtain rfl : before.length + 1 = next := Option.some.inj hGo
    refine ⟨Nat.le_succ _, ?_⟩
    simpa [Passes] using hNext hTaken
  | some target' =>
    obtain rfl : target = target' := by
      cases i with
      | jump => exact (Option.some.inj hTarget).symm.trans (Option.some.inj hTaken)
      | jumpIf =>
        obtain rfl := Option.some.inj hTarget
        exact Option.some.inj (Option.ite_none_right_eq_some.mp hTaken).2
      | _ => cases hTarget
    rw [hTaken] at hGo
    obtain rfl : _ = next := Option.some.inj (hPlace.symm.trans hGo)
    refine ⟨by simp, ?_⟩
    simpa [Passes] using hThere hTaken

/-- Lines lead from a stack with so many words on top of others to one with so many words on top of the
same others. Which words come on top is left open. -/
def Takes (σ : Setting) (n k : Nat) (before ls after : List Line) : Prop :=
  ∀ (m : Machine) frame us ws, us.length = n → m.Holds σ.base frame (us ++ ws) →
    m.Passes σ before ls after fun m' => ∃ vs, vs.length = k ∧ m'.Holds σ.base frame (vs ++ ws)

/-- Plain instructions that shift the stack by known amounts form a passage. Nothing is said here about the
values that they push. -/
theorem instrs {is : List Instr} (h : Instr.Shifts n is k) : Takes σ n k before (is.map .instr) after := by
  induction h generalizing before with
  | nil => exact fun m frame us ws hLength hm => .nil ⟨us, hLength, hm⟩
  | push _ ih =>
    intro m frame us ws hLength hm
    refine .cons rfl ?_
    rintro m' ⟨hRoom, ⟨⟩⟩
    exact ih _ frame (_ :: us) ws (congrArg (· + 1) hLength) (hm.push hRoom _)
  | pop hr _ ih =>
    rintro m frame (_ | ⟨w, us⟩) ws hLength hm
    · cases hLength
    · refine .cons rfl ?_
      rintro m' ⟨-, ⟨⟩⟩
      exact ih _ frame us ws (Nat.succ.inj hLength) (hm.pop hr)
  | @drop n k _ words _ hDepth _ ih =>
    intro m frame us ws hLength hm
    refine .cons rfl ?_
    rintro m' ⟨-, ⟨⟩⟩
    rw [← take_append_drop words us, append_assoc] at hm
    have hDropped := fun flags => hm.drop flags
    simp only [length_take, hLength, hDepth, Nat.min_eq_left (Nat.le_add_left words k)] at hDropped
    exact ih _ frame (us.drop words) ws (by simp [hLength, hDepth]) (hDropped _)
  | keep hi _ ih =>
    intro m frame us ws hLength hm
    exact .cons (Instr.target?_of_isLevel hi) fun m' hm' => ih m' frame us ws hLength (hm.level hi hm')

/-- Instructions that leave nothing on the stack keep what it holds. -/
theorem holds (hm : m.Holds σ.base frame ws) {is : List Instr} (h : Instr.Shifts 0 is 0) :
    m.Passes σ before (is.map .instr) after (Holds σ.base frame ws) := by
  refine (instrs h m frame [] ws rfl hm).mono ?_
  rintro m' ⟨vs, hNone, hm'⟩
  rwa [eq_nil_of_length_eq_zero hNone] at hm'

/-- Both paths of a division leave one word for its two operands. -/
theorem division (line : Nat) {zero : Label} (hNe : zero ≠ done) (hZero : .label zero ∉ before)
    (hDone : .label done ∉ before) :
    Takes σ (n + 2) (n + 1) before (Emit.divisionLines line zero done) after := by
  intro m frame us ws hLength hm
  have hTest : Instr.Shifts (n + 2) [.pop .ecx, .arith .cmp (.imm 0) .ecx] (n + 1) := .pop rfl (.keep rfl .nil)
  have hQuotient : Instr.Shifts (n + 1) Emit.quotientCode (n + 1) :=
    .pop rfl (.keep rfl (.keep rfl (.push .nil)))
  have hReport : Instr.Shifts (n + 1) (Emit.zeroCode line) (n + 1) :=
    .pop rfl (.push (.keep rfl (.drop rfl (.push .nil))))
  refine (instrs hTest m frame us ws hLength hm).append ?_
  rintro m₁ ⟨vs, hLength₁, hm₁⟩ -
  refine jump (i := .jumpIf .equal zero) (Emit.quotientCode.map .instr ++ [.instr (.jump done)]) rfl ?_
    (fun _ => ?_) fun _ => ?_
  · simpa [Emit.quotientCode] using hZero
  · refine .cons rfl ?_
    rintro m rfl
    refine (instrs hReport m frame vs ws hLength₁ hm₁).append fun m₂ h₂ _ => ?_
    exact .cons rfl fun _ h => .nil (h ▸ h₂)
  · refine (instrs hQuotient m₁ frame vs ws hLength₁ hm₁).append fun m₂ h₂ _ => ?_
    refine jump (i := .jump done) (.label zero :: (Emit.zeroCode line).map .instr) rfl ?_ (fun _ => ?_) fun h => ?_
    · simpa [Emit.quotientCode, Emit.zeroCode, hNe.symm] using hDone
    · exact .cons rfl fun _ h => .nil (h ▸ h₂)
    · cases h

/-- The value of an assignment is stored to the address below it, which was apart from the pending words
when it was evaluated, and takes its place. -/
theorem store (h : m.Holds σ.base frame (a :: ws)) (hClear : m.Clear σ.base a)
    (hm : m'.Holds σ.base frame (v :: a :: ws)) :
    m'.Passes σ before ([.pop .eax, .pop .edx, .mov (.reg .eax) (.mem 0 .edx), .push (.reg .eax)].map .instr) after
      (Holds σ.base frame (v :: ws)) := by
  have hm₁ := hm.pop (r := .eax) rfl
  have hm₂ := hm₁.pop (r := .edx) rfl
  have hValue : ((m'.pop .eax).pop .edx).regs .eax = v := by
    rw [regs_pop_of_ne _ (by decide) (by decide), regs_pop, hm.words 0 v rfl]
  have hAddress : ((m'.pop .eax).pop .edx).regs .edx + .ofInt 32 0 = a := by
    rw [regs_pop, hm₁.words 0 a rfl]
    exact BitVec.add_zero a
  refine .cons rfl ?_
  rintro m₁ ⟨-, ⟨⟩⟩
  refine .cons rfl ?_
  rintro m₂ ⟨-, ⟨⟩⟩
  refine .cons rfl ?_
  rintro m₃ ⟨-, ⟨⟩⟩
  have hApart : ((m'.pop .eax).pop .edx).Clear σ.base a :=
    hm₂.clear (show m.Holds σ.base frame ([a] ++ ws) from h) hClear
  have hm₃ := hm₂.store (hAddress ▸ hApart) (((m'.pop .eax).pop .edx).regs .eax)
  refine .cons rfl ?_
  rintro m₄ ⟨hRoom, ⟨⟩⟩
  have hm₄ := hm₃.push hRoom v
  rw [← hValue] at hm₄ ⊢
  exact .nil hm₄

/-- The test behind an allocation keeps the object that was allocated. -/
theorem memoryCheck (hm : m.Holds σ.base frame ws) (line : Nat) (hDone : .label done ∉ before) :
    m.Passes σ before (Emit.memoryCheckLines line done) after fun m' => m'.Holds σ.base frame ws ∧
      (m.Clear σ.base (m.regs .eax) → m'.Clear σ.base (m'.regs .eax)) ∧
        (m.regs .eax ≠ 0 → m'.regs .eax = m.regs .eax) := by
  refine .cons rfl ?_
  rintro m₁ ⟨-, ⟨⟩⟩
  have hm₁ := hm.withFlags (.ofDifference (m.regs .eax) (.ofInt 32 0))
  refine jump (i := .jumpIf .notEqual done)
    ([.push (.imm line), SupportRoutine.reportOutOfMemory.call, .drop 1].map .instr) rfl ?_ (fun _ => ?_)
    fun hEqual => ?_
  · simpa using hDone
  · exact .cons rfl fun _ h => .nil (h ▸ ⟨hm₁, id, fun _ => rfl⟩)
  · have hZero : m.regs .eax = 0 := by
      simpa [Line.target?, arith, Flags.holds_ofDifference, Comparison.test] using hEqual
    refine .cons rfl ?_
    rintro m₂ ⟨hRoom, ⟨⟩⟩
    have hm₂ := hm₁.push hRoom (.ofInt 32 line)
    refine .cons rfl ?_
    rintro m₃ ⟨hResumes, hClear⟩
    have hm₃ : m₃.Holds σ.base frame ([.ofInt 32 line] ++ ws) := hm₂.resume hResumes
    refine .cons rfl ?_
    rintro m₄ ⟨-, ⟨⟩⟩
    refine .cons rfl fun _ h => .nil (h ▸ ⟨?_, fun _ => ?_, fun hNe => absurd hZero hNe⟩)
    · exact hm₃.drop _
    · exact (hm₃.drop _).clear hm₃ (hClear (by simp [Instr.allocators]))

/-- The allocator returns the address of an object that is apart from the pending words. -/
theorem allocate (hm : m.Holds σ.base frame ws) (cells : Nat) :
    m.Passes σ before (Emit.allocateLines cells) after fun m' =>
      ∃ us, us.length = 2 ∧ m'.Holds σ.base frame (us ++ ws) ∧ m'.Clear σ.base (m'.regs .eax) := by
  refine .cons rfl ?_
  rintro m₁ ⟨hRoom₁, ⟨⟩⟩
  have hm₁ := hm.push hRoom₁ (.ofInt 32 4)
  refine .cons rfl ?_
  rintro m₂ ⟨hRoom₂, ⟨⟩⟩
  have hm₂ := hm₁.push hRoom₂ (.ofInt 32 cells)
  refine .cons rfl ?_
  rintro m₃ ⟨hResumes, hClear⟩
  refine .nil ⟨[_, _], rfl, hm₂.resume hResumes, ?_⟩
  exact hClear (by simp [Instr.allocators])

/-- The object is pointed to its table, which keeps the pending words, and is then on top of the stack. -/
theorem object {table : Label} (hm : m.Holds σ.base frame (us ++ ws)) (hTwo : us.length = 2)
    (hClear : m.Clear σ.base (m.regs .eax)) (line : Nat) (hDone : .label done ∉ before) :
    m.Passes σ before (Emit.objectLines line done table) after fun m' => ∃ object,
      m'.Holds σ.base frame (object :: ws) ∧ (m.regs .eax ≠ 0 → object = m.regs .eax) := by
  refine .cons rfl ?_
  rintro m₁ ⟨-, ⟨⟩⟩
  have hDropped := fun flags => hm.drop flags
  rw [hTwo] at hDropped
  have hm₁ := hDropped (.ofSum (m.regs .esp) (.ofInt 32 8))
  have hClear₁ := hm₁.clear hm hClear
  refine (memoryCheck hm₁ line (by simpa using hDone)).append ?_
  rintro m₂ ⟨hm₂, hClear₂, hObject⟩ -
  refine .cons rfl ?_
  rintro m₃ ⟨-, ⟨⟩⟩
  have hAddress : m₂.regs .eax + .ofInt 32 0 = m₂.regs .eax := BitVec.add_zero _
  have hm₃ := hm₂.store (hAddress.symm ▸ hClear₂ hClear₁) (σ.host.address table)
  refine .cons rfl ?_
  rintro m₄ ⟨hRoom, ⟨⟩⟩
  exact .nil ⟨_, hm₃.push hRoom _, hObject⟩

end Passes
end Machine

open Machine

namespace Emit

variable {s t : EmitState} {ls : List Line}

end Emit

end TLang
