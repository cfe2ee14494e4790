import TLang.Proofs.Arithmetic.Layout
import TLang.Proofs.Arithmetic.Templates

/-! The code of an arithmetic expression computes what the evaluator says, wherever it stands. The
values of operands wait on the stack, so the induction is over the room that is left there. -/
namespace TLang

open Machine Instr Emit

variable {host : Host} {xs : List Variable}

/-- The effect is to push the address of a cell. -/
def Variable.LocatedBy (host : Host) (x : Variable) (effect : Machine → Except Halt Machine) : Prop :=
  ∀ m, ∃ m', effect m = .ok m' ∧ m'.view = m.view.push (x.address host m.view.ebp)

/-- The address of a variable is pushed by straight code. Fields are not among the variables here, as they need
an object. -/
theorem Emit.exists_performs_address (host : Host) (types : Registry) (line : Nat) {name : String}
    {storage : Storage} {x : Variable} (hVariable : Variable.of? name storage = some x) :
    ∃ effect, Performs host ((Expr.var ⟨line, .address⟩ name (some storage)).code types) effect ∧
      x.LocatedBy host effect := by
  have hCode : (Expr.var ⟨line, .address⟩ name (some storage)).code types =
      storageAddress name storage := rfl
  rw [hCode]
  cases storage with
  | field => cases hVariable
  | mainVar =>
    cases hVariable
    exact ⟨_, .instrs rfl, fun m => ⟨_, rfl, rfl⟩⟩
  | param index =>
    cases hVariable
    refine ⟨_, .instrs rfl, fun m => ⟨_, rfl, ?_⟩⟩
    rw [view_push, view_set _ (by decide) (by decide), read_reg, regs_set, Variable.address, view]
  | localVar slot =>
    cases hVariable
    refine ⟨_, .instrs rfl, fun m => ⟨_, rfl, ?_⟩⟩
    rw [view_push, view_set _ (by decide) (by decide), read_reg, regs_set, Variable.address, view]

/-- An address is on the stack, and nothing else has changed. -/
theorem Variable.LocatedBy.pushed {x : Variable} {effect : Machine → Except Halt Machine}
    (h : x.LocatedBy host effect) {words : Nat} (hWords : 1 ≤ words) {m : Machine} {σ : Store}
    (hRoom : Room host xs words m.view) (hCells : ∀ x ∈ xs, m.view.cells host x = σ x) :
    ∃ m', effect m = .ok m' ∧ Pushed host xs words m.view
      { value := .ofBitVec (x.address host m.view.ebp), store := σ } m'.view := by
  obtain ⟨m', hRun, hView⟩ := h m
  refine ⟨m', hRun, ?_⟩
  rw [hView]
  exact (Balanced.refl hCells).push hRoom hWords (.ofBitVec _)

/-- The effect of code does to a machine what the evaluator does to the variables. -/
def Expr.Computes (host : Host) (xs : List Variable) (e : Expr)
    (effect : Machine → Except Halt Machine) : Prop :=
  ∀ words, e.stackWords ≤ words → ∀ (m : Machine) (σ : Store), Room host xs words m.view →
    (∀ x ∈ xs, m.view.cells host x = σ x) →
    Yields (fun r m' => Pushed host xs words m.view r m'.view) (effect m) (e.eval σ)

namespace Expr.Computes

variable {line varLine : Nat} {name : String} {storage : Storage} {x : Variable}
  {first second effect : Machine → Except Halt Machine}

theorem int (value : Int32) : (Expr.int ⟨line, .int⟩ value).Computes host xs
    (execAll host [.push (.imm value.toInt)]) := by
  intro words hWords m σ hRoom hCells
  refine ⟨_, rfl, ?_⟩
  show Pushed host xs words m.view _ (m.view.push (.ofInt 32 value.toInt))
  rw [← Int32.toInt_toBitVec, BitVec.ofInt_toInt]
  exact (Balanced.refl hCells).push hRoom hWords value

/-- Reading takes the word at the address. The cells keep their values, so only the stack has changed. -/
theorem read (hVariable : Variable.of? name storage = some x) (hx : x ∈ xs)
    (hFirst : x.LocatedBy host first) :
    (Expr.deref ⟨line, .int⟩ (.var ⟨varLine, .address⟩ name (some storage))).Computes host xs
      fun m => first m >>=
        execAll host [.pop .eax, .mov (.mem 0 .eax) (.reg .eax), .push (.reg .eax)] := by
  intro words hWords m σ hRoom hCells
  obtain ⟨m₁, hRun₁, hPushed⟩ := hFirst.pushed hWords hRoom hCells
  obtain ⟨m₂, hRun₂, hView⟩ := exec_read host m₁
  have hCell : m₁.view.memory.load (m₁.view.word 0) = (σ x).toBitVec := by
    rw [hPushed.value, ← hPushed.ebp]
    exact congrArg Int32.toBitVec (hPushed.cells x hx)
  rw [eval, hVariable]
  show Yields _ (first m >>= _) _
  rw [hRun₁]
  refine ⟨m₂, hRun₂, ?_⟩
  show Pushed host xs words m.view _ m₂.view
  rw [hView, hCell]
  exact hPushed.drop.push hRoom hWords (σ x)

/-- The operator acts on the word that its operand left on top. -/
theorem unary {op : UnaryOp} {operand : Expr} (hFirst : operand.Computes host xs first)
    (hEffect : Alters op effect) :
    (Expr.unary ⟨line, .int⟩ op operand).Computes host xs fun m => first m >>= effect := by
  intro words hWords m σ hRoom hCells
  rw [eval]
  refine (hFirst words hWords m σ hRoom hCells).bind fun a m₁ hPushed => ?_
  obtain ⟨m₂, hRun, hView⟩ := hEffect m₁ a.value hPushed.value
  refine ⟨m₂, hRun, ?_⟩
  show Pushed host xs words m.view _ m₂.view
  rw [hView]
  exact hPushed.drop.push hRoom (Nat.le_trans operand.one_le_stackWords hWords) _

/-- The right operand is evaluated in the cells that the left one leaves, above its value on the stack. -/
theorem binary {op : BinaryOp} {left right : Expr} (hFirst : left.Computes host xs first)
    (hSecond : right.Computes host xs second) (hEffect : Combines op line effect) :
    (Expr.binary ⟨line, .int⟩ op left right).Computes host xs
      fun m => first m >>= fun m => second m >>= effect := by
  intro words hWords m σ hRoom hCells
  obtain ⟨rest, rfl⟩ : ∃ rest, words = rest + 1 := by
    have hOne := one_le_stackWords (.binary ⟨line, .int⟩ op left right)
    exact ⟨words - 1, by omega⟩
  rw [stackWords, Nat.max_le] at hWords
  rw [eval]
  refine (hFirst _ hWords.1 m σ hRoom hCells).bind fun a m₁ hLeft => ?_
  have hRoom' : Room host xs rest m₁.view := hRoom.next hLeft.esp hLeft.ebp
  refine (hSecond rest (by omega) m₁ a.store hRoom' hLeft.cells).bind fun b m₂ hRight => ?_
  refine (hEffect m₂ a.value b.value (hLeft.word_one hRoom hRight) hRight.value).map
    fun r m₃ hView => ?_
  rw [hView]
  exact ((hLeft.drop_two hRight).report r.2).push hRoom (by omega) r.1

/-- The address is found before the value is evaluated, so an assignment inside the value cannot move the
target. -/
theorem assign {value : Expr} (hVariable : Variable.of? name storage = some x) (hx : x ∈ xs)
    (hFirst : x.LocatedBy host first) (hSecond : value.Computes host xs second) :
    (Expr.assign ⟨line, .int⟩ (.var ⟨varLine, .address⟩ name (some storage)) value).Computes host xs
      fun m => first m >>= fun m => second m >>= execAll host
        [.pop .eax, .pop .edx, .mov (.reg .eax) (.mem 0 .edx), .push (.reg .eax)] := by
  intro words hWords m σ hRoom hCells
  obtain ⟨rest, rfl⟩ : ∃ rest, words = rest + 1 := ⟨words - 1, by rw [stackWords] at hWords; omega⟩
  rw [stackWords] at hWords
  obtain ⟨m₁, hRun₁, hTarget⟩ := hFirst.pushed (by omega) hRoom hCells
  have hRoom' : Room host xs rest m₁.view := hRoom.next hTarget.esp hTarget.ebp
  rw [eval, hVariable]
  show Yields _ (first m >>= _) _
  rw [hRun₁]
  refine (hSecond rest (by omega) m₁ σ hRoom' hTarget.cells).bind fun a m₂ hValue => ?_
  obtain ⟨m₃, hRun, hView⟩ := exec_assign host m₂
  refine ⟨m₃, hRun, ?_⟩
  show Pushed host xs (rest + 1) m.view _ m₃.view
  rw [hView, hTarget.word_one hRoom hValue, hValue.value]
  exact ((hTarget.drop_two hValue).assign hRoom hx a.value).push hRoom (by omega) a.value

end Expr.Computes

namespace Expr.Arithmetic

variable {e : Expr}

/-- The code of an arithmetic expression computes it, by induction on the expression. Calls and fields are left
out. -/
theorem exists_computes (host : Host) (types : Registry) (h : e.Arithmetic)
    (hVariables : e.accessed ⊆ xs) :
    ∃ effect, Performs host (e.code types) effect ∧ e.Computes host xs effect := by
  induction h with
  | int line value => exact ⟨_, .after_pure (.instrs rfl), .int value⟩
  | read line varLine hVariable =>
    obtain ⟨first, hPerforms, hFirst⟩ := exists_performs_address host types varLine hVariable
    rw [accessed, accessed, hVariable] at hVariables
    have hx := hVariables (List.mem_singleton_self _)
    exact ⟨_, .after_pure (hPerforms.bind (.instrs rfl)), .read hVariable hx hFirst⟩
  | unary line op hOperand ih =>
    obtain ⟨first, hPerforms, hFirst⟩ := ih hVariables
    obtain ⟨effect, hPerforms', hEffect⟩ := exists_performs_unary host op
    exact ⟨_, .after_pure (hPerforms.bind hPerforms'), hFirst.unary hEffect⟩
  | binary line op hLeft hRight ihLeft ihRight =>
    rw [accessed, List.append_subset] at hVariables
    obtain ⟨first, hPerforms, hFirst⟩ := ihLeft hVariables.1
    obtain ⟨second, hPerforms', hSecond⟩ := ihRight hVariables.2
    obtain ⟨effect, hPerforms'', hEffect⟩ := exists_performs_binary host line op
    exact ⟨_, .after_pure (hPerforms.bind (hPerforms'.bind hPerforms'')), hFirst.binary hSecond hEffect⟩
  | assign line varLine hVariable hValue ih =>
    rw [accessed, List.append_subset, accessed, hVariable] at hVariables
    have hx := hVariables.1 (List.mem_singleton_self _)
    obtain ⟨first, hPerforms, hFirst⟩ := exists_performs_address host types varLine hVariable
    obtain ⟨second, hPerforms', hSecond⟩ := ih hVariables.2
    exact ⟨_, .after_pure (hPerforms.bind (hPerforms'.bind (.instrs rfl))),
      .assign hVariable hx hFirst hSecond⟩

/-- The code of an arithmetic expression is generated, and does what the evaluator says. -/
theorem exists_ends (host : Host) (types : Registry) (h : e.Arithmetic) (s : EmitState) :
    ∃ t ls, e.code types s = ⟨(.ok (), t), ls⟩ ∧ ∀ before after, s.Unused before →
      ∀ m, Room host e.accessed e.stackWords m.view → ∃ outcome,
        Ends host (before ++ ls ++ after) before.length (before ++ ls).length m outcome ∧
          Yields (fun r m' => Pushed host e.accessed e.stackWords m.view r m'.view) outcome
            (e.eval (m.view.cells host)) := by
  obtain ⟨effect, hPerforms, hComputes⟩ := h.exists_computes host types (List.Subset.refl _)
  obtain ⟨t, ls, hCode, hFragment⟩ := hPerforms s
  refine ⟨t, ls, hCode, fun before after hUnused m hRoom => ⟨effect m, hFragment.ends before after hUnused m, ?_⟩⟩
  exact hComputes _ (Nat.le_refl _) m _ hRoom fun _ _ => rfl

/-- The code of an arithmetic expression is generated, and from its first line on execution gets to
the line behind it with the value of the expression as the one new word on the stack. The cells of
its variables are as the assignments leave them, divisions by zero have been reported in order, and
no other byte above the stack has changed. Only a quotient that does not exist stops it. -/
theorem code_preserves (host : Host) (types : Registry) (h : e.Arithmetic) (s : EmitState) :
    ∃ t ls, e.code types s = ⟨(.ok (), t), ls⟩ ∧ ∀ before after, s.Unused before →
      ∀ m, Room host e.accessed e.stackWords m.view → match e.eval (m.view.cells host) with
        | some r => ∃ m',
          Config.Reaches host (before ++ ls ++ after) ⟨before.length, m⟩ ⟨(before ++ ls).length, m'⟩ ∧
            Pushed host e.accessed e.stackWords m.view r m'.view
        | none => ∃ c, Config.Reaches host (before ++ ls ++ after) ⟨before.length, m⟩ c ∧
            c.step host (before ++ ls ++ after) = .error .divideError := by
  obtain ⟨t, ls, hCode, hRuns⟩ := h.exists_ends host types s
  refine ⟨t, ls, hCode, ?_⟩
  intro before after hUnused m hRoom
  obtain ⟨outcome, hEnds, hYields⟩ := hRuns before after hUnused m hRoom
  split
  case h_1 r hEval =>
    rw [hEval] at hYields
    obtain ⟨m', rfl, hPushed⟩ := hYields
    exact ⟨m', hEnds, hPushed⟩
  case h_2 hEval =>
    rw [hEval] at hYields
    obtain rfl : outcome = .error .divideError := hYields
    obtain ⟨c, hReaches, hStop, -⟩ := hEnds
    exact ⟨c, hReaches, hStop⟩

/-- The expression `x = (y = 9) / (y - 9) - y * -5`, with `x` in the main program and `y` in a
frame. Its divisor is zero only after the dividend has been evaluated. -/
def reassigning : Expr :=
  let y : Expr := .var ⟨4, .address⟩ "y" (some (.localVar 0))
  .assign ⟨4, .int⟩ (.var ⟨4, .address⟩ "x" (some .mainVar))
    (.binary ⟨4, .int⟩ .sub
      (.binary ⟨4, .int⟩ .div (.assign ⟨4, .int⟩ y (.int ⟨4, .int⟩ 9))
        (.binary ⟨4, .int⟩ .sub (.deref ⟨4, .int⟩ y) (.int ⟨4, .int⟩ 9)))
      (.binary ⟨4, .int⟩ .mul (.deref ⟨4, .int⟩ y) (.unary ⟨4, .int⟩ .neg (.int ⟨4, .int⟩ 5))))

/-- Routines leave ones in the registers that they may change. -/
def plainHost : Host where
  address _ := 0x2000
  flags m := m.flags
  scratch _ m := ⟨1, 1, 1, m.flags⟩

def emptyMachine : Machine where
  regs
    | .esp => 0x7000
    | .ebp => 0x7100
    | _ => 0
  flags := ⟨false, false, false⟩
  memory _ := 0

/-- The stack of the empty machine ends between the cells of `x` and `y`. -/
theorem room_reassigning :
    Room plainHost reassigning.accessed reassigning.stackWords emptyMachine.view := by
  have hVariables : ∀ x ∈ reassigning.accessed, x = .main "x" ∨ x = .frame 0 := by decide
  refine ⟨by decide, ?_, ?_⟩
  · intro x hx y hy hNe a ha hb
    rcases hVariables x hx with rfl | rfl <;> rcases hVariables y hy with rfl | rfl
    · exact hNe rfl
    · change (a - 0x2000#32).toNat < 4 at ha
      change (a - 0x70fc#32).toNat < 4 at hb
      bv_omega
    · change (a - 0x70fc#32).toNat < 4 at ha
      change (a - 0x2000#32).toNat < 4 at hb
      bv_omega
    · exact hNe rfl
  · intro x hx a ha hBelow
    change (0x7000#32 - 1 - a).toNat < 4 * 4 at hBelow
    rcases hVariables x hx with rfl | rfl
    · change (a - 0x2000#32).toNat < 4 at ha
      bv_omega
    · change (a - 0x70fc#32).toNat < 4 at ha
      bv_omega

theorem code_preserves_reassigning : reassigning.Arithmetic ∧
    Room plainHost reassigning.accessed reassigning.stackWords emptyMachine.view ∧
    ∃ t ls m', reassigning.code ⟨[], [], []⟩ {} = ⟨(.ok (), t), ls⟩ ∧
      Config.Reaches plainHost ls ⟨0, emptyMachine⟩ ⟨ls.length, m'⟩ ∧
      Pushed plainHost reassigning.accessed reassigning.stackWords emptyMachine.view
        { value := 45
          store := ((emptyMachine.view.cells plainHost).assign (.frame 0) 9).assign (.main "x") 45
          zeroDivisions := [4] } m'.view := by
  have hArithmetic : reassigning.Arithmetic :=
    .assign 4 4 rfl (.binary 4 .sub
      (.binary 4 .div (.assign 4 4 rfl (.int 4 9)) (.binary 4 .sub (.read 4 4 rfl) (.int 4 9)))
      (.binary 4 .mul (.read 4 4 rfl) (.unary 4 .neg (.int 4 5))))
  have hEval : reassigning.eval (emptyMachine.view.cells plainHost) = some
      { value := 45
        store := ((emptyMachine.view.cells plainHost).assign (.frame 0) 9).assign (.main "x") 45
        zeroDivisions := [4] } := rfl
  obtain ⟨t, ls, hCode, hRun⟩ := code_preserves plainHost ⟨[], [], []⟩ hArithmetic {}
  have hRun := hRun [] [] (by intro n _ hMem; cases hMem) emptyMachine room_reassigning
  rw [hEval, List.nil_append, List.append_nil] at hRun
  obtain ⟨m', hReaches, hPushed⟩ := hRun
  exact ⟨hArithmetic, room_reassigning, t, ls, m', hCode, hReaches, hPushed⟩

end Expr.Arithmetic
end TLang
