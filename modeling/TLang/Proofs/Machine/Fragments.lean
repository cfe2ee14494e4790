import TLang.Code.Expr
import TLang.Proofs.Machine.Execution

/-! What pieces of generated code do when they are executed. The lines that a step produces may stand
anywhere behind code that does not use its labels; wherever they stand, they change the machine in
the same way, so a sequence of steps changes it as its parts do one after the other. -/
namespace TLang

open Machine

variable {before : List Line}

/-- The branch labels that will be taken next do not occur in the lines. -/
def EmitState.Unused (s : EmitState) (ls : List Line) : Prop :=
  ∀ n, s.branches ≤ n → Line.label (.branch n) ∉ ls

/-- The lines, produced between two states, do to the machine what `effect` says. -/
structure Fragment (host : Host) (effect : Machine → Except Halt Machine) (s t : EmitState)
    (ls : List Line) : Prop where
  grows : s.branches ≤ t.branches
  /-- Labels that are left to take are not used. -/
  labels : t.Unused ls
  ends : ∀ before after, s.Unused before → ∀ m,
    Ends host (before ++ ls ++ after) before.length (before ++ ls).length m (effect m)

/-- The step succeeds, and its lines do to the machine what `effect` says. -/
def Emit.Performs (host : Host) (x : Emit Unit) (effect : Machine → Except Halt Machine) : Prop :=
  ∀ s, ∃ t ls, x s = ⟨(.ok (), t), ls⟩ ∧ Fragment host effect s t ls

namespace Emit.Performs

variable {host : Host} {x y : Emit Unit} {effect effect' : Machine → Except Halt Machine}

theorem bind (hx : Performs host x effect) (hy : Performs host y effect') :
    Performs host (x >>= fun _ => y) fun m => effect m >>= effect' := by
  intro s
  obtain ⟨s', first, hFirst, h⟩ := hx s
  obtain ⟨t, rest, hRest, h'⟩ := hy s'
  refine ⟨t, first ++ rest, ?_, Nat.le_trans h.grows h'.grows, ?_, ?_⟩
  · rw [bind_apply_ok hFirst, hRest]
  · intro n hn hMem
    rcases List.mem_append.mp hMem with hMem | hMem
    · exact h.labels n (Nat.le_trans h'.grows hn) hMem
    · exact h'.labels n hn hMem
  · intro before after hUnused m
    have hFirstEnds := h.ends before (rest ++ after) hUnused m
    have hUnused' : s'.Unused (before ++ first) := by
      intro n hn hMem
      rcases List.mem_append.mp hMem with hMem | hMem
      · exact hUnused n (Nat.le_trans h.grows hn) hMem
      · exact h.labels n hn hMem
    have hRestEnds := h'.ends (before ++ first) after hUnused'
    simp only [List.append_assoc] at hFirstEnds hRestEnds ⊢
    exact hFirstEnds.bind fun m' _ => hRestEnds m'

/-- A step that does nothing but allow the next one. -/
theorem after_pure {α : Type} {a : α} {f : α → Emit Unit} (h : Performs host (f a) effect) :
    Performs host (Pure.pure a >>= f) effect := by
  rwa [pure_bind]

theorem instrs {is : List Instr} (hStraight : is.all Instr.isStraight = true) :
    Performs host (Emit.instrs is) (Instr.execAll host is) := by
  intro s
  refine ⟨s, is.map .instr, rfl, Nat.le_refl _, ?_, ?_⟩
  · intro n _ hMem
    obtain ⟨i, -, hEq⟩ := List.mem_map.mp hMem
    cases hEq
  · intro before after _ m
    rw [List.length_append, List.length_map]
    exact .instrs host m hStraight rfl

end Emit.Performs

namespace Emit

/-- A division that is carried out, its divisor being in `%ecx`. -/
def quotientCode : List Instr := [.pop .eax, .extendSign, .idiv .ecx, .push (.reg .eax)]

/-- The report of a division by zero. -/
def zeroCode (line : Nat) : List Instr :=
  [.pop .eax, .push (.imm line), SupportRoutine.reportDivideByZero.call, .drop 1, .push (.imm 0)]

/-- What the code of a division does, its two paths told apart by the flags. -/
def divisionEffect (host : Host) (line : Nat) (m : Machine) : Except Halt Machine := do
  let m ← Instr.execAll host [.pop .ecx, .arith .cmp (.imm 0) .ecx] m
  if m.flags.holds .equal then Instr.execAll host (zeroCode line) m
  else Instr.execAll host quotientCode m

/-- The first line that defines a label is found. -/
theorem findIdx?_label {l : Label} (hBefore : Line.label l ∉ before) (after : List Line) :
    (before ++ Line.label l :: after).findIdx? (· == .label l) = some before.length := by
  have hNone : before.findIdx? (· == Line.label l) = none := by
    rw [List.findIdx?_eq_none_iff]
    intro line hLine
    rw [beq_eq_false_iff_ne]
    rintro rfl
    exact hBefore hLine
  rw [List.findIdx?_append, hNone, List.findIdx?_cons]
  simp

/-- The lines of a division with the labels of its two paths. -/
def divisionLines (line : Nat) (zero done : Label) : List Line :=
  [.pop .ecx, .arith .cmp (.imm 0) .ecx, .jumpIf .equal zero].map .instr ++
    quotientCode.map .instr ++ [.instr (.jump done), .label zero] ++
    (zeroCode line).map .instr ++ [.label done]

/-- A division by what is not zero. -/
theorem ends_quotientCode (host : Host) {code after : List Line} {m : Machine} (hEcx : m.regs .ecx ≠ 0)
    (hCode : code = before ++ quotientCode.map .instr ++ after) :
    Ends host code before.length (before.length + 4) m (Instr.execAll host quotientCode m) := by
  let extended := (m.pop .eax).set .edx (if ((m.pop .eax).regs .eax).msb then -1 else 0)
  have hFirst : code = before ++ [.pop .eax, .extendSign].map .instr ++
      (.instr (.idiv .ecx) :: .instr (.push (.reg .eax)) :: after) := by
    simp [hCode, quotientCode]
  have hReaches : Config.Reaches host code ⟨before.length, m⟩ ⟨before.length + 2, extended⟩ :=
    Ends.instrs host m rfl hFirst
  have hDivide : code[before.length + 2]? = some (.instr (.idiv .ecx)) := by simp [hFirst]
  have hPush : code[before.length + 3]? = some (.instr (.push (.reg .eax))) := by simp [hFirst]
  have hRun : Instr.execAll host quotientCode m =
      (Line.instr (.idiv .ecx)).exec host extended >>= Instr.execAll host [.push (.reg .eax)] := rfl
  rw [hRun]
  refine .of_reaches hReaches ((Ends.line hDivide rfl ?_).bind fun m' _ => Ends.next hPush rfl rfl)
  rintro r ⟨⟩
  exact hEcx

/-- Both paths of a division lead to its end. -/
theorem ends_division (host : Host) (line : Nat) {zero done : Label} (hNe : zero ≠ done)
    (hZero : .label zero ∉ before) (hDone : .label done ∉ before) (after : List Line) (m : Machine) :
    Ends host (before ++ divisionLines line zero done ++ after) before.length
      (before ++ divisionLines line zero done).length m (divisionEffect host line m) := by
  obtain ⟨code, hCode⟩ : ∃ code, code = before ++ divisionLines line zero done ++ after := ⟨_, rfl⟩
  have hTest : code = before ++ [.pop .ecx, .arith .cmp (.imm 0) .ecx].map .instr ++
      ((divisionLines line zero done).drop 2 ++ after) := by
    simp [hCode, divisionLines]
  have hQuotient : code = before ++ (divisionLines line zero done).take 3 ++
      quotientCode.map .instr ++ ((divisionLines line zero done).drop 7 ++ after) := by
    simp [hCode, divisionLines, quotientCode]
  have hReport : code = before ++ (divisionLines line zero done).take 9 ++
      (zeroCode line).map .instr ++ ((divisionLines line zero done).drop 14 ++ after) := by
    simp [hCode, divisionLines, quotientCode, zeroCode]
  have hZeroAt : code.findIdx? (· == .label zero) = some (before.length + 8) := by
    have hFree : .label zero ∉ before ++ (divisionLines line zero done).take 8 := by
      simpa [divisionLines, quotientCode] using hZero
    simpa [hCode, divisionLines, quotientCode] using
      findIdx?_label hFree ((divisionLines line zero done).drop 9 ++ after)
  have hDoneAt : code.findIdx? (· == .label done) = some (before.length + 14) := by
    have hFree : .label done ∉ before ++ (divisionLines line zero done).take 14 := by
      simpa [divisionLines, quotientCode, zeroCode] using ⟨hDone, hNe.symm⟩
    simpa [hCode, divisionLines, quotientCode, zeroCode] using findIdx?_label hFree after
  have hBranch : code[before.length + 2]? = some (.instr (.jumpIf .equal zero)) := by
    simp [hCode, divisionLines]
  have hLeave : code[before.length + 7]? = some (.instr (.jump done)) := by
    simp [hCode, divisionLines, quotientCode]
  have hZeroLine : code[before.length + 8]? = some (.label zero) := by
    simp [hCode, divisionLines, quotientCode]
  have hDoneLine : code[before.length + 14]? = some (.label done) := by
    simp [hCode, divisionLines, quotientCode, zeroCode]
  have hStop : (before ++ divisionLines line zero done).length = before.length + 15 := by
    simp [divisionLines, quotientCode, zeroCode]
  rw [← hCode, hStop]
  refine (Ends.instrs host m rfl hTest).bind fun m hTested => ?_
  have hEnd : ∀ m, Config.Reaches host code ⟨before.length + 14, m⟩ ⟨before.length + 15, m⟩ :=
    fun m => Ends.next hDoneLine rfl rfl
  split
  case isTrue hEqual =>
    have hRun := Ends.instrs host m rfl hReport
    rw [List.length_append] at hRun
    exact .jump hBranch (if_pos hEqual) rfl hZeroAt
      (.of_reaches (Ends.next hZeroLine rfl rfl) (hRun.extend hEnd))
  case isFalse hDifferent =>
    have hEcx : m.regs .ecx ≠ 0 := by
      cases hTested
      intro hZero
      refine hDifferent ?_
      show (Flags.ofDifference _ _).holds .equal = true
      rw [Flags.holds_ofDifference]
      exact beq_iff_eq.mpr hZero
    have hRun := ends_quotientCode host hEcx hQuotient
    rw [List.length_append] at hRun
    have hJump : ∀ m, Ends host code (before.length + 7) (before.length + 15) m (.ok m) :=
      fun m => .jump hLeave rfl rfl hDoneAt (hEnd m)
    exact .of_reaches (Ends.next hBranch (if_neg hDifferent) rfl) (hRun.extend hJump)

theorem performs_division (host : Host) (line : Nat) :
    Performs host (division line) (divisionEffect host line) := by
  intro s
  refine ⟨{ s with branches := s.branches + 2 },
    divisionLines line (.branch s.branches) (.branch (s.branches + 1)), rfl, ?_, ?_, ?_⟩
  · show s.branches ≤ s.branches + 2
    omega
  · intro n hn hMem
    change s.branches + 2 ≤ n at hn
    simp [divisionLines, quotientCode, zeroCode] at hMem
    omega
  · intro before after hUnused m
    exact ends_division host line (by simp) (hUnused _ (Nat.le_refl _)) (hUnused _ (by omega)) after m

end Emit
end TLang
