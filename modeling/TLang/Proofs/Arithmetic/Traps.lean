import TLang.Proofs.Arithmetic.Preservation

/-! Divisions that trap. Whatever the operands are, the code of an arithmetic expression never divides by
zero. It traps just where the evaluator has no value: where the least integer is divided by minus one. -/
namespace TLang

open Machine

variable {host : Host} {code : List Line} {c c' start : Config}

/-- Only divisions raise divide errors. -/
theorem Line.exists_idiv {l : Line} {m : Machine} (h : l.exec host m = .error .divideError) :
    ∃ r, l = .instr (.idiv r) := by
  cases l with
  | instr i =>
    cases i with
    | idiv r => exact ⟨r, rfl⟩
    | mov source target => cases target <;> cases h
    | lea source target => cases source <;> cases h
    | call target =>
      cases target with
      | symbol name =>
        simp only [exec, Instr.exec] at h
        split at h <;> cases h
      | branch | loop => cases h
    | _ => cases h
  | _ => cases h

namespace Config

/-- The machine is about to divide by zero, or to compute a quotient that is not within a word. -/
def Traps (code : List Line) (c : Config) : Prop :=
  ∃ r, code[c.line]? = some (.instr (.idiv r)) ∧
    let quotient := c.machine.dividend.tdiv (c.machine.regs r).toInt
    (c.machine.regs r = 0 ∨ quotient < -2 ^ 31 ∨ 2 ^ 31 ≤ quotient)

theorem traps_iff (host : Host) : c.Traps code ↔ c.step host code = .error .divideError := by
  constructor
  · rintro ⟨r, hLine, hTrap⟩
    have hExec : (Line.instr (.idiv r)).exec host c.machine = .error .divideError := if_pos hTrap
    rw [step, hLine]
    simp only [hExec]
    rfl
  · intro h
    rw [step] at h
    split at h
    · cases h
    · rename_i l hLine
      cases hExec : l.exec host c.machine with
      | ok m =>
        simp only [hExec, bind, Except.bind] at h
        split at h
        · cases h
        · split at h <;> cases h
      | error halt =>
        rw [hExec] at h
        cases h
        obtain ⟨r, rfl⟩ := Line.exists_idiv hExec
        refine ⟨r, hLine, ?_⟩
        by_contra hFits
        cases hExec.symm.trans (if_neg hFits)

/-- Execution gets stuck in one place at most. -/
theorem Reaches.eq_of_stuck {halt halt' : Halt} (h : Reaches host code start c)
    (h' : Reaches host code start c') (hStuck : c.step host code = .error halt)
    (hStuck' : c'.step host code = .error halt') : c = c' := by
  have hUnique : Relator.RightUnique fun c c' : Config => c.step host code = .ok c' :=
    fun _ _ _ hStep hStep' => Except.ok.inj (hStep.symm.trans hStep')
  rcases h.total_of_right_unique hUnique h' with hMore | hMore
  · rcases hMore.cases_head with rfl | ⟨d, hStep, -⟩
    · rfl
    · cases hStep.symm.trans hStuck
  · rcases hMore.cases_head with rfl | ⟨d, hStep, -⟩
    · rfl
    · cases hStep.symm.trans hStuck'

end Config

namespace Expr.Arithmetic

variable {e : Expr}

/-- The code of an arithmetic expression is generated, and executed on its own it comes to a division that traps
just if the expression has no value. The divisor is not zero there. Expressions with fields, calls or objects
are left out. -/
theorem code_traps (host : Host) (types : Registry) (h : e.Arithmetic) (s : EmitState) :
    ∃ t ls, e.code types s = ⟨(.ok (), t), ls⟩ ∧ ∀ before, s.Unused before →
      ∀ m, Room host e.accessed e.stackWords m.view →
        ((∃ c, Config.Reaches host (before ++ ls) ⟨before.length, m⟩ c ∧ c.Traps (before ++ ls)) ↔
          e.eval (m.view.cells host) = none) ∧
        ∀ c, Config.Reaches host (before ++ ls) ⟨before.length, m⟩ c →
          ∀ r, (before ++ ls)[c.line]? = some (.instr (.idiv r)) → c.machine.regs r ≠ 0 := by
  obtain ⟨t, ls, hCode, hRuns⟩ := h.exists_ends host types s
  refine ⟨t, ls, hCode, fun before hUnused m hRoom => ?_⟩
  obtain ⟨outcome, hEnds, hYields⟩ := hRuns before [] hUnused m hRoom
  rw [List.append_nil] at hEnds
  -- The one place where execution gets stuck is the line behind the code, or else a division.
  cases hEval : e.eval (m.view.cells host) with
  | some r =>
    rw [hEval] at hYields
    obtain ⟨m', rfl, -⟩ := hYields
    have hEnd : (⟨(before ++ ls).length, m'⟩ : Config).step host (before ++ ls) = .error .endOfCode := by
      rw [Config.step, List.getElem?_eq_none (Nat.le_refl _)]
    have hNone : ∀ c, Config.Reaches host (before ++ ls) ⟨before.length, m⟩ c → ¬ c.Traps (before ++ ls) := by
      intro c hc hTraps
      have hStuck := (Config.traps_iff host).mp hTraps
      obtain rfl := hc.eq_of_stuck hEnds hStuck hEnd
      cases hStuck.symm.trans hEnd
    refine ⟨⟨?_, fun hEval => by cases hEval⟩, ?_⟩
    · rintro ⟨c, hc, hTraps⟩
      exact absurd hTraps (hNone c hc)
    · exact fun c hc r hLine hZero => hNone c hc ⟨r, hLine, .inl hZero⟩
  | none =>
    rw [hEval] at hYields
    obtain rfl : outcome = .error .divideError := hYields
    obtain ⟨c, hc, hStuck, hDivisor⟩ := hEnds
    refine ⟨⟨fun _ => rfl, fun _ => ⟨c, hc, (Config.traps_iff host).mpr hStuck⟩⟩, ?_⟩
    intro c' hc' r hLine hZero
    have hStuck' := (Config.traps_iff host).mp ⟨r, hLine, .inl hZero⟩
    obtain rfl := hc.eq_of_stuck hc' hStuck hStuck'
    exact hDivisor r hLine hZero

/-- The quotient of two literals. -/
def literalQuotient (a b : Int32) : Expr := .binary ⟨1, .int⟩ .div (.int ⟨1, .int⟩ a) (.int ⟨1, .int⟩ b)

theorem arithmetic_literalQuotient (a b : Int32) : (literalQuotient a b).Arithmetic :=
  .binary 1 .div (.int 1 a) (.int 1 b)

theorem room_literalQuotient (a b : Int32) :
    Room plainHost (literalQuotient a b).accessed (literalQuotient a b).stackWords emptyMachine.view :=
  ⟨show 4 * 2 ≤ 2 ^ 32 by decide, fun _ hx => absurd hx List.not_mem_nil, fun _ hx => absurd hx List.not_mem_nil⟩

theorem unused_nil (s : EmitState) : s.Unused [] := fun _ _ => List.not_mem_nil

/-- A division by zero does not trap. -/
theorem code_traps_literalQuotient : (literalQuotient 7 0).Arithmetic ∧
    ∃ t ls, (literalQuotient 7 0).code ⟨[], [], []⟩ {} = ⟨(.ok (), t), ls⟩ ∧
      ¬ ∃ c, Config.Reaches plainHost ls ⟨0, emptyMachine⟩ c ∧ c.Traps ls := by
  have hArithmetic := arithmetic_literalQuotient 7 0
  obtain ⟨t, ls, hCode, hRuns⟩ := code_traps plainHost ⟨[], [], []⟩ hArithmetic {}
  obtain ⟨hTraps, -⟩ := hRuns [] (unused_nil _) emptyMachine (room_literalQuotient 7 0)
  exact ⟨hArithmetic, t, ls, hCode, fun h => by cases hTraps.mp h⟩

/-- The quotient of the least integer and minus one traps. -/
theorem code_traps_on_least : (literalQuotient Int32.minValue (-1)).Arithmetic ∧
    ∃ t ls, (literalQuotient Int32.minValue (-1)).code ⟨[], [], []⟩ {} = ⟨(.ok (), t), ls⟩ ∧
      ∃ c, Config.Reaches plainHost ls ⟨0, emptyMachine⟩ c ∧ c.Traps ls := by
  have hArithmetic := arithmetic_literalQuotient Int32.minValue (-1)
  obtain ⟨t, ls, hCode, hRuns⟩ := hArithmetic.exists_ends plainHost ⟨[], [], []⟩ {}
  obtain ⟨outcome, hEnds, hYields⟩ := hRuns [] [] (unused_nil _) emptyMachine (room_literalQuotient _ _)
  obtain rfl : outcome = .error .divideError := hYields
  rw [List.nil_append, List.append_nil] at hEnds
  obtain ⟨c, hc, hStuck, -⟩ := hEnds
  exact ⟨hArithmetic, t, ls, hCode, c, hc, (Config.traps_iff plainHost).mpr hStuck⟩

end Expr.Arithmetic
end TLang
