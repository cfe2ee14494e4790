import TLang.Proofs.Typing.Scope

/-! The nodes of a well-typed program. Whatever holds of every node that the typing rules admit holds
of every node of every body. -/
namespace TLang

open Registry List

variable {e : Expr} {s : Stmt} {c : Option ClassId} {Γ : Env} {select : Selection}

/-- The operands of a well-typed node are well typed. -/
theorem Denotes.operand {node : Expr} {d : Meaning} (h : Denotes Γ select node d) (he : e ∈ node.operands) :
    ∃ d', Denotes Γ select e d' := by
  cases h with
  | int | null | this | var => cases he
  | field _ hOperand | read _ hOperand | unary _ _ hOperand | cast _ hOperand | widen _ hOperand =>
    rw [mem_singleton.mp he]
    exact ⟨_, hOperand⟩
  | assign _ hLeft hRight | arithmetic _ _ hLeft hRight | equality _ hLeft hRight =>
    rcases mem_cons.mp he with rfl | he
    · exact ⟨_, hLeft⟩
    · rw [mem_singleton.mp he]
      exact ⟨_, hRight⟩
  | @call _ receiver _ _ _ _ _ _ hReceiver hArgs =>
    rcases mem_append.mp he with he | he
    · cases receiver with
      | implicit | super => cases he
      | object e' =>
        rw [mem_singleton.mp he]
        exact ⟨_, hReceiver e' rfl⟩
    · exact ⟨_, hArgs e he⟩
  | new _ hArgs => exact ⟨_, hArgs e he⟩

theorem Denotes.part {root : Expr} (hPart : e.IsPart root) {d : Meaning} (h : Denotes Γ select root d) :
    ∃ d', Denotes Γ select e d' := by
  induction hPart generalizing d with
  | refl => exact ⟨d, h⟩
  | step hOperand _ ih =>
    obtain ⟨d', h'⟩ := h.operand hOperand
    exact ih h'

namespace Stmt

/-- The expressions of a well-typed statement have values. -/
theorem Typed.operand {inLoop : Bool} (h : s.Typed Γ select inLoop) (he : e ∈ s.operands) :
    ∃ ty, Denotes Γ select e (.value ty) := by
  cases s with
  | declare | block | breakLoop | continueLoop | empty => cases he
  | expr =>
    rw [mem_singleton.mp he]
    obtain ⟨ty, h⟩ := h
    exact ⟨_, h⟩
  | print =>
    rw [mem_singleton.mp he]
    exact ⟨_, h⟩
  | branch | loop =>
    rw [mem_singleton.mp he]
    exact ⟨_, h.1⟩
  | ret => exact h.1.denotes (Option.mem_toList.mp he)
  | delete =>
    rw [mem_singleton.mp he]
    obtain ⟨c, h⟩ := h
    exact ⟨_, h⟩
  | construct =>
    obtain ⟨c, m, -, -, hArgs, -⟩ := h
    exact ⟨_, hArgs e he⟩

mutual

/-- The statements inside a well-typed one are well typed. -/
theorem Typed.part {part : Stmt} {inLoop : Bool} : (s : Stmt) → s.Typed Γ select inLoop →
    part ∈ s.parts → ∃ inLoop', part.Typed Γ select inLoop'
  | .expr _ _, h, hPart | .declare _ _ _, h, hPart | .print _ _, h, hPart | .ret _ _ _, h, hPart
  | .breakLoop _, h, hPart | .continueLoop _, h, hPart | .delete _ _, h, hPart
  | .construct _ _ _ _, h, hPart | .empty _, h, hPart => by
    rw [mem_singleton.mp hPart]
    exact ⟨inLoop, h⟩
  | .block _ body, h, hPart => by
    rcases mem_cons.mp hPart with rfl | hPart
    · exact ⟨inLoop, h⟩
    · exact AllTyped.part body h hPart
  | .branch _ _ thenBranch elseBranch, h, hPart => by
    rcases mem_cons.mp hPart with rfl | hPart
    · exact ⟨inLoop, h⟩
    · rcases mem_append.mp hPart with hPart | hPart
      · exact Typed.part thenBranch h.2.1 hPart
      · exact ElseTyped.part elseBranch h.2.2 hPart
  | .loop _ _ body, h, hPart => by
    rcases mem_cons.mp hPart with rfl | hPart
    · exact ⟨inLoop, h⟩
    · exact Typed.part body h.2 hPart

theorem ElseTyped.part {part : Stmt} {inLoop : Bool} : (s : Option Stmt) →
    ElseTyped Γ select inLoop s → part ∈ partsOfElse s → ∃ inLoop', part.Typed Γ select inLoop'
  | none, _, hPart => by cases hPart
  | some s, h, hPart => Typed.part s h hPart

theorem AllTyped.part {part : Stmt} {inLoop : Bool} : (body : List Stmt) →
    AllTyped Γ select inLoop body → part ∈ partsOfAll body → ∃ inLoop', part.Typed Γ select inLoop'
  | [], _, hPart => by cases hPart
  | s :: rest, h, hPart => by
    rcases mem_append.mp hPart with hPart | hPart
    · exact Typed.part s h.1 hPart
    · exact AllTyped.part rest h.2 hPart

end

end Stmt

namespace Program

variable {p : Program} {names : String → Prop}

/-- The statement stands in a body of the class or, if none is named, in the main block. -/
def HasStatement (p : Program) : Option ClassId → Stmt → Prop
  | some c, s => ∃ d ∈ p.classes, d.resolved = some c ∧ s ∈ d.statements
  | none, s => s ∈ Stmt.partsOfAll p.main.body

/-- The expression is a node of such a statement. -/
def HasNode (p : Program) (c : Option ClassId) (e : Expr) : Prop :=
  ∃ s, p.HasStatement c s ∧ ∃ root ∈ s.operands, e.IsPart root

theorem HasStatement.mem_statements (h : p.HasStatement c s) : s ∈ p.statements := by
  cases c with
  | none => exact mem_append_right _ h
  | some c =>
    obtain ⟨d, hd, -, hs⟩ := h
    exact mem_append_left _ (mem_flatMap.mpr ⟨d, hd, hs⟩)

/-- A statement of a well-typed program is well typed where it stands. -/
theorem Typed.statement (hTyped : p.Typed Γ select) (hΓ : Γ.WellFormed names) (hs : p.HasStatement c s) :
    ∃ position inLoop, (Γ.placed position).Sound names ∧ (Γ.placed position).owner? = c ∧
      s.Typed (Γ.placed position) select inLoop := by
  cases c with
  | none =>
    obtain ⟨inLoop, h⟩ := Stmt.AllTyped.part _ hTyped.2 hs
    exact ⟨{ inMain := true }, inLoop, hΓ.placed_main, rfl, h⟩
  | some c =>
    obtain ⟨d, hd, hResolved, hs⟩ := hs
    obtain ⟨c', hResolved', hBelow, hMembers⟩ := hTyped.1 d hd
    rw [hResolved] at hResolved'
    cases hResolved'
    obtain ⟨member, hMember, hs⟩ := mem_flatMap.mp hs
    cases member with
    | field d => cases hs
    | method d =>
      obtain ⟨m, -, hRecords, hBody⟩ := hMembers _ hMember
      obtain ⟨inLoop, h⟩ := Stmt.AllTyped.part _ hBody hs
      refine ⟨_, inLoop, hΓ.placed_method hBelow hRecords.mem, ?_, h⟩
      exact congrArg some ((hΓ.settled.coherent c).routine m hRecords.mem).owner

/-- A node of a well-typed program is well typed where it stands. -/
theorem Typed.node (hTyped : p.Typed Γ select) (hΓ : Γ.WellFormed names) (he : p.HasNode c e) :
    ∃ position d, (Γ.placed position).Sound names ∧ (Γ.placed position).owner? = c ∧
      Denotes (Γ.placed position) select e d := by
  obtain ⟨s, hs, root, hRoot, hPart⟩ := he
  obtain ⟨position, inLoop, hSound, hOwner, hStmt⟩ := hTyped.statement hΓ hs
  obtain ⟨d, hDenotes⟩ := hStmt.operand hRoot
  obtain ⟨d', hNode⟩ := hDenotes.part hPart
  exact ⟨position, d', hSound, hOwner, hNode⟩

end Program
end TLang
