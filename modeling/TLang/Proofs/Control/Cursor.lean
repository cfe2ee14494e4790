import Mathlib
import TLang.Proofs.Arithmetic.Templates
import TLang.Proofs.Labels

/-! Walking through generated code step by step. Where the code of a sequence of steps stands, the code
of its first step stands, and behind it that of the others. On the way it is kept in mind which labels
were taken and have not been met yet, so that the line is known to which a jump leads. -/
namespace TLang

open Machine Emit List

variable {l : Label}

/-- Behind these lines only labels are placed that are not among them: those that may still be handed
out, and those held. -/
structure EmitState.Ahead (s : EmitState) (held : List Label) (before : List Line) : Prop where
  free : s.Free before
  held : ∀ l ∈ held, s.taken l = 1 ∧ Line.label l ∉ before

namespace EmitState.Ahead

variable {s t : EmitState} {held : List Label} {before ls : List Line}

theorem take (h : s.Ahead held before) (hTakes : s.Takes l t) : t.Ahead (l :: held) before := by
  have hLe : ∀ l', s.taken l' + [l].count l' ≤ 1 := fun l' => hTakes.taken l' ▸ t.taken_le_one l'
  have hOld := hLe l
  rw [count_singleton_self] at hOld
  refine ⟨?_, forall_mem_cons.mpr ⟨⟨?_, h.free l (by omega)⟩, ?_⟩⟩
  · intro l' hl'
    rw [hTakes.taken] at hl'
    exact h.free l' (by omega)
  · rw [hTakes.taken, count_singleton_self]
    omega
  · intro l' hl'
    obtain ⟨hTaken, hNotMem⟩ := h.held l' hl'
    have hCount := hLe l'
    refine ⟨?_, hNotMem⟩
    rw [hTakes.taken]
    omega

/-- The lines of a step that has placed its own labels. -/
theorem append (h : s.Ahead held before) (hPlaced : Placement [] s t ls) :
    t.Ahead held (before ++ ls) := by
  refine ⟨hPlaced.free h.free, ?_⟩
  intro l hl
  obtain ⟨hTaken, hNotMem⟩ := h.held l hl
  refine ⟨Nat.le_antisymm (t.taken_le_one l) (hTaken ▸ hPlaced.grows l), ?_⟩
  exact not_mem_append hNotMem (hPlaced.not_mem hTaken)

/-- A label that is placed is no longer held. -/
theorem place {held' : List Label} (h : s.Ahead held before) (hl : l ∈ held) (hSub : held' ⊆ held)
    (hNe : l ∉ held') : s.Ahead held' (before ++ [.label l]) := by
  refine ⟨?_, ?_⟩
  · intro l' hl' hMem
    rcases mem_append.mp hMem with hMem | hMem
    · exact h.free l' hl' hMem
    · cases mem_singleton.mp hMem
      have hTaken := (h.held _ hl).1
      omega
  · intro l' hl'
    obtain ⟨hTaken, hNotMem⟩ := h.held l' (hSub hl')
    refine ⟨hTaken, not_mem_append hNotMem ?_⟩
    intro hMem
    cases mem_singleton.mp hMem
    exact hNe hl'

end EmitState.Ahead

/-- The lines that a step produces stand in the code, behind the lines `before`, and the labels `held`
are still to come. -/
structure Emit.Stands {α : Type} (held : List Label) (x : Emit α) (s t : EmitState)
    (code before ls after : List Line) : Prop where
  run : ∃ a, x s = ⟨(.ok a, t), ls⟩
  code : code = before ++ ls ++ after
  ahead : s.Ahead held before

namespace Emit.Stands

variable {α : Type} {f : Unit → Emit α} {held : List Label} {s t : EmitState} {code before ls after : List Line}

/-- A step that places its own labels, and then the others. -/
theorem bind {x : Emit Unit} (h : Stands held (x >>= f) s t code before ls after) (hx : Places [] x) :
    ∃ s' first rest, ls = first ++ rest ∧ s'.openLoops = s.openLoops ∧
      Stands held x s s' code before first (rest ++ after) ∧
      Stands held (f ()) s' t code (before ++ first) rest after := by
  obtain ⟨a, hRun⟩ := h.run
  obtain ⟨⟨⟩, s', first, rest, hFirst, hRest, rfl⟩ := bind_apply_eq_ok_iff.mp hRun
  have hPlaced := hx s () s' first hFirst
  exact ⟨s', first, rest, rfl, hPlaced.loops, ⟨⟨(), hFirst⟩, by simp [h.code], h.ahead⟩,
    ⟨a, hRest⟩, by simp [h.code], h.ahead.append hPlaced⟩

/-- A label that is held, and then the others. -/
theorem bind_label (held' : List Label) (h : Stands held (label l >>= f) s t code before ls after)
    (hl : l ∈ held) (hSub : held' ⊆ held) (hNe : l ∉ held') : ∃ rest, ls = [.label l] ++ rest ∧
      Stands held (label l) s s code before [.label l] (rest ++ after) ∧
      Stands held' (f ()) s t code (before ++ [.label l]) rest after := by
  obtain ⟨a, hRun⟩ := h.run
  obtain ⟨⟨⟩, s', first, rest, hFirst, hRest, rfl⟩ := bind_apply_eq_ok_iff.mp hRun
  cases hFirst
  exact ⟨rest, rfl, ⟨⟨(), rfl⟩, by simp [h.code], h.ahead⟩,
    ⟨a, hRest⟩, by simp [h.code], h.ahead.place hl hSub hNe⟩

theorem branches {f : Label → Label → Emit α}
    (h : Stands held (freshBranch >>= fun l => freshBranch >>= f l) s t code before ls after) :
    Stands (.branch (s.branches + 1) :: .branch s.branches :: held)
      (f (.branch s.branches) (.branch (s.branches + 1))) { s with branches := s.branches + 2 } t
      code before ls after :=
  ⟨h.run, h.code, (h.ahead.take s.takes_branch).take (EmitState.takes_branch _)⟩

theorem loopLabels {f : LoopLabels → Emit α}
    (h : Stands held (freshLoop >>= f) s t code before ls after) :
    Stands (.loop (s.loops + 1) :: .loop s.loops :: held)
      (f ⟨.loop s.loops, .loop (s.loops + 1)⟩) { s with loops := s.loops + 2 } t code before ls after :=
  ⟨h.run, h.code, (h.ahead.take s.takes_loop).take (EmitState.takes_loop _)⟩

theorem enterLoop {labels : LoopLabels} {f : Unit → Emit α}
    (h : Stands held (enterLoop labels >>= f) s t code before ls after) :
    Stands held (f ()) { s with openLoops := labels :: s.openLoops } t code before ls after :=
  ⟨h.run, h.code, h.ahead.free, h.ahead.held⟩

theorem exitLoop {f : Unit → Emit α}
    (h : Stands held (exitLoop >>= f) s t code before ls after) :
    Stands held (f ()) { s with openLoops := s.openLoops.tail } t code before ls after :=
  ⟨h.run, h.code, h.ahead.free, h.ahead.held⟩

/-- Nothing needs to be known about the labels still to come. -/
theorem forget {x : Emit α} (h : Stands held x s t code before ls after) :
    Stands [] x s t code before ls after :=
  ⟨h.run, h.code, h.ahead.free, nofun⟩

/-- A label that is held is met first where it is placed. -/
theorem findIdx? (h : Stands held (label l) s t code before ls after) (hl : l ∈ held) :
    code.findIdx? (· == .label l) = some before.length := by
  obtain ⟨⟨⟩, hRun⟩ := h.run
  cases hRun
  rw [h.code, append_assoc]
  exact findIdx?_label (h.ahead.held l hl).2 after

section

variable (host : Host) (m : Machine)

/-- Control passes a label. -/
theorem reaches_label (h : Stands held (label l) s t code before ls after) :
    Config.Reaches host code ⟨before.length, m⟩ ⟨(before ++ ls).length, m⟩ := by
  obtain ⟨⟨⟩, hRun⟩ := h.run
  cases hRun
  have hLine : code[before.length]? = some (.label l) := by simp [h.code]
  rw [length_append]
  exact Ends.next hLine rfl rfl

theorem reaches_jump {position : Nat} (h : Stands held (instrs [.jump l]) s t code before ls after)
    (hPosition : code.findIdx? (· == .label l) = some position) :
    Config.Reaches host code ⟨before.length, m⟩ ⟨position, m⟩ := by
  obtain ⟨⟨⟩, hRun⟩ := h.run
  cases hRun
  have hLine : code[before.length]? = some (.instr (.jump l)) := by simp [h.code]
  exact Ends.jump hLine rfl rfl hPosition .refl

/-- Control passes lines that do nothing. -/
theorem reaches_idle (hCode : code = before ++ ls ++ after)
    (hIdle : ∀ l ∈ ls, l.exec host m = .ok m ∧ l.target? m = none) :
    Config.Reaches host code ⟨before.length, m⟩ ⟨(before ++ ls).length, m⟩ := by
  induction ls generalizing before with
  | nil => rw [append_nil]
  | cons l ls ih =>
    obtain ⟨hHead, hTail⟩ := forall_mem_cons.mp hIdle
    have hLine : code[before.length]? = some l := by simp [hCode]
    have hFirst : Ends host code before.length (before.length + 1) m (.ok m) :=
      Ends.next hLine hHead.2 hHead.1
    have hRest := @ih (before ++ [l]) (by simp [hCode]) hTail
    rw [length_append, append_assoc] at hRest
    exact hFirst.trans hRest

variable {host m}

/-- Straight code is executed line by line. -/
theorem reaches_instrs {is : List Instr} {m' : Machine}
    (h : Stands held (instrs is) s t code before ls after) (hStraight : is.all Instr.isStraight = true)
    (hRun : Instr.execAll host is m = .ok m') :
    Config.Reaches host code ⟨before.length, m⟩ ⟨(before ++ ls).length, m'⟩ := by
  obtain ⟨⟨⟩, hLines⟩ := h.run
  cases hLines
  have hEnds := Ends.instrs host m hStraight h.code
  rw [hRun] at hEnds
  rw [length_append, length_map]
  exact hEnds

/-- The word on top of the stack is taken off, and control goes on behind the test unless the word is
zero. -/
theorem reaches_jumpIfZero (host : Host) {value : Int32}
    (h : Stands held (jumpIfZero l) s t code before ls after) (hValue : m.view.word 0 = value.toBitVec) :
    ∃ m', m'.view = m.view.drop 1 ∧
      (value = 0 → ∀ position, code.findIdx? (· == .label l) = some position →
        Config.Reaches host code ⟨before.length, m⟩ ⟨position, m'⟩) ∧
      (value ≠ 0 → Config.Reaches host code ⟨before.length, m⟩ ⟨(before ++ ls).length, m'⟩) := by
  obtain ⟨⟨⟩, hLines⟩ := h.run
  cases hLines
  let tested := (m.pop .eax).arith host .eax 0 .cmp
  have hTest : code = before ++ [.pop .eax, .arith .cmp (.imm 0) .eax].map .instr ++
      (.instr (.jumpIf .equal l) :: after) := by simp [h.code]
  have hRun : Config.Reaches host code ⟨before.length, m⟩ ⟨before.length + 2, tested⟩ :=
    Ends.instrs host m rfl hTest
  have hLine : code[before.length + 2]? = some (.instr (.jumpIf .equal l)) := by simp [hTest]
  have hEqual : tested.flags.holds .equal = decide (value = 0) := by
    show (Flags.ofDifference ((m.pop .eax).regs .eax) 0).holds .equal = _
    rw [Flags.holds_ofDifference, regs_pop, hValue]
    exact toBitVec_beq value 0
  refine ⟨tested, by simp [tested, arith], ?_, ?_⟩
  · intro hZero position hPosition
    refine hRun.trans (Ends.jump hLine ?_ rfl hPosition .refl)
    exact if_pos (by rw [hEqual, decide_eq_true hZero])
  · intro hNonzero
    rw [length_append]
    have hNext : Ends host code (before.length + 2) (before.length + 3) tested (.ok tested) :=
      Ends.next hLine (if_neg (by simpa [hEqual] using hNonzero)) rfl
    exact hRun.trans hNext

end

end Emit.Stands
end TLang
