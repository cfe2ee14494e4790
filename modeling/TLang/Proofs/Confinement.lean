import TLang.Proofs.Stack.Discipline
import TLang.Proofs.Typing.Nodes
import TLang.Proofs.Variables

/-! What stands in the code of a body. Apart from the cells of variables it defines numbered labels
only, it never returns on its own account, and it mentions nothing but routines that are linked in
or registered, tables of registered classes and variables of the main block. Every jump stays inside
the body or goes to one of the exits that its returns name. -/
namespace TLang

open List

variable {c : ClassId} {i : Instr} {last : List Instr} {name : String} {t s : EmitState}
  {ls : List Line} {body : List Stmt}

/-- The place whose address an operand is. -/
def Operand.place? : Operand → Option Label
  | addr place => some place
  | _ => none

/-- The places that an instruction names in order to call them or to take their address. -/
def Instr.mentions : Instr → List Label
  | push source | lea source _ | arith _ source _ => source.place?.toList
  | mov source target => source.place?.toList ++ target.place?.toList
  | call target => [target]
  | _ => []

/-- An instruction that mentions no place and does not return. -/
def Instr.isPlain : Instr → Bool
  | ret => false
  | i => i.mentions.isEmpty

namespace Line

/-- The places that a line names, jumps apart. -/
def mentions : Line → List Label
  | instr i => i.mentions
  | word place => place.toList
  | _ => []

/-- The name that a line defines. -/
def symbol? : Line → Option String
  | label (.symbol name) | cell name => some name
  | _ => none

/-- A line that may stand in a body, with the names that it may mention. -/
def InBody (known : String → Prop) (inMain : Bool) : Line → Prop
  | instr i => i ≠ .ret ∧ ∀ place ∈ i.mentions, ∃ name, place = .symbol name ∧ known name
  | label l => l.IsNumbered
  | dataSection | textSection | align | cell _ => inMain = true
  | _ => False

end Line

namespace Emit

variable {α β : Type} {known : String → Prop} {cells more : List String} {f : α → Emit β} {x : Emit α}

/-- Whenever the step succeeds, its lines may stand in a body, and the names that they define are
those of the cells, in the main block. -/
def Writes (known : String → Prop) (cells : List String) (x : Emit α) : Prop :=
  ∀ s a t ls, x s = ⟨(.ok a, t), ls⟩ → t.inMain = s.inMain ∧ (∀ l ∈ ls, l.InBody known s.inMain) ∧
    ls.filterMap Line.symbol? = if s.inMain then cells.map mainVarLabel else []

namespace Writes

theorem pure (a : α) : Writes known [] (Pure.pure a : Emit α) := by
  intro s b t ls h
  cases h
  exact ⟨rfl, by simp, by simp⟩

theorem throw (refusal : Refusal) : Writes known cells (throw refusal : Emit α) := by
  intro s b t ls h
  cases h

theorem require (refusal : Refusal) (a : Option α) : Writes known [] (require refusal a) := by
  cases a with
  | none => exact throw refusal
  | some a => exact pure a

theorem required {refusal : Refusal} {a : α} (h : Writes known cells (f a)) :
    Writes known cells (Emit.require refusal (some a) >>= f) := h

theorem bind (hx : Writes known cells x) (hf : ∀ a, Writes known more (f a)) :
    Writes known (cells ++ more) (x >>= f) := by
  intro s b t ls h
  obtain ⟨a, s', first, rest, hFirst, hRest, rfl⟩ := bind_apply_eq_ok_iff.mp h
  obtain ⟨hMain, hLines, hCells⟩ := hx s a s' first hFirst
  obtain ⟨hMain', hLines', hCells'⟩ := hf a s' b t rest hRest
  rw [hMain] at hMain' hLines' hCells'
  refine ⟨hMain', forall_mem_append.mpr ⟨hLines, hLines'⟩, ?_⟩
  rw [filterMap_append, hCells, hCells', map_append]
  split <;> rfl

/-- Steps that reserve no cells, in front of others. -/
theorem after (hx : Writes known [] x) (hf : ∀ a, Writes known cells (f a)) : Writes known cells (x >>= f) :=
  bind hx hf

/-- Steps that reserve no cells, behind others. -/
theorem before (hx : Writes known cells x) (hf : ∀ a, Writes known [] (f a)) : Writes known cells (x >>= f) :=
  append_nil cells ▸ bind hx hf

/-- Instructions and numbered labels define no names. -/
theorem lines {ls : List Line} (hLines : ∀ l ∈ ls, l.InBody known false) :
    Writes known [] (lines ls) := by
  intro s a t ls' h
  cases h
  refine ⟨rfl, ?_, ?_⟩
  · intro l hl
    have hLine := hLines l hl
    cases l with
    | instr | label => exact hLine
    | _ => cases hLine
  · rw [map_nil, ite_self, filterMap_eq_nil_iff]
    intro l hl
    have hLine := hLines l hl
    cases l with
    | label l =>
      cases l with
      | symbol name => exact hLine.elim
      | branch | loop => rfl
    | instr => rfl
    | _ => cases hLine

theorem instrs {is : List Instr} (h : ∀ i ∈ is, i ≠ .ret ∧
    ∀ place ∈ i.mentions, ∃ name, place = .symbol name ∧ known name) :
    Writes known [] (instrs is) := by
  apply lines
  intro l hl
  obtain ⟨i, hi, rfl⟩ := mem_map.mp hl
  exact h i hi

theorem label {l : Label} (h : l.IsNumbered) : Writes known [] (label l) :=
  lines (forall_mem_singleton.mpr h)

theorem branch {f : Label → Emit β} (hf : ∀ l, l.IsNumbered → Writes known cells (f l)) :
    Writes known cells (freshBranch >>= f) := by
  intro s b t ls h
  exact hf (.branch s.branches) trivial { s with branches := s.branches + 1 } b t ls h

theorem loopLabels {f : LoopLabels → Emit β}
    (hf : ∀ p, p.cond.IsNumbered → p.exit.IsNumbered → Writes known cells (f p)) :
    Writes known cells (freshLoop >>= f) := by
  intro s b t ls h
  exact hf ⟨.loop s.loops, .loop (s.loops + 1)⟩ trivial trivial { s with loops := s.loops + 2 } b t
    ls h

theorem enterLoop (p : LoopLabels) : Writes known [] (enterLoop p) := by
  intro s a t ls h
  cases h
  exact ⟨rfl, by simp, by simp⟩

theorem exitLoop : Writes known [] exitLoop := by
  intro s a t ls h
  cases h
  exact ⟨rfl, by simp, by simp⟩

end Writes

theorem isPlain_iff : i.isPlain = true ↔ i ≠ .ret ∧ i.mentions = [] := by
  cases i <;> simp [Instr.isPlain, Instr.mentions]

/-- Instructions that mention nothing. -/
theorem writes_plain {is : List Instr} (h : is.all Instr.isPlain = true) :
    Writes known [] (instrs is) := by
  apply Writes.instrs
  intro i hi
  obtain ⟨hRet, hNone⟩ := isPlain_iff.mp (all_eq_true.mp h i hi)
  exact ⟨hRet, by simp [hNone]⟩

/-- Instructions, one of which mentions a name. -/
theorem writes_mention (first : List Instr) (hName : known name) (hRet : i ≠ .ret)
    (hMentions : i.mentions = [.symbol name]) (hFirst : first.all Instr.isPlain = true)
    (hLast : last.all Instr.isPlain = true) : Writes known [] (instrs (first ++ i :: last)) := by
  apply Writes.instrs
  intro j hj
  rcases mem_append.mp hj with hj | hj
  · obtain ⟨hRet, hNone⟩ := isPlain_iff.mp (all_eq_true.mp hFirst j hj)
    exact ⟨hRet, by simp [hNone]⟩
  · rcases mem_cons.mp hj with rfl | hj
    · exact ⟨hRet, by simp [hMentions, hName]⟩
    · obtain ⟨hRet, hNone⟩ := isPlain_iff.mp (all_eq_true.mp hLast j hj)
      exact ⟨hRet, by simp [hNone]⟩

theorem writes_requireTyped (mark : Mark) : Writes known [] (requireTyped mark) := by
  rw [requireTyped]
  split
  · exact .throw _
  · exact .throw _
  · exact .pure ()

theorem writes_leaveRound (line : Nat) (exit : LoopExit) : Writes known [] (leaveRound line exit) := by
  intro s a t ls h
  obtain ⟨labels, -, -, hJump⟩ := leaveRound_eq_ok h
  exact writes_plain rfl s () t ls hJump

theorem filterMap_symbol_cells (names : List String) :
    (names.flatMap fun name => [Line.dataSection, .align, .cell (mainVarLabel name),
      .textSection]).filterMap Line.symbol? = names.map mainVarLabel := by
  induction names with
  | nil => rfl
  | cons name names ih =>
    rw [flatMap_cons, filterMap_append, ih]
    rfl

/-- Declarations define a cell for each name in the main block. Elsewhere they write nothing, as variables live
on the stack. -/
theorem writes_declareCells (names : List String) : Writes known names (declareCells names) := by
  intro s a t ls h
  obtain ⟨b, s', first, rest, hFirst, hRest, rfl⟩ := bind_apply_eq_ok_iff.mp h
  cases hFirst
  split at hRest
  case isTrue hMain =>
    cases hRest
    refine ⟨rfl, ?_, ?_⟩
    · intro l hl
      obtain ⟨name, -, hl⟩ := mem_flatMap.mp hl
      simp only [mem_cons, not_mem_nil, or_false] at hl
      rcases hl with rfl | rfl | rfl | rfl <;> exact hMain
    · rw [if_pos hMain]
      exact filterMap_symbol_cells names
  case isFalse hMain =>
    cases hRest
    exact ⟨rfl, by simp, by simp [hMain]⟩

end Emit

open Emit Registry

/-- The names that code may mention, with the given variables in the main block. -/
inductive Registry.Mentions (r : Registry) (globals : List String) : String → Prop where
  | support (routine : SupportRoutine) : Mentions r globals routine.symbol
  | routine {c : ClassId} {m : MethodId} (hm : m ∈ (r.classInfo c).methods) :
      Mentions r globals (r.methodInfo m).label
  | table {c : ClassId} (hc : c.index < r.classes.length) :
      Mentions r globals (r.classInfo c).vmtLabel
  | cell {name : String} (hName : name ∈ globals) : Mentions r globals (mainVarLabel name)

namespace Env

/-- The names that code in an environment may mention. -/
abbrev Mentions (Γ : Env) : String → Prop := Γ.types.Mentions Γ.globals.names.names

/-- Whatever is selected is declared in some class, and the classes that are found are registered. -/
structure SelectsDeclared (Γ : Env) (select : Selection) : Prop where
  declared : ∀ c kind name args m, select c kind name args m → ∃ a, m ∈ (Γ.types.classInfo a).methods
  found : Γ.types.FoundByName

theorem selectsDeclared {names : String → Prop} {Γ : Env} (h : Γ.types.Settled names)
    (p : Position) : (Γ.placed p).SelectsDeclared (Γ.Selects names) := by
  refine ⟨?_, h.lineal.found⟩
  rintro c kind name args m ⟨-, exact, hResolve, -⟩
  obtain ⟨a, -, hMem, -⟩ := h.coherent.indexed.resolveMethod_eq_some hResolve
  exact ⟨a, hMem⟩

end Env

variable {Γ : Env} {select : Selection}

theorem Env.Declares.writes_storageAddress {storage : Storage} {ty : Ty} (h : Γ.Declares name storage ty) :
    Writes Γ.Mentions [] (storageAddress name storage) := by
  cases h with
  | localVar | param | field => exact writes_plain rfl
  | mainVar _ hType =>
    have hName : name ∈ Γ.globals.names.names := mem_map_of_mem (Bindings.mem_of_type? hType)
    exact writes_mention [] (.cell hName) (by simp) rfl rfl rfl

namespace Emit

theorem writes_call (r : SupportRoutine) (first : List Instr) (hFirst : first.all Instr.isPlain = true)
    (hLast : last.all Instr.isPlain = true) : Writes Γ.Mentions [] (instrs (first ++ r.call :: last)) :=
  writes_mention first (.support r) (by simp [SupportRoutine.call]) rfl hFirst hLast

variable (line : Nat)

theorem writes_nullCheck : Writes Γ.Mentions [] (nullCheck line) :=
  writes_call .checkNull [_] rfl rfl

theorem writes_castCheck (hc : c.index < Γ.types.classes.length) (line : Nat) :
    Writes Γ.Mentions [] (castCheck (Γ.types.classInfo c).vmtLabel line) := by
  have hTable : Writes Γ.Mentions []
      (instrs [.push (.addr (.symbol (Γ.types.classInfo c).vmtLabel))]) :=
    writes_mention [] (.table hc) (by simp) rfl rfl rfl
  have hCall : Writes Γ.Mentions []
      (instrs [.push (.imm line), SupportRoutine.checkCast.call, .drop 2]) :=
    writes_call .checkCast [_] rfl rfl
  exact .after hTable fun _ => hCall

theorem writes_applyBinary (op : BinaryOp) : Writes Γ.Mentions [] (applyBinary line op) := by
  cases op with
  | add | sub | mul | eq | lt | gt => exact writes_plain rfl
  | div =>
    refine .branch fun _ hZero => .branch fun _ hDone => .after (writes_plain rfl) fun _ => ?_
    refine .after (.label hZero) fun _ => .after ?_ fun _ => .label hDone
    exact writes_call .reportDivideByZero [_, _] rfl rfl

theorem writes_memoryCheck : Writes Γ.Mentions [] (memoryCheck line) := by
  refine .branch fun _ hDone => .after ?_ fun _ => .label hDone
  exact writes_call .reportOutOfMemory [_, _, _] rfl rfl

theorem writes_virtualCall (slot : Option Nat) : Writes Γ.Mentions [] (virtualCall line slot) :=
  .after (.require _ _) fun _ => writes_plain rfl

theorem writes_allocation {a : ClassId} {m : MethodId} (hc : c.index < Γ.types.classes.length)
    (hm : m ∈ (Γ.types.classInfo a).methods) (line args : Nat) :
    Writes Γ.Mentions [] (allocation Γ.types line c m args) := by
  have hTable : Writes Γ.Mentions [] (instrs
      [.mov (.addr (.symbol (Γ.types.classInfo c).vmtLabel)) (.mem 0 .eax), .push (.reg .eax)]) :=
    writes_mention [] (.table hc) (by simp) rfl rfl rfl
  have hCall : Writes Γ.Mentions []
      (instrs [.call (.symbol (Γ.types.methodInfo m).label), .pop .eax]) :=
    writes_mention [] (.routine hm) (by simp) rfl rfl rfl
  refine .after (writes_call .allocate [_, _] rfl rfl) fun _ => ?_
  refine .after (writes_memoryCheck line) fun _ => .after (.after hTable fun _ => hCall) fun _ => ?_
  exact iteInduction (fun _ => .after (writes_plain rfl) fun _ => writes_plain rfl) fun _ => writes_plain rfl

end Emit

theorem Expr.writes_codeArgs {args : List Expr}
    (h : ∀ a ∈ args, Writes Γ.Mentions [] (a.code Γ.types)) :
    Writes Γ.Mentions [] (codeArgs Γ.types args) := by
  induction args with
  | nil => exact .pure ()
  | cons a args ih =>
    refine .after (ih fun b hb => h b (mem_cons_of_mem _ hb)) fun _ => ?_
    exact h a mem_cons_self

/-- The code of a well-typed expression. -/
theorem Denotes.writes_code (hSelect : Γ.SelectsDeclared select) {e : Expr} {d : Meaning}
    (h : Denotes Γ select e d) : Writes Γ.Mentions [] (e.code Γ.types) := by
  induction h with
  | int | null | this => exact .after (writes_requireTyped _) fun _ => writes_plain rfl
  | var line hDeclares =>
    exact .after (writes_requireTyped _) fun _ => .required hDeclares.writes_storageAddress
  | field line hObject hType hOffset ih =>
    exact .after (writes_requireTyped _) fun _ => .required <| .after ih fun _ =>
      .after (writes_nullCheck _) fun _ => writes_plain rfl
  | read line hAddress ih =>
    exact .after (writes_requireTyped _) fun _ => .after ih fun _ => writes_plain rfl
  | assign line hTarget hValue ihTarget ihValue =>
    exact .after (writes_requireTyped _) fun _ => .after ihTarget fun _ => .after ihValue fun _ =>
      writes_plain rfl
  | arithmetic line hOp hLeft hRight ihLeft ihRight
  | equality line hLeft hRight hComparable ihLeft ihRight =>
    exact .after (writes_requireTyped _) fun _ => .after ihLeft fun _ => .after ihRight fun _ =>
      writes_applyBinary _ _
  | unary line op hOperand ih =>
    refine .after (writes_requireTyped _) fun _ => .after ih fun _ => ?_
    cases op <;> exact writes_plain rfl
  | @call line receiver name args c m slot ty hReceiver hArgs hLooksIn hCall hReturns hSlot
      ihReceiver ihArgs =>
      refine .after (writes_requireTyped _) fun _ => .required <|
        .after (Expr.writes_codeArgs ihArgs) fun _ => .after ?_ fun _ => writes_plain rfl
      cases receiver with
      | implicit => exact .after (writes_plain rfl) fun _ => writes_virtualCall _ _
      | super =>
        obtain ⟨a, hMem⟩ := hSelect.declared _ _ _ _ _ hCall
        refine .after (writes_plain rfl) fun _ => ?_
        exact writes_mention [] (.routine hMem) (by simp) rfl rfl rfl
      | object e =>
        exact .after (ihReceiver e rfl) fun _ => .after (writes_nullCheck _) fun _ =>
          writes_virtualCall _ _
  | @new line className args c m hArgs hClass hNew ihArgs =>
    obtain ⟨a, hMem⟩ := hSelect.declared _ _ _ _ _ hNew
    exact .after (writes_requireTyped _) fun _ => .required <| .required <|
      .after (Expr.writes_codeArgs ihArgs) fun _ =>
        writes_allocation ((hSelect.found _ _).mp hClass).1 hMem _ _
  | cast line hOperand hTy hClass ih =>
    exact .after (writes_requireTyped _) fun _ => .required <| .after ih fun _ =>
      writes_castCheck ((hSelect.found _ _).mp hClass).1 _
  | widen line hOperand hAssignable hProper ih => exact .after (writes_requireTyped _) fun _ => ih

namespace Stmt

mutual

/-- The code of a well-typed statement. -/
theorem writes_code (hSelect : Γ.SelectsDeclared select) {inLoop : Bool} : (s : Stmt) →
    s.Typed Γ select inLoop → Writes Γ.Mentions (s.parts.flatMap declared) (s.code Γ.types)
  | .expr _ _, ⟨_, he⟩ => .after (he.writes_code hSelect) fun _ => writes_plain rfl
  | .declare _ _ names, _ => by
    simpa [parts, declared, code] using writes_declareCells names
  | .print _ _, he => .after (he.writes_code hSelect) fun _ => writes_call .outputInteger [] rfl rfl
  | .block _ body, hBody => writes_codeAll hSelect body hBody
  | .branch line cond thenBranch elseBranch, ⟨hCond, hThen, hElse⟩ => by
    have hParts : (Stmt.branch line cond thenBranch elseBranch).parts.flatMap declared =
        thenBranch.parts.flatMap declared ++ (partsOfElse elseBranch).flatMap declared := by
      simp [parts, declared]
    rw [hParts]
    refine .branch fun _ hOtherwise => .branch fun _ hDone => ?_
    refine .after (hCond.writes_code hSelect) fun _ => .after (writes_plain rfl) fun _ => ?_
    refine .bind (writes_code hSelect thenBranch hThen) fun _ => ?_
    refine .after (writes_plain rfl) fun _ => .after (.label hOtherwise) fun _ => ?_
    exact .before (writes_codeElse hSelect elseBranch hElse) fun _ => .label hDone
  | .loop _ cond body, ⟨hCond, hBody⟩ => by
    refine .loopLabels fun _ hStart hExit => .after (.label hStart) fun _ => ?_
    refine .after (hCond.writes_code hSelect) fun _ => .after (writes_plain rfl) fun _ => ?_
    refine .after (.enterLoop _) fun _ => .before (writes_code hSelect body hBody) fun _ => ?_
    exact .after .exitLoop fun _ => .after (writes_plain rfl) fun _ => .label hExit
  | .ret _ none _, ⟨_, hExit⟩ => hExit ▸ .required (writes_plain rfl)
  | .ret _ (some value) _, ⟨hReturns, hExit⟩ => by
    obtain ⟨ty, hValue⟩ := hReturns.denotes rfl
    subst hExit
    exact .required <| .after (hValue.writes_code hSelect) fun _ =>
      .after (writes_plain rfl) fun _ => writes_plain rfl
  | .breakLoop _, _ | .continueLoop _, _ => writes_leaveRound _ _
  | .delete _ _, ⟨_, hTarget⟩ =>
    .after (hTarget.writes_code hSelect) fun _ => .after (writes_nullCheck _) fun _ =>
      .after (writes_plain rfl) fun _ => writes_call .release [] rfl rfl
  | .construct _ _ args _, ⟨c, m, _, hConstructor, hArgs, hCall⟩ => by
    obtain ⟨a, hMem⟩ := hSelect.declared _ _ _ _ _ hCall
    subst hConstructor
    refine .required <| .after (Expr.writes_codeArgs fun e he => (hArgs e he).writes_code hSelect)
      fun _ => .after (writes_plain rfl) fun _ => ?_
    exact writes_mention [] (.routine hMem) (by simp) rfl rfl rfl
  | .empty _, _ => .pure ()

theorem writes_codeElse (hSelect : Γ.SelectsDeclared select) {inLoop : Bool} : (s : Option Stmt) →
    ElseTyped Γ select inLoop s →
      Writes Γ.Mentions ((partsOfElse s).flatMap declared) (codeElse Γ.types s)
  | none, _ => .pure ()
  | some s, h => writes_code hSelect s h

theorem writes_codeAll (hSelect : Γ.SelectsDeclared select) {inLoop : Bool} : (body : List Stmt) →
    AllTyped Γ select inLoop body → Writes Γ.Mentions (declaredIn body) (codeAll Γ.types body)
  | [], _ => .pure ()
  | s :: rest, ⟨hFirst, hRest⟩ => by
    have hParts : declaredIn (s :: rest) = s.parts.flatMap declared ++ declaredIn rest := by
      rw [declaredIn, partsOfAll, flatMap_append, declaredIn]
    rw [hParts]
    exact .bind (writes_code hSelect s hFirst) fun _ => writes_codeAll hSelect rest hRest

end

end Stmt

theorem Label.numbered_or_symbol (l : Label) : l.IsNumbered ∨ ∃ name, l = .symbol name := by
  cases l with
  | symbol name => exact .inr ⟨name, rfl⟩
  | branch | loop => exact .inl trivial

open Classical in
/-- Labels as deep as they may be when the code of a body starts: exits at depth zero, and all
labels handed out before at a depth where no statement jumps. -/
noncomputable def EmitState.apart (s : EmitState) (exits : String → Prop) (l : Label) : Option Nat :=
  match l with
  | .symbol name => if exits name then some 0 else none
  | _ => if s.taken l = 1 then some 1 else none

theorem EmitState.apart_of_taken (exits : String → Prop) {l : Label} (hNumbered : l.IsNumbered)
    (hl : s.taken l = 1) : s.apart exits l = some 1 := by
  cases l with
  | symbol => exact hNumbered.elim
  | branch | loop => exact if_pos hl

theorem EmitState.charts_apart (hs : s.openLoops = []) (exits : String → Prop) :
    Charts exits (s.apart exits) s where
  taken := by
    intro l n hl
    cases l with
    | symbol name => rfl
    | branch | loop => exact (Option.ite_none_right_eq_some.mp hl).1
  exits := by
    intro name n
    simp [apart, eq_comm]
  loops := by simp [hs]

namespace Stmt

/-- A jump in the code of a body goes to a label of the same body or to an exit. -/
theorem jumps_codeAll {exits : String → Prop} (types : Registry) (hReturn : ReturnTo exits (partsOfAll body))
    (hs : s.openLoops = []) (h : codeAll types body s = ⟨(.ok (), t), ls⟩) {l : Line} (hl : l ∈ ls)
    {target : Label} (hTarget : l.jump? = some target) :
    .label target ∈ ls ∨ ∃ name, target = .symbol name ∧ exits name := by
  obtain ⟨D, hLe, hD, hLevels⟩ := (moves_codeAll types body hReturn : Moves exits [] 0 0 _)
    s () t ls h (s.apart exits) (EmitState.charts_apart hs exits) (by simp)
  obtain ⟨i, hi⟩ := mem_iff_getElem?.mp hl
  obtain ⟨d, -, -, hJumps⟩ := hLevels.exists_depth i
  obtain ⟨hDepth, hFree | hZero | hIn⟩ := hJumps l target hi hTarget
  · cases hFree
  · subst hZero
    rcases target.numbered_or_symbol with hNumbered | ⟨name, rfl⟩
    · -- At depth zero the label is none that was handed out before, so the body placed it.
      have hOld : s.taken target ≠ 1 := by
        intro hOne
        rw [hLe target 1 (EmitState.apart_of_taken exits hNumbered hOne)] at hDepth
        cases hDepth
      have hBound := s.taken_le_one target
      have hTaken := hD.taken target 0 hDepth
      have hCount : ls.count (.label target) + s.taken target = 0 + t.taken target :=
        (places_codeAll types body s () t ls h).count target
      left
      apply count_pos_iff.mp
      omega
    · exact .inr ⟨name, rfl, ((hD.exits name 0).mp hDepth).1⟩
  · obtain ⟨before, inner, after, -, rfl, -, -, hLabel⟩ := hIn
    exact .inl (mem_append_left _ (mem_append_right _ hLabel))

/-- Returns of a well-typed body go to its exit. -/
theorem returnTo_exitLabel {inLoop : Bool} (h : AllTyped Γ select inLoop body) :
    ReturnTo (· = Γ.exitLabel) (partsOfAll body) := by
  intro part hPart name hName
  obtain ⟨inLoop', hTyped⟩ := AllTyped.part body h hPart
  cases part with
  | ret line value exitLabel =>
    rw [hTyped.2] at hName
    exact (Option.some.inj hName).symm
  | _ => cases hName

end Stmt

/-- Lines that may stand between the entry and the exit of a routine. -/
structure Confined (known : String → Prop) (inMain : Bool) (cells : List String) (exit : String)
    (ls : List Line) : Prop where
  lines : ∀ l ∈ ls, l.InBody known inMain
  symbols : ls.filterMap Line.symbol? = cells.map mainVarLabel
  jumps : ∀ l ∈ ls, ∀ target, l.jump? = some target → .label target ∈ ls ∨ target = .symbol exit

/-- The code of a well-typed body stays inside it. -/
theorem Stmt.confined_codeAll (hSelect : Γ.SelectsDeclared select) (hTyped : AllTyped Γ select false body)
    (hs : s.openLoops = []) (h : codeAll Γ.types body s = ⟨(.ok (), t), ls⟩) :
    t.openLoops = [] ∧ t.inMain = s.inMain ∧
      Confined Γ.Mentions s.inMain (if s.inMain then declaredIn body else []) Γ.exitLabel ls := by
  obtain ⟨hMain, hLines, hSymbols⟩ := writes_codeAll hSelect body hTyped s () t ls h
  have hLoops := (places_codeAll Γ.types body s () t ls h).loops
  refine ⟨hLoops.trans hs, hMain, hLines, ?_, ?_⟩
  · rw [hSymbols]
    split <;> rfl
  · intro l hl target hTarget
    apply (jumps_codeAll Γ.types (returnTo_exitLabel hTyped) hs h hl hTarget).imp_right
    rintro ⟨name, rfl, rfl⟩
    rfl

end TLang
