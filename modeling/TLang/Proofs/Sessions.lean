import TLang.Proofs.Jumps

/-! Labels in all that a generator produces. Requests for the code of expressions, statements and programs
are served one after the other, and those that are refused leave their lines and their labels behind. Even
so no numbered label is defined twice. A request that is granted defines all labels it takes, leaves the
loops as they were, and jumps to labels of its own. -/
namespace TLang

open Emit List

variable {l : Label} {name : String} {types : Registry} {which : Label → Prop}

/-! Names that do not read like numbered labels. -/

/-- The label reads like a numbered one. -/
def Label.ReadsNumbered (l : Label) : Prop := ∃ n : Label, n.IsNumbered ∧ l.text = n.text

/-- Numbered labels are made of two letters and of digits. -/
theorem Label.IsNumbered.char_cases (h : l.IsNumbered) {c : Char} (hc : c ∈ l.text.toList) :
    c = 'L' ∨ c = 'W' ∨ c.isDigit = true := by
  have hDigits : ∀ n : Nat, c ∈ (toString n).toList → c.isDigit = true := by
    intro n hMem
    refine Nat.isDigit_of_mem_toDigits (b := 10) (n := n) (by omega) (by omega) ?_
    simpa [toString, Nat.repr] using hMem
  cases l with
  | symbol => exact h.elim
  | branch n =>
    have hText : (branch n).text.toList = 'L' :: (toString n).toList := by simp [text, toString]
    rw [hText] at hc
    exact (mem_cons.mp hc).imp_right fun hc => .inr (hDigits n hc)
  | loop n =>
    have hText : (loop n).text.toList = 'W' :: (toString n).toList := by simp [text, toString]
    rw [hText] at hc
    exact .inr ((mem_cons.mp hc).imp_right (hDigits n))

theorem Label.not_readsNumbered {c : Char} (hc : c ∈ name.toList)
    (hOther : ¬ (c = 'L' ∨ c = 'W' ∨ c.isDigit = true)) : ¬ (Label.symbol name).ReadsNumbered := by
  rintro ⟨n, hn, hText⟩
  have hName : name = n.text := hText
  exact hOther (hn.char_cases (hName ▸ hc))

/-- The names that the code of a program gives to places in it. -/
inductive Registry.Names (types : Registry) : String → Prop where
  | table (c : ClassInfo) : Names types c.vmtLabel
  | routine (m : MethodId) : Names types (types.methodInfo m).label
  | routineExit (m : MethodId) : Names types (types.methodInfo m).exitLabel
  | main : Names types MainBlock.entryLabel
  | mainExit : Names types MainBlock.exitLabel

/-- Apart from labels of routines, no such name reads like a numbered label. -/
theorem Registry.Names.not_readsNumbered (h : types.Names name)
    (hRoutines : ∀ m, ¬ (Label.symbol (types.methodInfo m).label).ReadsNumbered) :
    ¬ (Label.symbol name).ReadsNumbered := by
  have hOther : ¬ ('$' = 'L' ∨ '$' = 'W' ∨ '$'.isDigit = true) := by decide
  cases h with
  | table c => exact Label.not_readsNumbered (by simp [ClassInfo.vmtLabel]) hOther
  | routine m => exact hRoutines m
  | routineExit m => exact Label.not_readsNumbered (by simp [MethodInfo.exitLabel]) hOther
  | main => exact Label.not_readsNumbered (c := 'm') (by decide) (by decide)
  | mainExit => exact Label.not_readsNumbered (c := '$') (by decide) hOther

/-! Code of programs. -/

namespace Emit

variable {α β : Type} {exits : String → Prop} {leaves : List LoopExit} {x : Emit α}

/-- The step defines no label twice, and if it succeeds it defines those it took and jumps to labels of its
own. -/
structure Tidy (which : Label → Prop) (exits : String → Prop) (leaves : List LoopExit) (x : Emit α) :
    Prop where
  numbers : Numbers which [] x
  defines : ∀ s a t ls, x s = ⟨(.ok a, t), ls⟩ → ∀ l, t.taken l ≤ s.taken l + ls.count (.label l)
  aims : Aims [] exits leaves x

namespace Tidy

theorem of_allots (h : Allots [] x) (hAims : Aims [] exits leaves x) : Tidy which exits leaves x where
  numbers := h.numbers.mono fun _ _ => trivial
  defines s a t ls hx l := by
    have hCount : ls.count (.label l) + s.taken l = 0 + t.taken l := (h.places s a t ls hx).count l
    omega
  aims := hAims

theorem pure (a : α) : Tidy which exits leaves (Pure.pure a : Emit α) := of_allots (.pure a) (.pure a)

theorem require (refusal : Refusal) (a : Option α) : Tidy which exits leaves (require refusal a) :=
  of_allots (.require refusal a) (.require refusal a)

theorem instrs {is : List Instr} (h : is.all (·.target?.isNone) = true) :
    Tidy which exits leaves (instrs is) :=
  of_allots (.instrs is) (.instrs h)

/-- Tidiness composes. Labels that the second part defines are new, as the first part has only raised the
counters. -/
theorem after {f : α → Emit β} (hx : Tidy which exits leaves x) (hf : ∀ a, Tidy which exits leaves (f a)) :
    Tidy which exits leaves (x >>= f) where
  numbers := hx.numbers.after fun a => (hf a).numbers
  defines s b t ls h l := by
    obtain ⟨a, s', first, rest, hFirst, hRest, rfl⟩ := bind_apply_eq_ok_iff.mp h
    have hBefore := hx.defines s a s' first hFirst l
    have hAfter := (hf a).defines s' b t rest hRest l
    rw [count_append]
    omega
  aims := hx.aims.after fun a => (hf a).aims

theorem forM {f : α → Emit Unit} {as : List α} (hf : ∀ a ∈ as, Tidy which exits leaves (f a)) :
    Tidy which exits leaves (as.forM f) := by
  induction as with
  | nil => exact pure ()
  | cons a as ih =>
    rw [forall_mem_cons] at hf
    exact after hf.1 fun _ => ih hf.2

/-- Lines that neither jump nor define a label in question. -/
theorem lines {ls : List Line} (hJumps : ∀ l ∈ ls, l.jump? = none)
    (hLabels : ∀ l, which l → .label l ∉ ls) : Tidy which exits leaves (lines ls) where
  numbers := .lines hLabels
  defines s a t ls' h l := by
    cases h
    exact Nat.le_add_right _ _
  aims := .lines fun l hl target hTarget => by
    rw [hJumps l hl] at hTarget
    cases hTarget

theorem setInMain (inMain : Bool) : Tidy which exits leaves (setInMain inMain) where
  numbers := .modify fun _ l => by cases l <;> rfl
  defines s a t ls h l := by
    cases h
    cases l <;> exact Nat.le_add_right _ _
  aims := by
    intro s a t ls h
    cases h
    exact ⟨rfl, fun l => by cases l <;> exact Nat.le_refl _, fun l hl => absurd hl not_mem_nil⟩

end Tidy

variable (hNames : ∀ name, types.Names name → ¬ which (.symbol name))

include hNames

theorem tidy_label (hName : types.Names name) : Tidy which exits leaves (label (.symbol name)) := by
  refine .lines (by simp [Line.jump?]) ?_
  rintro l hl hMem
  cases mem_singleton.mp hMem
  exact hNames name hName hl

theorem tidy_prologue (hName : types.Names name) (locals : Nat) :
    Tidy which exits leaves (prologue name locals) := by
  refine .after (.lines (by simp [Line.jump?]) ?_) fun _ => .after (.instrs rfl) fun _ =>
    iteInduction (fun _ => .instrs rfl) fun _ => .pure ()
  intro l hl hMem
  simp only [mem_cons, reduceCtorEq, Line.label.injEq, not_mem_nil, or_false, false_or] at hMem
  exact hNames name hName (hMem ▸ hl)

theorem tidy_dispatchTables : Tidy which exits leaves (dispatchTables types) := by
  refine .after (.lines (by simp [Line.jump?]) (by simp)) fun _ => .forM fun c _ => ?_
  refine .after (.require _ _) fun _ => .after (.lines (by simp [Line.jump?]) ?_) fun _ =>
    .lines (by simp [Line.jump?]) (by simp)
  intro l hl hMem
  simp only [mem_cons, reduceCtorEq, Line.label.injEq, not_mem_nil, or_false, false_or] at hMem
  exact hNames _ (.table c) (hMem ▸ hl)

/-- The routines of the root class place names of routines and no other labels, and they contain no jump. A
registry whose root has no routines is refused, and then no label has been placed. -/
theorem tidy_objectRoutines : Tidy which exits leaves (objectRoutines types) := by
  have hRoutine : ∀ m, Tidy which exits leaves (objectRoutine (types.methodInfo m)) := fun m =>
    .after (tidy_prologue hNames (.routine m) 0) fun _ =>
      iteInduction
        (fun _ => .after (.instrs rfl) fun _ => .after (tidy_label hNames (.routineExit m)) fun _ => .instrs rfl)
        fun _ => .after (tidy_label hNames (.routineExit m)) fun _ => .instrs rfl
  have hRest : Tidy which exits leaves (do
      comment "class Object"
      (types.classInfo Registry.object).methods.forM fun m => objectRoutine (types.methodInfo m)) :=
    .after (.lines (by simp [Line.jump?]) (by simp)) fun _ => .forM fun m _ => hRoutine m
  rw [objectRoutines]
  split
  · exact .after (.of_allots (.throw _) (.throw _)) fun _ => hRest
  · exact hRest

end Emit

/-- The ways in which the bodies of a program leave rounds of a loop around them. -/
def Program.leaves (p : Program) : List LoopExit :=
  (p.classes.flatMap fun d => d.members.flatMap fun member => Stmt.leavesOfAll member.body) ++
    Stmt.leavesOfAll p.main.body

section Programs

variable {exits : String → Prop} {leaves : List LoopExit}

theorem Stmt.tidy_codeAll {body : List Stmt} (hReturn : ReturnTo exits (partsOfAll body))
    (hLeaves : leavesOfAll body ⊆ leaves) : Tidy which exits leaves (codeAll types body) :=
  .of_allots (allots_codeAll types body) (aims_codeAll types body hReturn hLeaves)

variable (hNames : ∀ name, types.Names name → ¬ which (.symbol name))

include hNames

/-- The code of a routine jumps to its own exit label and to labels that it defines itself, and to no others. -/
theorem MethodDecl.tidy_code (c : ClassId) {d : MethodDecl} (hReturn : Stmt.ReturnTo exits (Stmt.partsOfAll d.body))
    (hLeaves : Stmt.leavesOfAll d.body ⊆ leaves) : Tidy which exits leaves (d.code types c) := by
  refine .after (.require _ _) fun id => .after (.setInMain false) fun _ =>
    .after (tidy_prologue hNames (.routine id) _) fun _ => .after (Stmt.tidy_codeAll hReturn hLeaves) fun _ =>
      .after (.instrs rfl) fun _ => .after (tidy_label hNames (.routineExit id)) fun _ => ?_
  have hParent : Tidy which exits leaves (parentDestructor types c) := by
    rw [parentDestructor]
    split
    · exact .pure ()
    · exact .after (.require _ _) fun _ => .instrs rfl
  exact iteInduction (fun _ => .after hParent fun _ => .instrs rfl) fun _ => .instrs rfl

/-- The code of a class is that of its routines, one after the other. -/
theorem ClassDecl.tidy_code {d : ClassDecl} (hReturn : Stmt.ReturnTo exits d.statements)
    (hLeaves : (d.members.flatMap fun member => Stmt.leavesOfAll member.body) ⊆ leaves) :
    Tidy which exits leaves (d.code types) := by
  refine .after (.require _ _) fun c => .after (.lines (by simp [Line.jump?]) (by simp)) fun _ =>
    .forM fun member hMember => ?_
  cases member with
  | field => exact .pure ()
  | method e =>
    have hStatements : Stmt.partsOfAll e.body ⊆ d.statements :=
      fun s hs => mem_flatMap_of_mem hMember hs
    have hOwn : Stmt.leavesOfAll e.body ⊆ leaves :=
      fun exit hExit => hLeaves (mem_flatMap_of_mem hMember hExit)
    exact MethodDecl.tidy_code hNames c (hReturn.within hStatements) hOwn

/-- The code of a program, too, places the labels it takes. -/
theorem Program.tidy_code {p : Program} (hReturn : Stmt.ReturnTo exits p.statements)
    (hLeaves : p.leaves ⊆ leaves) : Tidy which exits leaves (p.code types) := by
  obtain ⟨hClasses, hMain⟩ := append_subset.mp hLeaves
  refine .after ?_ fun _ => .after (tidy_dispatchTables hNames) fun _ =>
    .after (tidy_objectRoutines hNames) fun _ => .after (.forM fun d hd => ?_) fun _ => ?_
  · exact .after (.lines (by simp [Line.jump?]) (by simp)) fun _ => .lines (by simp [Line.jump?]) (by simp)
  · have hStatements : d.statements ⊆ p.statements :=
      fun s hs => mem_append_left _ (mem_flatMap_of_mem hd hs)
    have hOwn : (d.members.flatMap fun member => Stmt.leavesOfAll member.body) ⊆ leaves :=
      fun exit hExit => hClasses (mem_flatMap_of_mem hd hExit)
    exact ClassDecl.tidy_code hNames (hReturn.within hStatements) hOwn
  · have hBody : Tidy which exits leaves (Stmt.codeAll types p.main.body) :=
      Stmt.tidy_codeAll (hReturn.within (subset_append_right _ _)) hMain
    exact .after (.setInMain true) fun _ => .after (.lines (by simp [Line.jump?]) (by simp)) fun _ =>
      .after (tidy_prologue hNames .main 0) fun _ => .after hBody fun _ => .after (.instrs rfl) fun _ =>
        .after (tidy_label hNames .mainExit) fun _ => .after (.instrs rfl) fun _ => .setInMain false

end Programs

/-! Requests. -/

/-- What a generator may be asked for. -/
inductive Request where
  | expression (e : Expr)
  | statement (stmt : Stmt)
  | program (p : Program)

namespace Request

def code (types : Registry) : Request → Emit Unit
  | expression e => e.code types
  | statement stmt => stmt.code types
  | program p => p.code types

/-- All statements that a request is about. -/
def statements : Request → List Stmt
  | expression _ => []
  | statement stmt => stmt.parts
  | program p => p.statements

/-- The exits that its returns name. -/
def Exits (request : Request) (name : String) : Prop := ∃ stmt ∈ request.statements, stmt.exit? = some name

/-- The ways in which it leaves rounds of a loop around it. -/
def leaves : Request → List LoopExit
  | expression _ => []
  | statement stmt => stmt.leaves
  | program p => p.leaves

/-- So each request leaves the generator ready for the next one, unless it names a symbol that reads like a
numbered label. -/
theorem tidy_code (request : Request) (hNames : ∀ name, types.Names name → ¬ which (.symbol name)) :
    Tidy which request.Exits request.leaves (request.code types) := by
  have hReturn : Stmt.ReturnTo request.Exits request.statements :=
    fun stmt hStmt name hName => ⟨stmt, hStmt, hName⟩
  cases request with
  | expression e => exact .of_allots (e.allots_code types) (e.aims_code types)
  | statement stmt =>
    exact .of_allots (stmt.allots_code types) (stmt.aims_code types hReturn (List.Subset.refl _))
  | program p => exact Program.tidy_code hNames hReturn (List.Subset.refl _)

end Request

namespace Generator

variable (types : Registry)

/-- Serve a request. Only a program yields text, and only if it is not refused. -/
def serve (g : Generator) : Request → String × Generator
  | .expression e => ("", (g.run (e.code types)).2)
  | .statement stmt => ("", (g.run (stmt.code types)).2)
  | .program p =>
    match g.generate types p with
    | (.ok text, g') => (text, g')
    | (.error _, g') => ("", g')

/-- Serve requests one after the other. -/
def serveAll : Generator → List Request → String × Generator
  | g, [] => ("", g)
  | g, request :: rest =>
    let first := g.serve types request
    let later := first.2.serveAll rest
    (first.1 ++ later.1, later.2)

end Generator

/-- The lines that are produced for requests. -/
def EmitState.emitted (types : Registry) : EmitState → List Request → List Line
  | _, [] => []
  | s, request :: rest => (request.code types s).log ++ EmitState.emitted types (request.code types s).value.2 rest

/-- The text of a label that a line defines. -/
def Line.labelText? : Line → Option String
  | label l => some l.text
  | _ => none

theorem Line.fileText_append (ls ls' : List Line) : fileText (ls ++ ls') = fileText ls ++ fileText ls' := by
  rw [fileText, map_append, String.join_append, fileText, fileText]

/-- What was served so far and what is still held back are together the text of all code that was emitted. -/
theorem Generator.serve_eq (types : Registry) (g : Generator) (request : Request) :
    (g.serve types request).2.state = (request.code types g.state).value.2 ∧
      (g.serve types request).1 ++ Line.fileText (g.serve types request).2.lines =
        Line.fileText (g.lines ++ (request.code types g.state).log) := by
  cases request with
  | expression | statement => exact ⟨rfl, String.empty_append⟩
  | program p =>
    rw [serve, generate, run, Request.code]
    rcases p.code types g.state with ⟨⟨outcome, t⟩, ls⟩
    cases outcome with
    | error => exact ⟨rfl, String.empty_append⟩
    | ok => exact ⟨rfl, String.append_empty⟩

/-- All that is produced is handed out or kept. -/
theorem Generator.serveAll_text (types : Registry) (g : Generator) (requests : List Request) :
    (g.serveAll types requests).1 ++ Line.fileText (g.serveAll types requests).2.lines =
      Line.fileText (g.lines ++ g.state.emitted types requests) := by
  induction requests generalizing g with
  | nil => rw [serveAll, EmitState.emitted, append_nil, String.empty_append]
  | cons request rest ih =>
    obtain ⟨hState, hText⟩ := g.serve_eq types request
    rw [serveAll, String.append_assoc, ih, hState, Line.fileText_append, ← String.append_assoc, hText,
      ← Line.fileText_append, append_assoc, EmitState.emitted]

theorem EmitState.numbering_emitted (hNames : ∀ name, types.Names name → ¬ which (.symbol name))
    (s : EmitState) (requests : List Request) : ∃ t, Numbering which [] s t (s.emitted types requests) := by
  induction requests generalizing s with
  | nil => exact ⟨s, .refl [] s⟩
  | cons request rest ih =>
    obtain ⟨t, hRest⟩ := ih (request.code types s).value.2
    exact ⟨t, ((request.tidy_code hNames).numbers s _ _ _ rfl).append hRest⟩

theorem EmitState.count_emitted_le (hNames : ∀ name, types.Names name → ¬ which (.symbol name)) (s : EmitState)
    (requests : List Request) (hl : which l) :
    (s.emitted types requests).count (.label l) + s.taken l ≤ 1 := by
  obtain ⟨t, hNumbering⟩ := s.numbering_emitted hNames requests
  have hCount : (s.emitted types requests).count (.label l) + s.taken l ≤ 0 + t.taken l :=
    hNumbering.count_le l hl
  have hBound := t.taken_le_one l
  omega

/-- A numbered label is read off its own definitions and off those of names that read like it. -/
theorem Line.count_labelText_le (hl : l.IsNumbered) (ls : List Line) :
    (ls.filterMap labelText?).count l.text ≤ ls.count (.label l) + ls.count (.label (.symbol l.text)) := by
  induction ls with
  | nil => exact Nat.zero_le _
  | cons line ls ih =>
    cases line with
    | label l' =>
      have hHead : (label l' :: ls).filterMap labelText? = l'.text :: ls.filterMap labelText? := rfl
      simp only [hHead, count_cons, beq_iff_eq, label.injEq]
      by_cases hText : l'.text = l.text
      · have hCases : l' = l ∨ l' = .symbol l.text := by
          cases l' with
          | symbol name => exact .inr (congrArg Label.symbol hText)
          | branch | loop => exact .inl (Label.text_inj trivial hl hText)
        rw [if_pos hText]
        rcases hCases with hSame | hAlike
        · rw [if_pos hSame]
          omega
        · rw [if_pos hAlike]
          omega
      · rw [if_neg hText]
        omega
    | _ => simpa [filterMap_cons, labelText?] using ih

/-- Labels of branches and loops, in whatever order a generator is asked for code. None is defined twice, also
where requests were refused in between. Code that is granted defines the labels it creates, and it jumps to its
own labels, to exits of returns or to the loop around it. What refused code jumps to is left open. -/
theorem local_labels_hygienic (types : Registry) : (∀ (g : Generator) (requests : List Request),
      (g.serveAll types requests).1 ++ Line.fileText (g.serveAll types requests).2.lines =
          Line.fileText (g.lines ++ g.state.emitted types requests) ∧
        (∀ l : Label, l.IsNumbered → (g.state.emitted types requests).count (.label l) ≤ 1) ∧
        ((∀ m, ¬ (Label.symbol (types.methodInfo m).label).ReadsNumbered) → ∀ l : Label, l.IsNumbered →
          ((g.state.emitted types requests).filterMap Line.labelText?).count l.text ≤ 1)) ∧
    ∀ (request : Request) (s t : EmitState) (ls : List Line), request.code types s = ⟨(.ok (), t), ls⟩ →
      t.openLoops = s.openLoops ∧ (∀ l, s.Creates t l → ls.count (.label l) = 1) ∧
        ∀ line ∈ ls, ∀ target, line.jump? = some target →
          .label target ∈ ls ∨ line.Departs request.Exits request.leaves s.openLoops := by
  have hNumbered : ∀ name, types.Names name → ¬ (Label.symbol name).IsNumbered := fun _ _ => id
  refine ⟨fun g requests => ⟨g.serveAll_text types requests, ?_, ?_⟩, ?_⟩
  · intro l hl
    exact Nat.le_of_add_right_le (g.state.count_emitted_le hNumbered requests hl)
  · intro hRoutines l hl
    have hNames : ∀ name, types.Names name → ¬ (Label.symbol name).ReadsNumbered :=
      fun name hName => hName.not_readsNumbered hRoutines
    have hOwn := g.state.count_emitted_le hNames requests (l := l) ⟨l, hl, rfl⟩
    have hAlike := g.state.count_emitted_le hNames requests (l := .symbol l.text) ⟨l, hl, rfl⟩
    have hTaken : g.state.taken (.symbol l.text) = 1 := rfl
    have hCount := Line.count_labelText_le hl (g.state.emitted types requests)
    omega
  · intro request s t ls hCode
    have hTidy := request.tidy_code hNumbered
    have hHeading := hTidy.aims s () t ls hCode
    have hNumbering := hTidy.numbers s _ t ls hCode
    have hDefined : ∀ l, s.Creates t l → ls.count (.label l) = 1 := by
      rintro l ⟨hNew, hTaken⟩
      have hLower := hTidy.defines s () t ls hCode l
      have hUpper : ls.count (.label l) + s.taken l ≤ 0 + t.taken l := by
        cases l with
        | symbol => cases hNew
        | branch | loop => exact hNumbering.count_le _ trivial
      omega
    refine ⟨hHeading.loops, hDefined, ?_⟩
    intro line hLine target hTarget
    rcases hHeading.jumps line hLine target hTarget with hNew | hPending | hDeparts
    · exact .inl (count_pos_iff.mp (by rw [hDefined target hNew]; exact Nat.one_pos))
    · cases hPending
    · exact .inr hDeparts

/-- A loop whose body is refused. -/
def unfinished : Stmt := .loop 1 (.int ⟨1, .int⟩ 1) (.expr 2 (.int 2 3))

/-- A loop that is not finished, a break that finds it still open, a division, and a program with a loop of
its own. -/
def interrupted : List Request :=
  let one : Expr := .int ⟨1, .int⟩ 1
  [.statement unfinished, .statement (.breakLoop 3), .expression (.binary ⟨4, .int⟩ .div one one),
    .program ⟨[], 5, [.loop 6 one (.continueLoop 7)]⟩]

theorem not_readsNumbered_initial (m : MethodId) :
    ¬ (Label.symbol (Registry.initial.methodInfo m).label).ReadsNumbered := by
  have hOther : ¬ ('$' = 'L' ∨ '$' = 'W' ∨ '$'.isDigit = true) := by decide
  rcases m with ⟨_ | _ | _ | i⟩
  · exact Label.not_readsNumbered (by decide) hOther
  · exact Label.not_readsNumbered (by decide) hOther
  · exact Label.not_readsNumbered (by decide) hOther
  · rintro ⟨n, hn, hText⟩
    have hFirst := congrArg (fun text => text.toList.head?) hText
    cases n with
    | symbol => exact hn.elim
    | branch n | loop n => simp [Label.text, Registry.methodInfo, Registry.initial, toString] at hFirst

/-- Of the labels of the loop that is not finished, the first one is defined, and a break goes to the
second one. The labels that follow are new. -/
theorem local_labels_hygienic_interrupted :
    let left := ((Request.statement unfinished).code .initial {}).value.2
    let emitted := ({} : EmitState).emitted .initial interrupted
    left.openLoops = [⟨.loop 0, .loop 1⟩] ∧
      emitted.filterMap Line.labelText? = ["W0", "L0", "L1", "Object$VMT", "Object$Object",
        "Object$Object$exit", "Object$Destructor", "Object$Destructor$exit", "Object$equals$Object",
        "Object$equals$Object$exit", "main", "W2", "W3", "main$exit"] ∧
      (∀ l : Label, l.IsNumbered → (emitted.filterMap Line.labelText?).count l.text ≤ 1) ∧
      ∃ t ls, (Request.statement (.breakLoop 3)).code .initial left = ⟨(.ok (), t), ls⟩ ∧
        ls = [.instr (.jump (.loop 1))] ∧ t.openLoops = left.openLoops ∧
        ∀ line ∈ ls, ∀ target, line.jump? = some target → .label target ∈ ls ∨
          line.Departs (Request.statement (.breakLoop 3)).Exits [.toEnd] left.openLoops := by
  intro left emitted
  obtain ⟨hSessions, hCalls⟩ := local_labels_hygienic .initial
  obtain ⟨-, -, hTexts⟩ := hSessions {} interrupted
  obtain ⟨hLoops, -, hJumps⟩ := hCalls (.statement (.breakLoop 3)) left _ _ rfl
  exact ⟨rfl, by decide +kernel, hTexts not_readsNumbered_initial, _, _, rfl, rfl, hLoops, hJumps⟩

end TLang
