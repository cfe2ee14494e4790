import TLang.Proofs.Symbols
import TLang.Proofs.VirtualCalls

/-! Destruction of objects. The table of a class holds its own destructor. Control leaves the body
of a destructor for the exit and nowhere else, and behind the exit the destructor of the parent is
called with the current object. Starting at any class, the destructors of the class and of all its
ancestors are called one after the other, up to that of the root. -/
namespace TLang

open Registry Emit

variable {c : ClassId} {p : Program} {m : MethodId} {bs : List Routine} {d : MethodDecl}

namespace Registry

variable {names : String → Prop} {r : Registry}

/-- What the destructor of a class is called. -/
def destructorLabel (r : Registry) (c : ClassId) : String :=
  (r.classInfo c).name ++ "$" ++ destructorSignature

/-- Every class has a destructor of its own. -/
theorem Settled.exists_destructor (h : r.Settled names)
    (hDestructors : ∀ c m, (r.classInfo c).destructor = some m → r.DestroyedBy c m)
    (hc : c.index < r.classes.length) : ∃ m, (r.classInfo c).destructor = some m ∧
      r.DestroyedBy c m ∧ (r.methodInfo m).label = r.destructorLabel c := by
  obtain ⟨m, hm⟩ := Option.isSome_iff_exists.mp (h.destructor c hc)
  have hDestroyed := hDestructors c m hm
  have hRoutine := (h.coherent c).routine m hDestroyed.mem
  refine ⟨m, hm, hDestroyed, ?_⟩
  rw [hRoutine.label, hRoutine.signature, hDestroyed.kind]
  rfl

/-- A destructor hands over to that of the parent. -/
theorem Coherent.closing_of_parent (h : r.Coherent names) {p : ClassId} {m' : MethodId}
    (hm : r.DestroyedBy c m) (hParent : r.parent c = some p) (hm' : (r.classInfo p).destructor = some m') :
    r.closing m = r.handOver m' := by
  rw [closing, if_pos hm.kind, ((h c).routine m hm.mem).owner, inheritedDestructor, hParent,
    Option.bind_some, hm']
  rfl

/-- Destructors of different classes have different names. -/
theorem Lineal.nodup_destructorLabels (h : r.Lineal) (hc : c.index < r.classes.length) :
    ((r.chain c).map r.destructorLabel).Nodup := by
  apply List.Nodup.map_on _ (nodup_chain _ c)
  intro a ha b hb hEq
  have hName : (r.classInfo a).name = (r.classInfo b).name := by
    have hList := congrArg String.toList hEq
    simp only [destructorLabel, String.toList_append] at hList
    exact String.toList_inj.mp (List.append_cancel_right (List.append_cancel_right hList))
  exact h.found.eq_of_name (h.lt_of_mem_chain hc ha) (h.lt_of_mem_chain hc hb) hName

end Registry

namespace Routine

/-- Names of routines, each of which calls the next one behind its exit with the current object; the
last one calls none there. -/
inductive Unwinds (bs : List Routine) : String → List String → Prop where
  | last {b : Routine} {name : String} (hb : b ∈ bs) (hName : b.name = name)
      (hClosing : b.closing = []) : Unwinds bs name [name]
  | next {b : Routine} {name callee : String} {rest : List String} (hb : b ∈ bs)
      (hName : b.name = name)
      (hClosing : b.closing = [.push (.mem 8 .ebp), .call (.symbol callee), .drop 1])
      (above : Unwinds bs callee rest) : Unwinds bs name (name :: rest)

/-- Where names of routines differ, there is one way to follow them. -/
theorem Unwinds.unique (hNames : (bs.map Routine.name).Nodup) {name : String} {path path' : List String}
    (h : Unwinds bs name path) (h' : Unwinds bs name path') : path = path' := by
  have hSame : ∀ {b b' : Routine}, b ∈ bs → b' ∈ bs → b.name = b'.name → b = b' :=
    fun hb hb' hName => List.inj_on_of_nodup_map hNames hb hb' hName
  induction h generalizing path' with
  | last hb hName hClosing =>
    cases h' with
    | last => rfl
    | next hb' hName' hClosing' =>
      rw [hSame hb hb' (hName.trans hName'.symm), hClosing'] at hClosing
      cases hClosing
  | next hb hName hClosing above ih =>
    cases h' with
    | last hb' hName' hClosing' =>
      rw [hSame hb hb' (hName.trans hName'.symm), hClosing'] at hClosing
      cases hClosing
    | next hb' hName' hClosing' above' =>
      rw [hSame hb hb' (hName.trans hName'.symm), hClosing'] at hClosing
      cases hClosing
      rw [ih above']

end Routine

/-- The code of a return ends with a jump to the exit. -/
theorem Stmt.endsWith_ret (types : Registry) (line : Nat) (value : Option Expr) (exit : String) :
    EndsWith ((Stmt.ret line value (some exit)).code types) [.instr (.jump (.symbol exit))] := by
  cases value with
  | none => exact .require (.instrs _)
  | some value => exact .require (.bind fun _ => .bind fun _ => .instrs _)

namespace Routine

variable {Γ : Env} {b : Routine}

/-- Every return in the declaration of a routine jumps to the exit. -/
theorem returns_of_codeAll {s t : EmitState} {ls more : List Line}
    (hReturns : Stmt.ReturnTo (· = b.exit) (Stmt.partsOfAll d.body))
    (hCode : Stmt.codeAll Γ.types d.body s = ⟨(.ok (), t), ls⟩) (hBody : b.body = ls ++ more) {line : Nat}
    {value : Option Expr} {exit : Option String} (hRet : .ret line value exit ∈ Stmt.partsOfAll d.body) :
    exit = some b.exit ∧ StandsIn b.body ((Stmt.ret line value exit).code Γ.types)
        [.instr (.jump (.symbol b.exit))] := by
  obtain ⟨s', ⟨⟩, t', before, inner, after, hInner, rfl⟩ :=
    Stmt.contains_partOfAll Γ.types d.body hRet _ _ _ _ hCode
  cases exit with
  | none => cases hInner
  | some exit =>
    obtain rfl : exit = b.exit := hReturns _ hRet exit rfl
    refine ⟨rfl, s', t', before, inner, after ++ more, hInner, ?_, ?_⟩
    · rw [hBody, List.append_assoc]
    · exact Stmt.endsWith_ret Γ.types line value b.exit _ _ _ _ hInner

/-- The routine is the destructor of a class below the root. Its body never returns by itself and
leaves for the exit only, where each return of the declaration goes. Behind the exit the destructor
of the parent is called with the current object. -/
structure Destroys (p : Program) (Γ : Env) (c parent : ClassId) (b : Routine) : Prop where
  name : b.name = Γ.types.destructorLabel c
  confined : Confined Γ.Mentions false [] b.exit b.body
  returns : ∃ m d, (Γ.types.classInfo c).destructor = some m ∧ p.Declares c m d ∧
    ∀ line value exit, .ret line value exit ∈ Stmt.partsOfAll d.body →
      exit = some b.exit ∧ StandsIn b.body ((Stmt.ret line value exit).code Γ.types)
        [.instr (.jump (.symbol b.exit))]
  closing : b.closing = [.push (.mem 8 .ebp), .call (.symbol (Γ.types.destructorLabel parent)), .drop 1]

end Routine

/-- A method that a class declares is registered there. -/
theorem Enrolled.mem_of_declares {r : Registry} (h : Enrolled p.classes r) (hDeclares : p.Declares c m d) :
    m ∈ (r.classInfo c).methods := by
  obtain ⟨cls, hCls, hResolved, hMember, hm⟩ := hDeclares
  rw [← h.routines cls hCls c hResolved]
  exact List.mem_filterMap.mpr ⟨_, hMember, hm⟩

namespace Program.LaidOut

variable {names : String → Prop} {Γ : Env} {lines : List Line} {main : Routine}
  (h : p.LaidOut Γ lines bs main) (hTypes : Γ.types.Settled names)
  (hEnrolled : Enrolled p.classes Γ.types)

include h hTypes hEnrolled

/-- The destructors of a class and of its ancestors call each other. -/
theorem unwinds (hc : c.index < Γ.types.classes.length) : Routine.Unwinds bs (Γ.types.destructorLabel c)
      ((Γ.types.chain c).map Γ.types.destructorLabel) := by
  have hLine := hTypes.lineal.acyclic.line_chain c
  generalize Γ.types.chain c = line at hLine
  induction hLine with
  | @root c hParent =>
    obtain ⟨m, -, hDestroyed, hLabel⟩ := hTypes.exists_destructor hEnrolled.destructors hc
    obtain ⟨b, hb, hm⟩ := h.exists_routine hDestroyed.mem
    apply Routine.Unwinds.last hb (hm.name.trans hLabel)
    rw [hm.closing, hTypes.coherent.closing_of_root hDestroyed.mem hParent]
  | @step c parent rest hParent above ih =>
    have hParentLt := hTypes.lineal.parent_lt c parent hParent
    obtain ⟨m, -, hDestroyed, hLabel⟩ := hTypes.exists_destructor hEnrolled.destructors hc
    obtain ⟨m', hm', -, hLabel'⟩ := hTypes.exists_destructor hEnrolled.destructors hParentLt
    obtain ⟨b, hb, hm⟩ := h.exists_routine hDestroyed.mem
    apply Routine.Unwinds.next hb (hm.name.trans hLabel) _ (ih hParentLt)
    rw [hm.closing, hTypes.coherent.closing_of_parent hDestroyed hParent hm', handOver, hLabel']

/-- The destructor of a class below the root. -/
theorem exists_destroys {parent : ClassId} (hParent : Γ.types.parent c = some parent) :
    ∃ b ∈ bs, b.Destroys p Γ c parent := by
  have hc := lt_of_parent hParent
  have hParentLt := hTypes.lineal.parent_lt c parent hParent
  obtain ⟨m, hm, hDestroyed, hLabel⟩ := hTypes.exists_destructor hEnrolled.destructors hc
  obtain ⟨m', hm', -, hLabel'⟩ := hTypes.exists_destructor hEnrolled.destructors hParentLt
  obtain ⟨b, hb, hImplements⟩ := h.exists_routine hDestroyed.mem
  have hOwner := ((hTypes.coherent c).routine m hDestroyed.mem).owner
  refine ⟨b, hb, hImplements.name.trans hLabel, hImplements.confined, ?_, ?_⟩
  · rcases hImplements.source with ⟨hRoot, -⟩ | ⟨c', d, s, t, ls, hDeclares, hReturns, hCode, hBody⟩
    · have hRootOwner := ((hTypes.coherent object).routine m hRoot).owner
      rw [← hOwner, hRootOwner, hTypes.lineal.root_parent] at hParent
      cases hParent
    · have hOwner' := ((hTypes.coherent c').routine m (hEnrolled.mem_of_declares hDeclares)).owner
      obtain rfl : c' = c := hOwner'.symm.trans hOwner
      refine ⟨m, d, hm, hDeclares, ?_⟩
      intro line value exit hRet
      exact Routine.returns_of_codeAll hReturns hCode hBody hRet
  · rw [hImplements.closing, hTypes.coherent.closing_of_parent hDestroyed hParent hm', handOver,
      hLabel']

/-- The destructor of the root does nothing and calls no other. -/
theorem exists_rootDestructor : ∃ b ∈ bs, b.name = "Object$Destructor" ∧ b.body = [] ∧
    b.closing = [] := by
  have hRoot : (⟨1⟩ : MethodId) ∈ (Γ.types.classInfo object).methods := by
    rw [hEnrolled.root]
    decide
  obtain ⟨b, hb, hm⟩ := h.exists_routine hRoot
  have hHeading := (hEnrolled.rootMethods ⟨1⟩ (by decide)).2
  have hLabel : (Γ.types.methodInfo ⟨1⟩).label = "Object$Destructor" :=
    congrArg MethodInfo.label hHeading
  have hKind : (Γ.types.methodInfo ⟨1⟩).isVirtual = false := congrArg MethodInfo.isVirtual hHeading
  refine ⟨b, hb, hm.name.trans hLabel, ?_, ?_⟩
  · rcases hm.source with ⟨-, hBody⟩ | ⟨c, d, s, t, ls, hDeclares, -⟩
    · exact hBody hKind
    · -- The tree declares no methods for the root.
      have hOwner := ((hTypes.coherent c).routine ⟨1⟩ (hEnrolled.mem_of_declares hDeclares)).owner
      rw [((hTypes.coherent object).routine ⟨1⟩ hRoot).owner] at hOwner
      obtain ⟨cls, hCls, hResolved, -⟩ := hDeclares
      rw [← hOwner] at hResolved
      have hMem : some object ∈ p.classes.map ClassDecl.resolved :=
        List.mem_map.mpr ⟨cls, hCls, hResolved⟩
      exact absurd hMem (List.nodup_cons.mp hEnrolled.nodup_ids).1
  · rw [hm.closing, hTypes.coherent.closing_of_root hRoot hTypes.lineal.root_parent]

end Program.LaidOut

namespace Program

/-- Where classes have names without separator, routines have different names. -/
theorem LaidOut.nodup_names {names : String → Prop} {Γ : Env} {lines : List Line} {main : Routine}
    (h : p.LaidOut Γ lines bs main) (hNamed : Named names Γ.types Γ.globals.names.names) :
    (bs.map Routine.name).Nodup := by
  have hNames : List.Forall₂ (· = ·) (bs.map Routine.name)
      (Γ.types.routines.map fun m => (Γ.types.methodInfo m).label) := by
    rw [List.forall₂_map_left_iff, List.forall₂_map_right_iff]
    exact h.methods.flip.imp fun b m hb => hb.name
  rw [List.forall₂_eq_eq_eq] at hNames
  rw [hNames]
  apply List.Nodup.map_on _ hNamed.coherent.nodup_routines
  intro m hm m' hm' hEq
  obtain ⟨c, hm⟩ := mem_routines.mp hm
  obtain ⟨c', hm'⟩ := mem_routines.mp hm'
  rw [hNamed.coherent.label_eq hm, hNamed.coherent.label_eq hm'] at hEq
  obtain ⟨rfl, hSignature⟩ := hNamed.eq_of_qualified (Registry.registered_of_mem hm)
    (Registry.registered_of_mem hm') hEq
  exact hNamed.eq_of_signature hm hm' hSignature

/-- Destruction in the assembly of a program. For each class, the table holds the destructor of the
class itself; and the destructors that are called from there on, each behind the exit of the one
before, are those of the class and of its ancestors, in this order and each once, up to that of the
root. There is no other way to follow the calls unless two routines have one name, which takes a
separator in the name of a class. The destructor of a class below the root never leaves its body but
to the exit, the one of the root does nothing. -/
theorem compile_destruction (options : Options) (p : Program) (hFresh : p.isFresh = true)
    (result : Compilation) (hOk : p.compile options = .ok result) :
    ∃ lines bs main, result.assembly = Line.fileText lines ∧ p.analyzed.LaidOut p.env lines bs main ∧
      (∀ c, c.index < p.env.types.classes.length →
        (∃ m, (p.env.types.classInfo c).destructor = some m ∧ p.env.types.DestroyedBy c m ∧
          (p.env.types.methodInfo m).label = p.env.types.destructorLabel c) ∧
        Line.wordBehind lines (.symbol (p.env.types.classInfo c).vmtLabel) destructorOffset =
          some (some (.symbol (p.env.types.destructorLabel c))) ∧
        Routine.Unwinds bs (p.env.types.destructorLabel c)
          ((p.env.types.chain c).map p.env.types.destructorLabel) ∧
        ((bs.map Routine.name).Nodup → ∀ path, Routine.Unwinds bs (p.env.types.destructorLabel c) path →
            path = (p.env.types.chain c).map p.env.types.destructorLabel) ∧
        ((p.env.types.chain c).map p.env.types.destructorLabel).Nodup ∧
        ((p.env.types.chain c).map p.env.types.destructorLabel).getLast? = some "Object$Destructor") ∧
      ((∀ d ∈ p.classes, Unseparated d.name) → (bs.map Routine.name).Nodup) ∧
      (∀ c parent, p.env.types.parent c = some parent →
        ∃ b ∈ bs, b.Destroys p.analyzed p.env c parent) ∧
      ∃ b ∈ bs, b.name = "Object$Destructor" ∧ b.body = [] ∧ b.closing = [] := by
  obtain ⟨t, lines, bs, main, hCode, hAssembly, hLaidOut⟩ := exists_laidOut hFresh hOk
  obtain ⟨hΓ, -, -⟩ := typed_of_compile_eq_ok hFresh trivial (.trivial p) hOk
  have hEnrolled := enrolled hFresh (compile_eq_ok hOk).1
  have hLineal := hΓ.settled.lineal
  refine ⟨lines, bs, main, hAssembly, hLaidOut, ?_, ?_, ?_, ?_⟩
  · intro c hc
    have hUnwinds := hLaidOut.unwinds hΓ.settled hEnrolled hc
    obtain ⟨m, hm, hDestroyed, hLabel⟩ :=
      hΓ.settled.exists_destructor hEnrolled.destructors hc
    refine ⟨⟨m, hm, hDestroyed, hLabel⟩, ?_, hUnwinds, ?_, hLineal.nodup_destructorLabels hc, ?_⟩
    · have hWord : Line.wordBehind lines (.symbol (p.env.types.classInfo c).vmtLabel) (4 * 1) =
          ((p.env.types.classInfo c).tableWords p.env.types)[1]? :=
        wordBehind_code hΓ.settled hCode hc (by simp [ClassInfo.tableWords])
      rw [ClassInfo.tableWords, hm, Option.map_some, hLabel] at hWord
      exact hWord
    · intro hNames path hPath
      exact hPath.unique hNames hUnwinds
    · rw [List.getLast?_map, hLineal.getLast?_chain hc, Option.map_some, destructorLabel,
        hEnrolled.root]
      rfl
  · intro hClasses
    exact hLaidOut.nodup_names (named_of_compile_eq_ok hFresh trivial (.trivial p) hClasses hOk)
  · intro c parent hParent
    exact hLaidOut.exists_destroys hΓ.settled hEnrolled hParent
  · exact hLaidOut.exists_rootDestructor hΓ.settled hEnrolled

/-- Three classes on one line. The first and the last have destructors that return from inside a
statement, the one between them has none of its own. -/
def layered : Program where
  classes := [
    { line := 1, name := "A", members := [
      .method {
        line := 2, kind := .destructor, name := "~A"
        body := [.branch 3 (.int 3 1) (.ret 3 none none) none, .print 4 (.int 4 1)] }] },
    { line := 6, name := "B", parent := some "A" },
    { line := 7, name := "C", parent := some "B", members := [
      .method {
        line := 8, kind := .destructor, name := "~C"
        body := [.loop 9 (.int 9 1) (.ret 9 none none)] }] }]
  main := ⟨11, [.delete 12 (.new 12 "C" [] none none)]⟩

theorem compile_destruction_layered : layered.isFresh = true ∧
    ∃ result lines bs, layered.compile {} = .ok result ∧ result.assembly = Line.fileText lines ∧
      Line.wordBehind lines (.symbol "C$VMT") destructorOffset = some (some (.symbol "C$Destructor")) ∧
      (∃ b ∈ bs, b.Destroys layered.analyzed layered.env ⟨3⟩ ⟨2⟩) ∧
      ∀ path, Routine.Unwinds bs "C$Destructor" path ↔
        path = ["C$Destructor", "B$Destructor", "A$Destructor", "Object$Destructor"] := by
  have hFresh : layered.isFresh = true := by decide
  have hSome : (layered.compile {}).toOption.isSome = true := by decide +kernel
  obtain ⟨result, hOk, -⟩ := exists_assembly hSome
  obtain ⟨lines, bs, main, hAssembly, -, hClasses, hNames, hDestroys, -⟩ :=
    compile_destruction {} layered hFresh result hOk
  obtain ⟨-, hWord, hUnwinds, hUnique, -⟩ := hClasses ⟨3⟩ (by decide +kernel)
  have hTable : (layered.env.types.classInfo ⟨3⟩).vmtLabel = "C$VMT" := by decide +kernel
  have hLabel : layered.env.types.destructorLabel ⟨3⟩ = "C$Destructor" := by decide +kernel
  have hPath : (layered.env.types.chain ⟨3⟩).map layered.env.types.destructorLabel =
      ["C$Destructor", "B$Destructor", "A$Destructor", "Object$Destructor"] := by decide +kernel
  rw [hTable, hLabel] at hWord
  rw [hLabel, hPath] at hUnwinds hUnique
  have hParent : layered.env.types.parent ⟨3⟩ = some ⟨2⟩ := by decide +kernel
  refine ⟨hFresh, result, lines, bs, hOk, hAssembly, hWord, hDestroys ⟨3⟩ ⟨2⟩ hParent, ?_⟩
  intro path
  constructor
  · exact hUnique (hNames (by decide)) path
  · rintro rfl
    exact hUnwinds

end Program
end TLang
