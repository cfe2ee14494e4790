import TLang.Syntax.Program

/-! The parts of trees: the operands of a node, the nodes of an expression, the statements inside a
statement, and the statements of a program. -/
namespace TLang

open List

/-- The operands that the receiver of a call contributes. -/
def Receiver.operands : Receiver Expr → List Expr
  | .object e => [e]
  | _ => []

namespace Expr

/-- The nodes directly below a node. -/
def operands : Expr → List Expr
  | int _ _ | null _ | this _ | var _ _ _ => []
  | binary _ _ left right => [left, right]
  | unary _ _ e | field _ e _ _ | cast _ _ e _ | deref _ e | convert _ e => [e]
  | assign _ target value => [target, value]
  | call _ receiver _ args _ _ => receiver.operands ++ args
  | new _ _ args _ _ => args

/-- The first expression is the second one or a node inside it. -/
inductive IsPart : Expr → Expr → Prop where
  | refl (e : Expr) : IsPart e e
  | step {e operand node : Expr} (hOperand : operand ∈ node.operands) (h : IsPart e operand) :
      IsPart e node

mutual

/-- All nodes of an expression. -/
def nodes : Expr → List Expr
  | int mark value => [int mark value]
  | null mark => [null mark]
  | this mark => [this mark]
  | var mark name storage => [var mark name storage]
  | binary mark op left right => binary mark op left right :: (left.nodes ++ right.nodes)
  | unary mark op e => unary mark op e :: e.nodes
  | assign mark target value => assign mark target value :: (target.nodes ++ value.nodes)
  | field mark e name offset => field mark e name offset :: e.nodes
  | call mark receiver name args method slot =>
    call mark receiver name args method slot :: (nodesOfReceiver receiver ++ nodesOfAll args)
  | new mark className args cls constructor =>
    new mark className args cls constructor :: nodesOfAll args
  | cast mark className e cls => cast mark className e cls :: e.nodes
  | deref mark e => deref mark e :: e.nodes
  | convert mark e => convert mark e :: e.nodes

def nodesOfReceiver : Receiver Expr → List Expr
  | .implicit | .super => []
  | .object e => e.nodes

def nodesOfAll : List Expr → List Expr
  | [] => []
  | e :: rest => e.nodes ++ nodesOfAll rest

end

theorem nodesOfReceiver_eq (receiver : Receiver Expr) :
    nodesOfReceiver receiver = receiver.operands.flatMap nodes := by
  cases receiver <;> simp [nodesOfReceiver, Receiver.operands]

theorem nodesOfAll_eq (es : List Expr) : nodesOfAll es = es.flatMap nodes := by
  induction es with
  | nil => rfl
  | cons e rest ih => rw [nodesOfAll, ih, flatMap_cons]

/-- The nodes of an expression are its root and those of its operands. -/
theorem nodes_eq (e : Expr) : e.nodes = e :: e.operands.flatMap nodes := by
  cases e <;> simp [nodes, operands, nodesOfReceiver_eq, nodesOfAll_eq]

theorem sizeOf_lt_of_mem_operands {e operand : Expr} (h : operand ∈ e.operands) :
    sizeOf operand < sizeOf e := by
  cases e with
  | int | null | this | var => cases h
  | unary | field | cast | deref | convert =>
    rw [mem_singleton.mp h]
    simp +arith
  | binary _ _ left right | assign _ left right =>
    rcases mem_cons.mp h with rfl | h
    · simp +arith
    · rw [mem_singleton.mp h]
      simp +arith
  | new _ _ args =>
    have hArg : sizeOf operand < sizeOf args := sizeOf_lt_of_mem h
    simp
    omega
  | call _ receiver =>
    rcases mem_append.mp h with h | h
    · cases receiver with
      | implicit | super => cases h
      | object e =>
        rw [mem_singleton.mp h]
        simp +arith
    · have hArg := sizeOf_lt_of_mem h
      simp
      omega

theorem isPart_of_mem_nodes {e root : Expr} (h : e ∈ root.nodes) : e.IsPart root := by
  rw [nodes_eq] at h
  rcases mem_cons.mp h with rfl | h
  · exact .refl e
  · obtain ⟨operand, hOperand, h⟩ := mem_flatMap.mp h
    exact .step hOperand (isPart_of_mem_nodes h)
termination_by sizeOf root
decreasing_by exact sizeOf_lt_of_mem_operands hOperand

/-- The nodes of a tree are its parts, itself included. -/
theorem mem_nodes_iff {e root : Expr} : e ∈ root.nodes ↔ e.IsPart root := by
  constructor
  · exact isPart_of_mem_nodes
  · intro h
    induction h with
    | refl =>
      rw [nodes_eq]
      exact mem_cons_self
    | step hOperand _ ih =>
      rw [nodes_eq]
      exact mem_cons_of_mem _ (mem_flatMap.mpr ⟨_, hOperand, ih⟩)

/-- The name of the method that a node calls. -/
def called? : Expr → Option String
  | call _ _ name _ _ _ => some name
  | _ => none

/-- All calls inside an expression are by names that `names` allows. -/
def CallsBy (names : String → Prop) (e : Expr) : Prop :=
  ∀ part name, IsPart part e → part.called? = some name → names name

instance (names : String → Prop) [DecidablePred names] (e : Expr) : Decidable (e.CallsBy names) :=
  decidable_of_iff (∀ part ∈ e.nodes, ∀ name ∈ part.called?, names name) <| by
    simp only [CallsBy, mem_nodes_iff, Option.mem_def]
    exact ⟨fun h part name hPart => h part hPart name, fun h part hPart name => h part name hPart⟩

theorem CallsBy.operand {names : String → Prop} {e operand : Expr} (h : e.CallsBy names)
    (hOperand : operand ∈ e.operands) : operand.CallsBy names :=
  fun part name hPart => h part name (.step hOperand hPart)

end Expr

namespace Stmt

/-- The expressions of a statement itself, without those of the statements inside it. -/
def operands : Stmt → List Expr
  | expr _ e | print _ e | branch _ e _ _ | loop _ e _ | delete _ e => [e]
  | ret _ value _ => value.toList
  | construct _ _ args _ => args
  | declare _ _ _ | block _ _ | breakLoop _ | continueLoop _ | empty _ => []

mutual

/-- A statement and all statements inside it. -/
def parts : Stmt → List Stmt
  | block line body => block line body :: partsOfAll body
  | branch line cond thenBranch elseBranch =>
    branch line cond thenBranch elseBranch :: (thenBranch.parts ++ partsOfElse elseBranch)
  | loop line cond body => loop line cond body :: body.parts
  | expr line e => [expr line e]
  | declare line type names => [declare line type names]
  | print line e => [print line e]
  | ret line value exitLabel => [ret line value exitLabel]
  | breakLoop line => [breakLoop line]
  | continueLoop line => [continueLoop line]
  | delete line target => [delete line target]
  | construct line delegate args constructor => [construct line delegate args constructor]
  | empty line => [empty line]

def partsOfElse : Option Stmt → List Stmt
  | none => []
  | some s => s.parts

def partsOfAll : List Stmt → List Stmt
  | [] => []
  | s :: rest => s.parts ++ partsOfAll rest

end

/-- All calls in the expressions of the given statements are by names that `names` allows. The
statements inside them are not looked at. -/
def CallBy (names : String → Prop) (ss : List Stmt) : Prop :=
  ∀ s ∈ ss, ∀ e ∈ s.operands, e.CallsBy names

instance (names : String → Prop) [DecidablePred names] (ss : List Stmt) : Decidable (CallBy names ss) :=
  inferInstanceAs (Decidable (∀ s ∈ ss, ∀ e ∈ s.operands, e.CallsBy names))

theorem self_mem_parts (s : Stmt) : s ∈ s.parts := by
  cases s <;> simp [parts]

theorem CallBy.own {names : String → Prop} {s : Stmt} {e : Expr} (h : CallBy names s.parts)
    (he : e ∈ s.operands) : e.CallsBy names :=
  h s s.self_mem_parts e he

theorem CallBy.within {names : String → Prop} {ss more : List Stmt} (h : CallBy names more)
    (hss : ss ⊆ more) : CallBy names ss :=
  fun s hs => h s (hss hs)

end Stmt

/-- The body of a method. A field has none. -/
def Member.body : Member → List Stmt
  | field _ => []
  | method d => d.body

/-- All statements of a class. -/
def ClassDecl.statements (d : ClassDecl) : List Stmt :=
  d.members.flatMap fun member => Stmt.partsOfAll member.body

/-- All statements of a program. -/
def Program.statements (p : Program) : List Stmt :=
  p.classes.flatMap ClassDecl.statements ++ Stmt.partsOfAll p.main.body

end TLang
