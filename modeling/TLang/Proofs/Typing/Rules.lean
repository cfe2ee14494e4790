import TLang.Proofs.Members
import TLang.Proofs.Registry.Fields

/-! The typing rules of explicit trees. A node denotes a value or the cell of a variable or a field;
cells are read and values are widened by nodes of their own. Which routine a call is bound to is left
open: the rules are stated for any way to select it. -/
namespace TLang

variable {Γ : Env} {select : Selection} {e : Expr}

/-- What the code of a node leaves on the stack. -/
inductive Meaning where
  | value (ty : Ty)
  /-- The address of a cell for values of a type. -/
  | cell (ty : Ty)

namespace Meaning

/-- The type a node carries. -/
def mark : Meaning → Ty
  | value ty => ty
  | cell _ => .address

end Meaning

/-- An argument without the widening at its root. -/
def Expr.unwidened : Expr → Expr
  | .convert _ e => e
  | e => e

/-- Whether a routine of a kind and name, looked up in a class, may be called with the arguments. -/
abbrev Selection := ClassId → MethodKind → String → List Expr → MethodId → Prop

/-- The types whose values may be compared. -/
inductive Comparable : Ty → Ty → Prop where
  | nullLeft (ty : Ty) : Comparable .null ty
  | nullRight (ty : Ty) : Comparable ty .null
  | int : Comparable .int .int
  | sameClass (c : ClassId) : Comparable (.ofClass c) (.ofClass c)

namespace Env

/-- The class of the method whose body is typed. -/
def owner? (Γ : Env) : Option ClassId :=
  Γ.position.method?.map fun m => (Γ.types.methodInfo m).owner

/-- The variable of a name that is kept in the given storage was declared with the type. -/
inductive Declares (Γ : Env) (name : String) : Storage → Ty → Prop where
  | mainVar {ty : Ty} (hScope : Γ.position.scope = .program)
      (hType : Γ.globals.names.type? name = some ty) : Declares Γ name .mainVar ty
  | localVar {m : MethodId} {slot : Nat} {ty : Ty} (hScope : Γ.position.scope = .method m)
      (hType : (Γ.types.methodInfo m).locals.names[slot]? = some (name, ty)) :
      Declares Γ name (.localVar slot) ty
  | param {m : MethodId} {index : Nat} {ty : Ty} (hScope : Γ.position.scope = .method m)
      (hType : (Γ.types.methodInfo m).params[index]? = some (name, ty)) :
      Declares Γ name (.param index) ty
  | field {c : ClassId} {offset : Nat} {ty : Ty} (hOwner : Γ.owner? = some c)
      (hType : Γ.types.fieldType c name = some ty)
      (hOffset : Γ.types.fieldOffset c name = some offset) : Declares Γ name (.field offset) ty

/-- The class in which the method of a call is looked up. -/
def LooksIn (Γ : Env) : Receiver Expr → ClassId → Prop
  | .implicit, c => Γ.owner? = some c
  | .super, c => ∃ owner, Γ.owner? = some owner ∧ Γ.types.parent owner = some c
  | .object e, c => e.ty = .ofClass c

/-- The slot through which a call reaches its method. A call of a parent's method needs none. -/
def Dispatches (Γ : Env) (receiver : Receiver Expr) (c : ClassId) (m : MethodId)
    (slot : Option Nat) : Prop :=
  match receiver with
  | .super => slot = none
  | _ => ∃ s, slot = some s ∧ Γ.types.vmtSlot c (Γ.types.methodInfo m).signature = some s

/-- The class whose constructor a constructor hands over to. -/
def Delegates (Γ : Env) : Delegate → ClassId → Prop
  | .this, c => Γ.owner? = some c
  | .super, c => ∃ owner, Γ.owner? = some owner ∧ Γ.types.parent owner = some c

/-- A method is called by a name that `names` allows, a constructor by that of its class.
Destructors are not called. -/
def CalledBy (names : String → Prop) (Γ : Env) (c : ClassId) (kind : MethodKind)
    (name : String) : Prop :=
  match kind with
  | .method => names name
  | .constructor => name = (Γ.types.classInfo c).name
  | .destructor => False

/-- The routine that overload resolution selects by the types of the arguments as written, the
arguments then being widened to those of its parameters. -/
def Selects (names : String → Prop) (Γ : Env) : Selection := fun c kind name args m =>
  Γ.CalledBy names c kind name ∧ ∃ exact,
    Γ.types.resolveMethod c name kind (args.map fun a => a.unwidened.ty) = some ⟨m, exact⟩ ∧
      args = Γ.convertArgs ⟨m, exact⟩ (args.map Expr.unwidened)

end Env

/-- What an expression denotes. -/
inductive Denotes (Γ : Env) (select : Selection) : Expr → Meaning → Prop where
  | int (line : Nat) (value : Int32) : Denotes Γ select (.int ⟨line, .int⟩ value) (.value .int)
  | null (line : Nat) : Denotes Γ select (.null ⟨line, .null⟩) (.value .null)
  | this (line : Nat) {c : ClassId} (hOwner : Γ.owner? = some c) :
      Denotes Γ select (.this ⟨line, .ofClass c⟩) (.value (.ofClass c))
  | var (line : Nat) {name : String} {storage : Storage} {ty : Ty}
      (hDeclares : Γ.Declares name storage ty) :
      Denotes Γ select (.var ⟨line, .address⟩ name (some storage)) (.cell ty)
  | field (line : Nat) {object : Expr} {name : String} {c : ClassId} {offset : Nat} {ty : Ty}
      (hObject : Denotes Γ select object (.value (.ofClass c)))
      (hType : Γ.types.fieldType c name = some ty)
      (hOffset : Γ.types.fieldOffset c name = some offset) :
      Denotes Γ select (.field ⟨line, .address⟩ object name (some offset)) (.cell ty)
  | read (line : Nat) {address : Expr} {ty : Ty} (hAddress : Denotes Γ select address (.cell ty)) :
      Denotes Γ select (.deref ⟨line, ty⟩ address) (.value ty)
  | assign (line : Nat) {target value : Expr} {ty : Ty}
      (hTarget : Denotes Γ select target (.cell ty)) (hValue : Denotes Γ select value (.value ty)) :
      Denotes Γ select (.assign ⟨line, ty⟩ target value) (.value ty)
  | arithmetic (line : Nat) {op : BinaryOp} {left right : Expr} (hOp : op ≠ .eq)
      (hLeft : Denotes Γ select left (.value .int)) (hRight : Denotes Γ select right (.value .int)) :
      Denotes Γ select (.binary ⟨line, .int⟩ op left right) (.value .int)
  | equality (line : Nat) {left right : Expr} {a b : Ty}
      (hLeft : Denotes Γ select left (.value a)) (hRight : Denotes Γ select right (.value b))
      (hComparable : Comparable a b) :
      Denotes Γ select (.binary ⟨line, .int⟩ .eq left right) (.value .int)
  | unary (line : Nat) (op : UnaryOp) {operand : Expr}
      (hOperand : Denotes Γ select operand (.value .int)) :
      Denotes Γ select (.unary ⟨line, .int⟩ op operand) (.value .int)
  | call (line : Nat) {receiver : Receiver Expr} {name : String} {args : List Expr} {c : ClassId}
      {m : MethodId} {slot : Option Nat} {ty : Ty}
      (hReceiver : ∀ e, receiver = .object e → Denotes Γ select e (.value e.ty))
      (hArgs : ∀ a ∈ args, Denotes Γ select a (.value a.ty)) (hLooksIn : Γ.LooksIn receiver c)
      (hSelect : select c .method name args m) (hReturns : (Γ.types.methodInfo m).returns = some ty)
      (hSlot : Γ.Dispatches receiver c m slot) :
      Denotes Γ select (.call ⟨line, ty⟩ receiver name args (some m) slot) (.value ty)
  | new (line : Nat) {className : String} {args : List Expr} {c : ClassId} {m : MethodId}
      (hArgs : ∀ a ∈ args, Denotes Γ select a (.value a.ty))
      (hClass : Γ.types.lookupClass className = some c)
      (hSelect : select c .constructor className args m) :
      Denotes Γ select (.new ⟨line, .ofClass c⟩ className args (some c) (some m))
        (.value (.ofClass c))
  | cast (line : Nat) {className : String} {operand : Expr} {c : ClassId} {ty : Ty}
      (hOperand : Denotes Γ select operand (.value ty)) (hTy : ty = .null ∨ ∃ a, ty = .ofClass a)
      (hClass : Γ.types.lookupClass className = some c) :
      Denotes Γ select (.cast ⟨line, .ofClass c⟩ className operand (some c)) (.value (.ofClass c))
  | widen (line : Nat) {operand : Expr} {ty wider : Ty}
      (hOperand : Denotes Γ select operand (.value ty))
      (hAssignable : Γ.types.isAssignable ty wider = true) (hProper : ty ≠ wider) :
      Denotes Γ select (.convert ⟨line, wider⟩ operand) (.value wider)

/-- A node carries the type of what it denotes. -/
theorem Denotes.ty_eq {d : Meaning} (h : Denotes Γ select e d) : e.ty = d.mark := by
  cases h <;> rfl

/-- What a return from a routine may carry: a value of the declared type from a method, nothing from
a constructor or a destructor. -/
def Env.ReturnsFrom (Γ : Env) (select : Selection) (m : MethodInfo) (value : Option Expr) : Prop :=
  match m.kind with
  | .method => ∃ e ty, value = some e ∧ m.returns = some ty ∧ Denotes Γ select e (.value ty)
  | _ => value = none

/-- What a return may carry. The main block may return an int or nothing. -/
def Env.Returns (Γ : Env) (select : Selection) (value : Option Expr) : Prop :=
  match Γ.method? with
  | some m => Γ.ReturnsFrom select m value
  | none => ∀ e, value = some e → Denotes Γ select e (.value .int)

theorem Env.Returns.denotes {value : Option Expr} (h : Γ.Returns select value) (he : value = some e) :
    ∃ ty, Denotes Γ select e (.value ty) := by
  subst he
  rw [Env.Returns] at h
  split at h
  case h_1 m _ =>
    rw [Env.ReturnsFrom] at h
    split at h
    case h_1 =>
      obtain ⟨e', ty, hEq, -, hDenotes⟩ := h
      cases hEq
      exact ⟨_, hDenotes⟩
    case h_2 => cases h
  case h_2 => exact ⟨_, h e rfl⟩

/-- The exit of the body that is typed. -/
def Env.exitLabel (Γ : Env) : String :=
  match Γ.method? with
  | some m => m.exitLabel
  | none => MainBlock.exitLabel

mutual

/-- A statement is well typed. `inLoop` says that a loop of the same body is around it. -/
def Stmt.Typed (Γ : Env) (select : Selection) (inLoop : Bool) : Stmt → Prop
  | .expr _ e => ∃ ty, Denotes Γ select e (.value ty)
  | .declare _ _ _ | .empty _ => True
  | .print _ e => Denotes Γ select e (.value .int)
  | .block _ body => Stmt.AllTyped Γ select inLoop body
  | .branch _ cond thenBranch elseBranch =>
    Denotes Γ select cond (.value .int) ∧ thenBranch.Typed Γ select inLoop ∧
      Stmt.ElseTyped Γ select inLoop elseBranch
  | .loop _ cond body => Denotes Γ select cond (.value .int) ∧ body.Typed Γ select true
  | .ret _ value exitLabel => Γ.Returns select value ∧ exitLabel = some Γ.exitLabel
  | .breakLoop _ | .continueLoop _ => inLoop = true
  | .delete _ target => ∃ c, Denotes Γ select target (.value (.ofClass c))
  | .construct _ delegate args constructor =>
    ∃ c m, Γ.Delegates delegate c ∧ constructor = some m ∧
      (∀ a ∈ args, Denotes Γ select a (.value a.ty)) ∧
      select c .constructor (Γ.types.classInfo c).name args m

def Stmt.ElseTyped (Γ : Env) (select : Selection) (inLoop : Bool) : Option Stmt → Prop
  | none => True
  | some s => s.Typed Γ select inLoop

def Stmt.AllTyped (Γ : Env) (select : Selection) (inLoop : Bool) : List Stmt → Prop
  | [] => True
  | s :: rest => s.Typed Γ select inLoop ∧ Stmt.AllTyped Γ select inLoop rest

end

/-- The same environment in another position. -/
def Env.placed (env : Env) (p : Position) : Env := { env with position := p }

/-- The body of a method of class `c` is well typed. -/
def Member.Typed (Γ : Env) (select : Selection) (c : ClassId) : Member → Prop
  | field _ => True
  | method d => ∃ m, d.resolved = some m ∧ Γ.types.Records c m d ∧
      Stmt.AllTyped (Γ.placed { inClass := some c, inMethod := some m }) select false d.body

/-- The bodies of a class below the root are well typed. -/
def ClassDecl.Typed (Γ : Env) (select : Selection) (d : ClassDecl) : Prop :=
  ∃ c, d.resolved = some c ∧ c ≠ Registry.object ∧ ∀ member ∈ d.members, member.Typed Γ select c

def MainBlock.Typed (Γ : Env) (select : Selection) (m : MainBlock) : Prop :=
  Stmt.AllTyped (Γ.placed { inMain := true }) select false m.body

/-- All bodies of a program are well typed. -/
def Program.Typed (Γ : Env) (select : Selection) (p : Program) : Prop :=
  (∀ d ∈ p.classes, d.Typed Γ select) ∧ p.main.Typed Γ select

end TLang
