import TLang.Proofs.Erasure

/-! Other numbers for classes and methods. The numbers under which a registry keeps its records
depend on the order of registration; what a program means does not. Renumbering acts on everything
in which such a number occurs: types, records, positions and trees. -/
namespace TLang

/-- New numbers for the classes and methods of a registry. -/
structure Renumbering where
  cls : ClassId → ClassId
  method : MethodId → MethodId

namespace Renumbering

/-- All numbers stay as they are. -/
def same : Renumbering := ⟨id, id⟩

@[simp] theorem cls_same : same.cls = id := rfl

@[simp] theorem method_same : same.method = id := rfl

/-- Different records stay different, and the root class keeps its number. -/
structure Faithful (ρ : Renumbering) : Prop where
  cls : ∀ {c c'}, ρ.cls c = ρ.cls c' → c = c'
  method : ∀ {m m'}, ρ.method m = ρ.method m' → m = m'
  root : ρ.cls Registry.object = Registry.object

end Renumbering

variable (ρ : Renumbering)

namespace Ty

def renumber : Ty → Ty
  | ofClass c => ofClass (ρ.cls c)
  | ofMethod m => ofMethod (ρ.method m)
  | int => int
  | null => null
  | untyped => untyped
  | error => error
  | address => address

@[simp] theorem renumber_same (ty : Ty) : ty.renumber .same = ty := by
  cases ty <;> rfl

variable {ρ} {ty ty' : Ty}

@[simp] theorem renumber_eq_int : ty.renumber ρ = int ↔ ty = int := by
  cases ty <;> simp [renumber]

@[simp] theorem renumber_eq_null : ty.renumber ρ = null ↔ ty = null := by
  cases ty <;> simp [renumber]

@[simp] theorem renumber_eq_untyped : ty.renumber ρ = untyped ↔ ty = untyped := by
  cases ty <;> simp [renumber]

@[simp] theorem renumber_eq_error : ty.renumber ρ = error ↔ ty = error := by
  cases ty <;> simp [renumber]

/-- Types that differ keep differing. A faithful renumbering is needed, since two classes that got one number
would have one type. -/
theorem renumber_inj (hρ : ρ.Faithful) : ty.renumber ρ = ty'.renumber ρ ↔ ty = ty' := by
  refine ⟨?_, fun h => h ▸ rfl⟩
  intro h
  cases ty <;> cases ty' <;> simp only [renumber, reduceCtorEq] at h ⊢
  case ofClass.ofClass => exact congrArg ofClass (hρ.cls (ofClass.inj h))
  case ofMethod.ofMethod => exact congrArg ofMethod (hρ.method (ofMethod.inj h))

end Ty

namespace Bindings

def renumber (b : Bindings) : Bindings := b.map fun entry => (entry.1, entry.2.renumber ρ)

variable (b : Bindings)

@[simp] theorem renumber_same : Bindings.renumber .same b = b := by
  simp [renumber]

@[simp] theorem renumber_nil : Bindings.renumber ρ [] = [] := rfl

@[simp] theorem renumber_append (more : Bindings) :
    Bindings.renumber ρ (b ++ more) = b.renumber ρ ++ more.renumber ρ := by
  simp [renumber]

/-- Names do not depend on numbers, so a table under other numbers has the same entries in the same order. -/
@[simp] theorem names_renumber : (b.renumber ρ).names = b.names := by
  simp [renumber, names]

@[simp] theorem types_renumber : (b.renumber ρ).types = b.types.map (Ty.renumber ρ) := by
  simp [renumber, types]

@[simp] theorem length_renumber : (b.renumber ρ).length = b.length := by
  simp [renumber]

variable (name : String)

@[simp] theorem declares_renumber : (b.renumber ρ).declares name = b.declares name := by
  simp [renumber, declares, Function.comp_def]

@[simp] theorem type?_renumber : (b.renumber ρ).type? name = (b.type? name).map (Ty.renumber ρ) := by
  simp [renumber, type?, List.find?_map, Function.comp_def]

@[simp] theorem position?_renumber : (b.renumber ρ).position? name = b.position? name := by
  simp [renumber, position?, List.findIdx?_map, Function.comp_def]

/-- A declaration is refused under new numbers if and only if it was refused before: only its name matters. -/
theorem add?_renumber (ty : Ty) :
    (b.renumber ρ).add? name (ty.renumber ρ) = (b.add? name ty).map (renumber ρ) := by
  rw [add?, add?, declares_renumber]
  split
  · rfl
  · simp [renumber]

end Bindings

def SymbolTable.renumber (t : SymbolTable) : SymbolTable :=
  ⟨t.names.renumber ρ, t.methods.renumber ρ⟩

@[simp] theorem SymbolTable.renumber_same (t : SymbolTable) : t.renumber .same = t := by
  simp [renumber]

/-- The record of a routine under new numbers. Its name, signature and label are texts, in which no number
occurs. -/
def MethodInfo.renumber (m : MethodInfo) : MethodInfo :=
  { m with
    owner := ρ.cls m.owner
    params := m.params.renumber ρ
    returns := m.returns.map (Ty.renumber ρ)
    locals := m.locals.renumber ρ }

@[simp] theorem MethodInfo.renumber_same (m : MethodInfo) : m.renumber .same = m := by
  have hTy : Ty.renumber .same = id := funext Ty.renumber_same
  simp [renumber, hTy]

/-- The record of a class under new numbers, with the members of its tables in the same order. -/
def ClassInfo.renumber (c : ClassInfo) : ClassInfo :=
  { c with
    parent := c.parent.map ρ.cls
    members := c.members.renumber ρ
    fields := c.fields.renumber ρ
    methods := c.methods.map ρ.method
    destructor := c.destructor.map ρ.method
    vmt := c.vmt.map ρ.method }

@[simp] theorem ClassInfo.renumber_same (c : ClassInfo) : c.renumber .same = c := by
  simp [renumber]

def Registry.Resolution.renumber (r : Registry.Resolution) : Registry.Resolution :=
  { r with method := ρ.method r.method }

def ScopeKind.renumber : ScopeKind → ScopeKind
  | method m => method (ρ.method m)
  | cls c => cls (ρ.cls c)
  | program => program

def Position.renumber (p : Position) : Position :=
  { p with inClass := p.inClass.map ρ.cls, inMethod := p.inMethod.map ρ.method }

@[simp] theorem Position.scope_renumber (p : Position) : (p.renumber ρ).scope = p.scope.renumber ρ := by
  rcases p with ⟨inMain, c | c, m | m⟩ <;> rfl

@[simp] theorem Position.method?_renumber (p : Position) :
    (p.renumber ρ).method? = p.method?.map ρ.method := by
  rcases p with ⟨inMain, c | c, m | m⟩ <;> rfl

def Mark.renumber (m : Mark) : Mark := { m with ty := m.ty.renumber ρ }

@[simp] theorem Mark.renumber_same (m : Mark) : m.renumber .same = m := by
  simp [renumber]

mutual

def Expr.renumber : Expr → Expr
  | .int mark value => .int (mark.renumber ρ) value
  | .null mark => .null (mark.renumber ρ)
  | .this mark => .this (mark.renumber ρ)
  | .var mark name storage => .var (mark.renumber ρ) name storage
  | .binary mark op left right => .binary (mark.renumber ρ) op left.renumber right.renumber
  | .unary mark op operand => .unary (mark.renumber ρ) op operand.renumber
  | .assign mark target value => .assign (mark.renumber ρ) target.renumber value.renumber
  | .field mark object name offset => .field (mark.renumber ρ) object.renumber name offset
  | .call mark receiver name args method slot =>
    .call (mark.renumber ρ) (Expr.renumberReceiver receiver) name (Expr.renumberAll args)
      (method.map ρ.method) slot
  | .new mark className args cls constructor =>
    .new (mark.renumber ρ) className (Expr.renumberAll args) (cls.map ρ.cls)
      (constructor.map ρ.method)
  | .cast mark className operand cls =>
    .cast (mark.renumber ρ) className operand.renumber (cls.map ρ.cls)
  | .deref mark address => .deref (mark.renumber ρ) address.renumber
  | .convert mark operand => .convert (mark.renumber ρ) operand.renumber

def Expr.renumberReceiver : Receiver Expr → Receiver Expr
  | .implicit => .implicit
  | .super => .super
  | .object e => .object e.renumber

def Expr.renumberAll : List Expr → List Expr
  | [] => []
  | e :: rest => e.renumber :: Expr.renumberAll rest

end

namespace Expr

/-- A list of trees is renumbered tree by tree. The mutual definition is there for the recursion alone. -/
@[simp] theorem renumberAll_eq (es : List Expr) : renumberAll ρ es = es.map (renumber ρ) := by
  induction es with
  | nil => rfl
  | cons e rest ih => rw [renumberAll, ih, List.map_cons]

@[simp] theorem line_renumber (e : Expr) : (e.renumber ρ).line = e.line := by
  cases e <;> rfl

@[simp] theorem ty_renumber (e : Expr) : (e.renumber ρ).ty = e.ty.renumber ρ := by
  cases e <;> rfl

/-- A conversion that is put around a tree is the same before and after renumbering, with its type under new
numbers. -/
@[simp] theorem renumber_widen (e : Expr) (ty : Ty) :
    (e.widen ty).renumber ρ = (e.renumber ρ).widen (ty.renumber ρ) := by
  simp [widen, renumber, Mark.renumber]

@[simp] theorem renumber_withTy (e : Expr) (ty : Ty) :
    (e.withTy ty).renumber ρ = (e.renumber ρ).withTy (ty.renumber ρ) := by
  cases e <;> rfl

mutual

@[simp] theorem renumber_same : (e : Expr) → e.renumber .same = e
  | int _ _ | null _ | this _ | var _ _ _ => by simp [renumber]
  | binary _ _ left right | assign _ left right => by
    simp [renumber, renumber_same left, renumber_same right]
  | unary _ _ operand | field _ operand _ _ | cast _ _ operand _ | deref _ operand
  | convert _ operand => by simp [renumber, renumber_same operand]
  | call _ receiver _ args _ _ => by
    simp [renumber, renumberReceiver_same receiver, renumberAll_same args, -renumberAll_eq]
  | new _ _ args _ _ => by simp [renumber, renumberAll_same args, -renumberAll_eq]

theorem renumberReceiver_same : (receiver : Receiver Expr) → renumberReceiver .same receiver = receiver
  | .implicit | .super => rfl
  | .object e => by simp [renumberReceiver, renumber_same e]

theorem renumberAll_same : (es : List Expr) → renumberAll .same es = es
  | [] => rfl
  | e :: rest => by
    have hRest := renumberAll_same rest
    rw [renumberAll, renumber_same e, hRest]

end

mutual

/-- A tree as it was read carries no number. -/
theorem renumber_erase : (e : Expr) → e.erase.renumber ρ = e.erase
  | int _ _ | null _ | this _ | var _ _ _ => by
    rw [erase, renumber]
    rfl
  | binary _ _ left right | assign _ left right => by
    rw [erase, renumber, renumber_erase left, renumber_erase right]
    rfl
  | unary _ _ operand | field _ operand _ _ | cast _ _ operand _ => by
    rw [erase, renumber, renumber_erase operand]
    rfl
  | deref _ operand | convert _ operand => by rw [erase, renumber_erase operand]
  | call _ receiver _ args _ _ => by
    rw [erase, renumber, renumberReceiver_erase receiver, renumberAll_erase args]
    rfl
  | new _ _ args _ _ => by
    rw [erase, renumber, renumberAll_erase args]
    rfl

theorem renumberReceiver_erase : (receiver : Receiver Expr) →
    renumberReceiver ρ (eraseReceiver receiver) = eraseReceiver receiver
  | .implicit | .super => rfl
  | .object e => by rw [eraseReceiver, renumberReceiver, renumber_erase e]

theorem renumberAll_erase : (es : List Expr) → renumberAll ρ (eraseAll es) = eraseAll es
  | [] => rfl
  | e :: rest => by rw [eraseAll, renumberAll, renumber_erase e, renumberAll_erase rest]

end

end Expr

mutual

def Stmt.renumber : Stmt → Stmt
  | .expr line e => .expr line (e.renumber ρ)
  | .declare line type names => .declare line type names
  | .print line e => .print line (e.renumber ρ)
  | .block line body => .block line (Stmt.renumberAll body)
  | .branch line cond thenBranch elseBranch =>
    .branch line (cond.renumber ρ) thenBranch.renumber (Stmt.renumberElse elseBranch)
  | .loop line cond body => .loop line (cond.renumber ρ) body.renumber
  | .ret line value exitLabel => .ret line (value.map (Expr.renumber ρ)) exitLabel
  | .breakLoop line => .breakLoop line
  | .continueLoop line => .continueLoop line
  | .delete line target => .delete line (target.renumber ρ)
  | .construct line delegate args constructor =>
    .construct line delegate (args.map (Expr.renumber ρ)) (constructor.map ρ.method)
  | .empty line => .empty line

def Stmt.renumberElse : Option Stmt → Option Stmt
  | none => none
  | some s => some s.renumber

def Stmt.renumberAll : List Stmt → List Stmt
  | [] => []
  | s :: rest => s.renumber :: Stmt.renumberAll rest

end

namespace Stmt

@[simp] theorem renumberAll_eq (ss : List Stmt) : renumberAll ρ ss = ss.map (renumber ρ) := by
  induction ss with
  | nil => rfl
  | cons s rest ih => rw [renumberAll, ih, List.map_cons]

mutual

/-- Renumbering with the numbers as they are changes nothing. So two runs over the same registry are a special
case of two runs over renumbered ones. -/
@[simp] theorem renumber_same : (s : Stmt) → s.renumber .same = s
  | expr _ _ | declare _ _ _ | print _ _ | breakLoop _ | continueLoop _ | delete _ _ | empty _ => by
    simp [renumber]
  | block _ body => by rw [renumber, renumberAll_same body]
  | branch _ cond thenBranch elseBranch => by
    rw [renumber, cond.renumber_same, renumber_same thenBranch, renumberElse_same elseBranch]
  | loop _ cond body => by rw [renumber, cond.renumber_same, renumber_same body]
  | ret _ value _ | construct _ _ value _ => by
    have hExpr : Expr.renumber .same = id := funext Expr.renumber_same
    simp [renumber, hExpr]

theorem renumberElse_same : (s : Option Stmt) → renumberElse .same s = s
  | none => rfl
  | some s => by rw [renumberElse, renumber_same s]

theorem renumberAll_same : (ss : List Stmt) → renumberAll .same ss = ss
  | [] => rfl
  | s :: rest => by rw [renumberAll, renumber_same s, renumberAll_same rest]

end

mutual

/-- A statement as it was read carries no number either, since erasing it removes all that analysis resolves. -/
theorem renumber_erase : (s : Stmt) → s.erase.renumber ρ = s.erase
  | expr _ e | print _ e | delete _ e => by rw [erase, renumber, e.renumber_erase ρ]
  | declare _ _ _ | breakLoop _ | continueLoop _ | empty _ | ret _ none _ => rfl
  | block _ body => by rw [erase, renumber, renumberAll_erase body]
  | branch _ cond thenBranch elseBranch => by
    rw [erase, renumber, cond.renumber_erase ρ, renumber_erase thenBranch, renumberElse_erase elseBranch]
  | loop _ cond body => by rw [erase, renumber, cond.renumber_erase ρ, renumber_erase body]
  | ret _ (some e) _ => by rw [erase, renumber, Option.map_some, Option.map_some, e.renumber_erase ρ]
  | construct _ _ args _ => by
    rw [erase, renumber, ← Expr.eraseAll_eq, ← Expr.renumberAll_eq, Expr.renumberAll_erase ρ args]
    rfl

theorem renumberElse_erase : (s : Option Stmt) → renumberElse ρ (eraseElse s) = eraseElse s
  | none => rfl
  | some s => by rw [eraseElse, renumberElse, renumber_erase s]

theorem renumberAll_erase : (ss : List Stmt) → renumberAll ρ (eraseAll ss) = eraseAll ss
  | [] => rfl
  | s :: rest => by rw [eraseAll, renumberAll, renumber_erase s, renumberAll_erase rest]

end

/-- In particular a body that was just read is the same under all numbers. -/
theorem renumberAll_of_areFresh {ss : List Stmt} (h : areFresh ss = true) : renumberAll ρ ss = ss := by
  rw [← eraseAll_of_areFresh ss h, renumberAll_erase]

end Stmt

def MethodDecl.renumber (d : MethodDecl) : MethodDecl :=
  { d with body := Stmt.renumberAll ρ d.body, resolved := d.resolved.map ρ.method }

@[simp] theorem MethodDecl.renumber_same (d : MethodDecl) : d.renumber .same = d := by
  simp [renumber, Stmt.renumberAll_same, -Stmt.renumberAll_eq]

def Member.renumber : Member → Member
  | field d => field d
  | method d => method (d.renumber ρ)

/-- A declaration under new numbers. Besides the bodies, its own number and those of its methods change. -/
def ClassDecl.renumber (d : ClassDecl) : ClassDecl :=
  { d with members := d.members.map (Member.renumber ρ), resolved := d.resolved.map ρ.cls }

def MainBlock.renumber (m : MainBlock) : MainBlock :=
  { m with body := Stmt.renumberAll ρ m.body }

@[simp] theorem MainBlock.renumber_same (m : MainBlock) : m.renumber .same = m := by
  simp [renumber, Stmt.renumberAll_same, -Stmt.renumberAll_eq]

end TLang
