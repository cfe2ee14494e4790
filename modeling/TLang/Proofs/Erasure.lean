import TLang.Proofs.Operands

/-! Erasing takes everything out of a tree that analysis may have put into it: types, storage, targets of
calls, and the nodes that read and widen. -/
namespace TLang

def Mark.erase (m : Mark) : Mark := ⟨m.line, .untyped⟩

mutual

/-- An expression as it was read. -/
def Expr.erase : Expr → Expr
  | .int mark value => .int mark.erase value
  | .null mark => .null mark.erase
  | .this mark => .this mark.erase
  | .var mark name _ => .var mark.erase name none
  | .binary mark op left right => .binary mark.erase op left.erase right.erase
  | .unary mark op operand => .unary mark.erase op operand.erase
  | .assign mark target value => .assign mark.erase target.erase value.erase
  | .field mark object name _ => .field mark.erase object.erase name none
  | .call mark receiver name args _ _ =>
    .call mark.erase (Expr.eraseReceiver receiver) name (Expr.eraseAll args) none none
  | .new mark className args _ _ => .new mark.erase className (Expr.eraseAll args) none none
  | .cast mark className operand _ => .cast mark.erase className operand.erase none
  | .deref _ address => address.erase
  | .convert _ operand => operand.erase

def Expr.eraseReceiver : Receiver Expr → Receiver Expr
  | .implicit => .implicit
  | .super => .super
  | .object e => .object e.erase

def Expr.eraseAll : List Expr → List Expr
  | [] => []
  | e :: rest => e.erase :: Expr.eraseAll rest

end

namespace Expr

@[simp] theorem eraseAll_eq (es : List Expr) : eraseAll es = es.map erase := by
  induction es with
  | nil => rfl
  | cons e rest ih => rw [eraseAll, ih, List.map_cons]

@[simp] theorem erase_widen (e : Expr) (ty : Ty) : (e.widen ty).erase = e.erase := by
  rw [widen, erase]

@[simp] theorem erase_withTy (e : Expr) (ty : Ty) : (e.withTy ty).erase = e.erase := by
  cases e <;> rfl

theorem Mark.erase_of_untyped {m : Mark} (h : m.ty = .untyped) : m.erase = m := by
  cases m
  exact congrArg _ h.symm

mutual

/-- From a tree that was just read there is nothing to erase. -/
theorem erase_of_isFresh : (e : Expr) → e.isFresh = true → e.erase = e
  | .int mark _, h | .null mark, h | .this mark, h => by
    simp only [isFresh, decide_eq_true_eq] at h
    simp [erase, Mark.erase_of_untyped h]
  | .var mark _ storage, h => by
    simp only [isFresh, Bool.and_eq_true, decide_eq_true_eq, Option.isNone_iff_eq_none] at h
    simp [erase, Mark.erase_of_untyped h.1, h.2]
  | .binary mark _ left right, h => by
    simp only [isFresh, Bool.and_eq_true, decide_eq_true_eq] at h
    simp [erase, Mark.erase_of_untyped h.1.1, erase_of_isFresh left h.1.2, erase_of_isFresh right h.2]
  | .unary mark _ operand, h => by
    simp only [isFresh, Bool.and_eq_true, decide_eq_true_eq] at h
    simp [erase, Mark.erase_of_untyped h.1, erase_of_isFresh operand h.2]
  | .assign mark target value, h => by
    simp only [isFresh, Bool.and_eq_true, decide_eq_true_eq] at h
    simp [erase, Mark.erase_of_untyped h.1.1, erase_of_isFresh target h.1.2, erase_of_isFresh value h.2]
  | .field mark object _ offset, h => by
    simp only [isFresh, Bool.and_eq_true, decide_eq_true_eq, Option.isNone_iff_eq_none] at h
    simp [erase, Mark.erase_of_untyped h.1.1, erase_of_isFresh object h.1.2, h.2]
  | .call mark receiver _ args method slot, h => by
    simp only [isFresh, Bool.and_eq_true, decide_eq_true_eq, Option.isNone_iff_eq_none] at h
    obtain ⟨⟨⟨⟨hMark, hReceiver⟩, hArgs⟩, hMethod⟩, hSlot⟩ := h
    rw [erase, Mark.erase_of_untyped hMark, eraseReceiver_of_isFresh receiver hReceiver,
      eraseAll_of_areFresh args hArgs, hMethod, hSlot]
  | .new mark _ args cls constructor, h => by
    simp only [isFresh, Bool.and_eq_true, decide_eq_true_eq, Option.isNone_iff_eq_none] at h
    rw [erase, Mark.erase_of_untyped h.1.1.1, eraseAll_of_areFresh args h.1.1.2, h.1.2, h.2]
  | .cast mark _ operand cls, h => by
    simp only [isFresh, Bool.and_eq_true, decide_eq_true_eq, Option.isNone_iff_eq_none] at h
    simp [erase, Mark.erase_of_untyped h.1.1, erase_of_isFresh operand h.1.2, h.2]
  | .deref _ _, h | .convert _ _, h => by cases h

theorem eraseReceiver_of_isFresh : (receiver : Receiver Expr) →
    isFreshReceiver receiver = true → eraseReceiver receiver = receiver
  | .implicit, _ | .super, _ => rfl
  | .object e, h => congrArg Receiver.object (erase_of_isFresh e h)

theorem eraseAll_of_areFresh : (es : List Expr) → areFresh es = true → eraseAll es = es
  | [], _ => rfl
  | e :: rest, h => by
    rw [areFresh, Bool.and_eq_true] at h
    rw [eraseAll, erase_of_isFresh e h.1, eraseAll_of_areFresh rest h.2]

end

end Expr

/-- Of a method that takes its arguments with some of them widened, there are as many parameters. -/
theorem Registry.length_params_of_widened {r : Registry} {c : ClassId} {name : String}
    {kind : MethodKind} {args : List Ty} {m : MethodId}
    (h : r.resolveMethod c name kind args = some ⟨m, false⟩) :
    (r.methodInfo m).params.length = args.length := by
  rw [resolveMethod] at h
  split at h
  · cases h
  · obtain ⟨m', hFound, hEq⟩ := Option.map_eq_some_iff.mp h
    cases hEq
    obtain ⟨c', -, hFind⟩ := List.exists_of_findSome?_eq_some hFound
    have hAccepts := List.find?_some hFind
    simp only [accepts, Bool.and_eq_true, decide_eq_true_eq] at hAccepts
    exact hAccepts.1.2

mutual

/-- A statement as it was read. -/
def Stmt.erase : Stmt → Stmt
  | .expr line e => .expr line e.erase
  | .declare line type names => .declare line type names
  | .print line e => .print line e.erase
  | .block line body => .block line (Stmt.eraseAll body)
  | .branch line cond thenBranch elseBranch =>
    .branch line cond.erase thenBranch.erase (Stmt.eraseElse elseBranch)
  | .loop line cond body => .loop line cond.erase body.erase
  | .ret line value _ => .ret line (value.map Expr.erase) none
  | .breakLoop line => .breakLoop line
  | .continueLoop line => .continueLoop line
  | .delete line target => .delete line target.erase
  | .construct line delegate args _ => .construct line delegate (args.map Expr.erase) none
  | .empty line => .empty line

def Stmt.eraseElse : Option Stmt → Option Stmt
  | none => none
  | some s => some s.erase

def Stmt.eraseAll : List Stmt → List Stmt
  | [] => []
  | s :: rest => s.erase :: Stmt.eraseAll rest

end

namespace Stmt

mutual

theorem erase_of_isFresh : (s : Stmt) → s.isFresh = true → s.erase = s
  | .expr _ e, h | .print _ e, h | .delete _ e, h => by rw [erase, e.erase_of_isFresh h]
  | .declare _ _ _, _ | .breakLoop _, _ | .continueLoop _, _ | .empty _, _ => rfl
  | .block _ body, h => by rw [erase, eraseAll_of_areFresh body h]
  | .branch _ cond thenBranch elseBranch, h => by
    simp only [isFresh, Bool.and_eq_true] at h
    rw [erase, cond.erase_of_isFresh h.1.1, erase_of_isFresh thenBranch h.1.2,
      eraseElse_of_isFresh elseBranch h.2]
  | .loop _ cond body, h => by
    simp only [isFresh, Bool.and_eq_true] at h
    rw [erase, cond.erase_of_isFresh h.1, erase_of_isFresh body h.2]
  | .ret _ none exitLabel, h => by
    simp only [isFresh, Bool.and_eq_true, Option.isNone_iff_eq_none] at h
    rw [erase, h.2, Option.map_none]
  | .ret _ (some e) exitLabel, h => by
    simp only [isFresh, Bool.and_eq_true, Option.isNone_iff_eq_none] at h
    rw [erase, h.2, Option.map_some, e.erase_of_isFresh h.1]
  | .construct _ _ args constructor, h => by
    simp only [isFresh, Bool.and_eq_true, Option.isNone_iff_eq_none] at h
    rw [erase, ← Expr.eraseAll_eq, Expr.eraseAll_of_areFresh args h.1, h.2]

theorem eraseElse_of_isFresh : (s : Option Stmt) → isFreshElse s = true → eraseElse s = s
  | none, _ => rfl
  | some s, h => congrArg some (erase_of_isFresh s h)

theorem eraseAll_of_areFresh : (ss : List Stmt) → areFresh ss = true → eraseAll ss = ss
  | [], _ => rfl
  | s :: rest, h => by
    rw [areFresh, Bool.and_eq_true] at h
    rw [eraseAll, erase_of_isFresh s h.1, eraseAll_of_areFresh rest h.2]

end

end Stmt

def MethodDecl.erase (d : MethodDecl) : MethodDecl :=
  { d with body := Stmt.eraseAll d.body, owner := none, resolved := none }

def Member.erase : Member → Member
  | field d => field { d with owner := none }
  | method d => method d.erase

def ClassDecl.erase (d : ClassDecl) : ClassDecl :=
  { d with members := d.members.map Member.erase, resolved := none }

theorem Member.erase_of_isFresh {member : Member} (h : member.isFresh = true) :
    member.erase = member := by
  cases member with
  | field d =>
    rw [isFresh, Option.isNone_iff_eq_none] at h
    rw [erase, ← h]
  | method d =>
    simp only [isFresh, MethodDecl.isFresh, Bool.and_eq_true, Option.isNone_iff_eq_none] at h
    rw [erase, MethodDecl.erase, Stmt.eraseAll_of_areFresh d.body h.2, ← h.1.1.1]
    congr 1
    cases d
    simp_all

theorem ClassDecl.erase_of_isFresh {d : ClassDecl} (h : d.isFresh = true) : d.erase = d := by
  simp only [isFresh, Bool.and_eq_true, Option.isNone_iff_eq_none, List.all_eq_true] at h
  have hMembers : d.members.map Member.erase = d.members.map id :=
    List.map_congr_left fun member hMember => Member.erase_of_isFresh (h.2 member hMember)
  rw [erase, hMembers, List.map_id, ← h.1]

end TLang
