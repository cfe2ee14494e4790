import TLang.Analysis.Expr
import TLang.Proofs.Fresh
import TLang.Proofs.Parts

/-! How typing goes through an expression: it types the operands of a node, in an order of its own, and
then the node with the typed operands in their place. -/
namespace TLang

variable {o e : Expr}

/-- The receiver with another object. -/
def Receiver.map {ε : Type} (f : ε → ε) : Receiver ε → Receiver ε
  | implicit => implicit
  | super => super
  | object e => object (f e)

@[simp] theorem Receiver.operands_map (f : Expr → Expr) (receiver : Receiver Expr) :
    (receiver.map f).operands = receiver.operands.map f := by
  cases receiver <;> rfl

namespace Expr

/-- What holds of a node if it holds of its operands holds of every expression. -/
@[elab_as_elim] theorem byOperands {P : Expr → Prop}
    (node : ∀ e : Expr, (∀ o ∈ e.operands, P o) → P e) (e : Expr) : P e :=
  node e fun o _ => byOperands node o
termination_by sizeOf e
decreasing_by exact sizeOf_lt_of_mem_operands (by assumption)

/-- The node with other operands. -/
def mapOperands (f : Expr → Expr) : Expr → Expr
  | binary mark op left right => binary mark op (f left) (f right)
  | unary mark op e => unary mark op (f e)
  | assign mark target value => assign mark (f target) (f value)
  | field mark e name offset => field mark (f e) name offset
  | call mark receiver name args method slot =>
    call mark (receiver.map f) name (args.map f) method slot
  | new mark className args cls constructor => new mark className (args.map f) cls constructor
  | cast mark className e cls => cast mark className (f e) cls
  | deref mark e => deref mark (f e)
  | convert mark e => convert mark (f e)
  | e => e

/-- The operands of a node in the order in which they are typed. -/
def inTypingOrder : Expr → List Expr
  | call _ receiver _ args _ _ => args ++ receiver.operands
  | e => e.operands

/-- Type a node whose operands are typed. -/
def typeNode (env : Env) : Expr → Checked Expr
  | int mark value => pure (int ⟨mark.line, .int⟩ value)
  | null mark => pure (null ⟨mark.line, .null⟩)
  | this mark => env.analyzeThis mark.line
  | var mark name _ => env.analyzeVar mark.line name
  | binary mark op left right => env.analyzeBinary mark.line op left right
  | unary mark op e => env.analyzeUnary mark.line op e
  | assign mark target value => env.analyzeAssign mark.line target value
  | field mark e name _ => env.analyzeField mark.line e name
  | call mark receiver name args _ _ => env.analyzeCall mark.line receiver name args
  | new mark className args _ _ => env.analyzeNew mark.line className args
  | cast mark className e _ => env.analyzeCast mark.line className e
  | deref _ e => pure e
  | convert mark e => pure (e.widen (if mark.ty = .untyped then e.ty else mark.ty))

theorem mem_inTypingOrder : o ∈ e.inTypingOrder ↔ o ∈ e.operands := by
  cases e with
  | call mark receiver name args =>
    rw [inTypingOrder, operands, List.mem_append, List.mem_append]
    exact or_comm
  | int | null | this | var | binary | unary | assign | field | new | cast | deref | convert => rfl

variable (f : Expr → Expr)

@[simp] theorem operands_mapOperands (e : Expr) : (e.mapOperands f).operands = e.operands.map f := by
  cases e <;> simp [mapOperands, operands]

theorem mapOperands_eq_self {f : Expr → Expr} (h : ∀ o ∈ e.operands, f o = o) : e.mapOperands f = e := by
  have hArgs : ∀ args : List Expr, (∀ o ∈ args, f o = o) → args.map f = args :=
    fun args hArgs => (List.map_congr_left hArgs).trans args.map_id
  cases e with
  | int | null | this | var => rfl
  | binary | unary | assign | field | cast | deref | convert =>
    simp only [operands, List.forall_mem_cons] at h
    simp only [mapOperands, h]
  | new mark className args => rw [mapOperands, hArgs args h]
  | call mark receiver name args =>
    rw [operands, List.forall_mem_append] at h
    rw [mapOperands, hArgs args h.2]
    cases receiver with
    | implicit | super => rfl
    | object e => rw [Receiver.map, h.1 e (List.mem_singleton.mpr rfl)]

@[simp] theorem inTypingOrder_mapOperands (e : Expr) :
    (e.mapOperands f).inTypingOrder = e.inTypingOrder.map f := by
  cases e <;> simp [mapOperands, inTypingOrder, operands]

variable (env : Env)

theorem value_analyzeArgs (args : List Expr) :
    (analyzeArgs env args).value = args.map fun arg => (arg.analyze env).value := by
  induction args with
  | nil => rfl
  | cons arg rest ih => exact congrArg ((arg.analyze env).value :: ·) ih

theorem log_analyzeArgs (args : List Expr) :
    (analyzeArgs env args).log = args.flatMap fun arg => (arg.analyze env).log := by
  induction args with
  | nil => rfl
  | cons arg rest ih => simp [analyzeArgs, ih]

variable (receiver : Receiver Expr)

theorem value_analyzeReceiver :
    (analyzeReceiver env receiver).value = receiver.map fun e => (e.analyze env).value := by
  cases receiver <;> rfl

theorem log_analyzeReceiver :
    (analyzeReceiver env receiver).log = receiver.operands.flatMap fun e => (e.analyze env).log := by
  cases receiver with
  | implicit | super => rfl
  | object e => simp [analyzeReceiver, Receiver.operands]

/-- The node with its operands typed. -/
def withTyped (e : Expr) : Expr := e.mapOperands fun o => (o.analyze env).value

theorem value_analyze (e : Expr) : (e.analyze env).value = ((e.withTyped env).typeNode env).value := by
  cases e <;> simp [analyze, withTyped, mapOperands, typeNode, value_analyzeArgs, value_analyzeReceiver]

/-- Reports about operands come first, in the order in which these are typed. -/
theorem log_analyze (e : Expr) : (e.analyze env).log =
    (e.inTypingOrder.flatMap fun o => (o.analyze env).log) ++ ((e.withTyped env).typeNode env).log := by
  cases e <;> simp [analyze, withTyped, mapOperands, typeNode, inTypingOrder, operands,
    value_analyzeArgs, value_analyzeReceiver, log_analyzeArgs, log_analyzeReceiver]

/-- The node can stand in a source. Reads and widenings are put in by typing. -/
def isSourceNode : Expr → Bool
  | deref _ _ | convert _ _ => false
  | _ => true

theorem isSourceNode_mapOperands (e : Expr) : (e.mapOperands f).isSourceNode = e.isSourceNode := by
  cases e <;> rfl

def isVar : Expr → Bool
  | var _ _ _ => true
  | _ => false

@[simp] theorem isVar_mapOperands (e : Expr) : (e.mapOperands f).isVar = e.isVar := by
  cases e <;> rfl

theorem areFresh_iff (es : List Expr) : areFresh es = true ↔ ∀ e ∈ es, e.isFresh = true := by
  induction es with
  | nil => simp [areFresh]
  | cons e rest ih => simp [areFresh, ih]

theorem isFreshReceiver_iff :
    isFreshReceiver receiver = true ↔ ∀ e ∈ receiver.operands, e.isFresh = true := by
  cases receiver <;> simp [isFreshReceiver, Receiver.operands]

theorem isSourceNode_of_isFresh (h : e.isFresh = true) : e.isSourceNode = true := by
  cases e with
  | deref | convert => exact h
  | int | null | this | var | binary | unary | assign | field | call | new | cast => rfl

theorem isFresh_operand (h : e.isFresh = true) (ho : o ∈ e.operands) : o.isFresh = true := by
  cases e with
  | int | null | this | var => cases ho
  | deref | convert => cases h
  | binary | unary | assign | field | cast =>
    simp only [isFresh, Bool.and_eq_true] at h
    simp only [operands, List.mem_cons, List.not_mem_nil, or_false] at ho
    grind
  | call | new =>
    simp only [isFresh, Bool.and_eq_true, areFresh_iff, isFreshReceiver_iff] at h
    grind [operands]

end Expr
end TLang
