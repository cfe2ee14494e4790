import TLang.Proofs.DispatchTables
import TLang.Proofs.Containment
import TLang.Proofs.Outcome
import TLang.Proofs.Typing.Nodes

/-! Calls of methods, from the tree to the assembly. The slot that a dispatched call loads holds, in
the table of whatever class the object has, the method declared nearest to that class; a call of a
parent's method names a method of a proper ancestor. -/
namespace TLang

open Registry Emit

variable {ending : List Line} {receiver : Receiver Expr} {slot : Option Nat} {c : ClassId} {name : String}

namespace Emit

variable {α β : Type} {f : α → Emit β}

/-- Where the step succeeds, its last lines are the given ones. -/
def EndsWith (x : Emit α) (ending : List Line) : Prop :=
  ∀ s a t ls, x s = ⟨(.ok a, t), ls⟩ → ending <:+ ls

theorem EndsWith.instrs (is : List Instr) : EndsWith (instrs is) (is.map .instr) := by
  intro s a t ls h
  cases h
  exact List.suffix_rfl

theorem EndsWith.bind {x : Emit α} (h : ∀ a, EndsWith (f a) ending) : EndsWith (x >>= f) ending := by
  intro s b t ls hBind
  obtain ⟨a, s', first, second, -, hf, rfl⟩ := bind_apply_eq_ok_iff.mp hBind
  exact (h a s' b t second hf).trans (List.suffix_append _ _)

theorem EndsWith.require {refusal : Refusal} {a : α} (h : EndsWith (f a) ending) :
    EndsWith (Emit.require refusal (some a) >>= f) ending := h

theorem EndsWith.bind_instrs {x : Emit Unit} (h : EndsWith x ending) (is : List Instr) :
    EndsWith (x >>= fun _ => Emit.instrs is) (ending ++ is.map .instr) := by
  intro s b t ls hBind
  obtain ⟨a, s', first, second, hx, hInstrs, rfl⟩ := bind_apply_eq_ok_iff.mp hBind
  cases hInstrs
  obtain ⟨front, rfl⟩ := h s a t first hx
  exact ⟨front, (List.append_assoc _ _ _).symm⟩

end Emit

namespace Expr

/-- The end of a call through a slot of the table of the object on top of the stack. -/
def dispatchedCall (slot args : Nat) : List Line :=
  [.instr (.mov (.mem 0 .esp) (.reg .eax)), .instr (.mov (.mem 0 .eax) (.reg .eax)),
    .instr (.mov (.mem (slotOffset slot) .eax) (.reg .eax)), .instr (.callReg .eax),
    .instr (.drop (args + 1)), .instr (.push (.reg .eax))]

/-- The end of a call of the routine with the given label. -/
def boundCall (label : String) (args : Nat) : List Line :=
  [.instr (.call (.symbol label)), .instr (.drop (args + 1)), .instr (.push (.reg .eax))]

variable (types : Registry) {mark : Mark} {name : String} {args : List Expr} {m : MethodId}

theorem endsWith_dispatchedCall (hReceiver : receiver ≠ .super) (slot : Nat) :
    EndsWith ((call mark receiver name args (some m) (some slot)).code types)
      (dispatchedCall slot args.length) := by
  refine .bind fun _ => .require <| .bind fun _ => ?_
  have hDispatch : EndsWith (codeReceiver types mark.line m (some slot) receiver)
      ((dispatchedCall slot args.length).take 4) := by
    cases receiver with
    | super => exact absurd rfl hReceiver
    | implicit => exact .bind fun _ => .require (.instrs _)
    | object e => exact .bind fun _ => .bind fun _ => .require (.instrs _)
  exact hDispatch.bind_instrs _

theorem endsWith_boundCall : EndsWith ((call mark .super name args (some m) slot).code types)
      (boundCall (types.methodInfo m).label args.length) := by
  refine .bind fun _ => .require <| .bind fun _ => ?_
  have hCall : EndsWith (codeReceiver types mark.line m slot .super)
      ((boundCall (types.methodInfo m).label args.length).take 1) := .bind fun _ => .instrs _
  exact hCall.bind_instrs _

end Expr

/-- The class by which a call is typed, inside a body of class `within`. -/
def Receiver.staticClass (within : Option ClassId) : Receiver Expr → Option ClassId
  | .implicit | .super => within
  | .object e =>
    match e.ty with
    | .ofClass c => some c
    | _ => none

/-- The code stands among the lines and ends as given. -/
def Emit.StandsIn (lines : List Line) (x : Emit Unit) (ending : List Line) : Prop :=
  ∃ s t before inner after, x s = ⟨(.ok (), t), inner⟩ ∧ lines = before ++ inner ++ after ∧
    ending <:+ inner

namespace Program

variable {p : Program}

/-- The code of a node stands in the code of the program. -/
theorem HasNode.standsIn {types : Registry} {s t : EmitState} {lines : List Line}
    (hCode : p.code types s = ⟨(.ok (), t), lines⟩) {within : Option ClassId} {e : Expr}
    (he : p.HasNode within e) (hEnds : EndsWith (e.code types) ending) :
    StandsIn lines (e.code types) ending := by
  obtain ⟨stmt, hStmt, root, hRoot, hPart⟩ := he
  have hContains := ((p.contains_statement types hStmt.mem_statements).trans
    (Stmt.contains_operand types hRoot)).trans (Expr.contains_part types hPart)
  obtain ⟨s', ⟨⟩, t', before, inner, after, hInner, hLines⟩ := hContains _ _ _ _ hCode
  exact ⟨s', t', before, inner, after, hInner, hLines, hEnds _ _ _ _ hInner⟩

end Program

namespace Registry

variable {names : String → Prop} {r : Registry}

/-- The word behind a slot of a class, in the table of any of its subclasses. -/
theorem Settled.getElem?_tableWords (h : r.Settled names) {d : ClassId} {signature : String} {slot : Nat}
    (hSlot : r.vmtSlot c signature = some slot) (hSub : r.isSubclass d c = true) :
    ∃ m, r.nearestVirtual d signature = some m ∧
      ((r.classInfo d).tableWords r)[slot + 2]? = some (some (.symbol (r.methodInfo m).label)) := by
  obtain ⟨m, hNearest, hTable⟩ := h.getElem?_vmt_of_vmtSlot hSlot hSub
  refine ⟨m, hNearest, ?_⟩
  rw [ClassInfo.tableWords, List.getElem?_cons_succ, List.getElem?_cons_succ, List.getElem?_map, hTable]
  rfl

/-- A method found from the parent of a class on is one of a proper ancestor. -/
theorem Settled.of_resolveMethod_parent (h : r.Settled names) {parent : ClassId} {args : List Ty}
    {m : MethodId} {exact : Bool} (hParent : r.parent c = some parent)
    (hResolve : r.resolveMethod parent name .method args = some ⟨m, exact⟩) :
    (∃ a ∈ r.ancestors c, m ∈ (r.classInfo a).methods) ∧ m ∉ (r.classInfo c).methods := by
  obtain ⟨a, ha, hMem, -, -⟩ := h.coherent.indexed.resolveMethod_eq_some hResolve
  have hChain : a ∈ r.chain parent := ha
  refine ⟨⟨a, h.lineal.acyclic.ancestors_of_parent hParent ▸ hChain, hMem⟩, ?_⟩
  intro hOwn
  have hSame : a = c := ((h.coherent a).routine m hMem).owner.symm.trans
    ((h.coherent c).routine m hOwn).owner
  exact h.lineal.acyclic _ _ hParent (mem_chain_iff.mp (hSame ▸ hChain))

end Registry

/-- What a dispatched call is typed and resolved as. -/
theorem Denotes.dispatched {Γ : Env} {select : Selection} {mark : Mark} {args : List Expr}
    {method : Option MethodId} {d : Meaning}
    (h : Denotes Γ select (.call mark receiver name args method slot) d) (hReceiver : receiver ≠ .super) :
    ∃ c m k, receiver.staticClass Γ.owner? = some c ∧ method = some m ∧ slot = some k ∧
      Γ.types.vmtSlot c (Γ.types.methodInfo m).signature = some k := by
  cases h with
  | @call _ _ _ _ c m _ _ _ _ hLooksIn _ _ hSlot =>
    cases receiver with
    | super => exact absurd rfl hReceiver
    | implicit =>
      obtain ⟨k, rfl, hk⟩ := hSlot
      exact ⟨c, m, k, hLooksIn, rfl, rfl, hk⟩
    | object e =>
      obtain ⟨k, rfl, hk⟩ := hSlot
      have hTy : e.ty = .ofClass c := hLooksIn
      exact ⟨c, m, k, by rw [Receiver.staticClass, hTy], rfl, rfl, hk⟩

namespace Program

variable {names : String → Prop} {p : Program} {Γ : Env} {s t : EmitState} {lines : List Line}
  {within : Option ClassId} {mark : Mark} {name : String} {args : List Expr}
  {method : Option MethodId} {slot : Option Nat}

/-- A dispatched call of a well-typed program, in its code. -/
theorem Typed.dispatched_call (hTyped : p.Typed Γ (Γ.Selects names)) (hΓ : Γ.WellFormed names)
    (hCode : p.code Γ.types s = ⟨(.ok (), t), lines⟩)
    (hNode : p.HasNode within (.call mark receiver name args method slot)) (hReceiver : receiver ≠ .super) :
    ∃ c m k, receiver.staticClass within = some c ∧ method = some m ∧ slot = some k ∧
      StandsIn lines ((Expr.call mark receiver name args method slot).code Γ.types)
        (Expr.dispatchedCall k args.length) ∧
      ∀ d, Γ.types.isSubclass d c = true → ∃ m',
        Γ.types.nearestVirtual d (Γ.types.methodInfo m).signature = some m' ∧
        Line.wordBehind lines (.symbol (Γ.types.classInfo d).vmtLabel) (slotOffset k) =
          some (some (.symbol (Γ.types.methodInfo m').label)) := by
  obtain ⟨position, meaning, -, rfl, hDenotes⟩ := hTyped.node hΓ hNode
  obtain ⟨c, m, k, hClass, rfl, rfl, hSlot⟩ := hDenotes.dispatched hReceiver
  refine ⟨c, m, k, hClass, rfl, rfl,
    hNode.standsIn hCode (Expr.endsWith_dispatchedCall Γ.types hReceiver k), ?_⟩
  intro d hSub
  obtain ⟨m', hNearest, hWord⟩ := hΓ.settled.getElem?_tableWords hSlot hSub
  have hd := hΓ.settled.lineal.acyclic.lt_of_mem_chain (isSubclass_iff.mp hSub)
    (lt_of_vmtSlot hSlot)
  refine ⟨m', hNearest, ?_⟩
  rw [slotOffset, wordBehind_code hΓ.settled hCode hd (List.getElem?_eq_some_iff.mp hWord).1, hWord]

/-- A call of a parent's method in a well-typed program, in its code. -/
theorem Typed.bound_call (hTyped : p.Typed Γ (Γ.Selects names)) (hΓ : Γ.WellFormed names)
    (hCode : p.code Γ.types s = ⟨(.ok (), t), lines⟩)
    (hNode : p.HasNode within (.call mark .super name args method slot)) :
    ∃ c parent m exact, within = some c ∧ Γ.types.parent c = some parent ∧ method = some m ∧
      StandsIn lines ((Expr.call mark .super name args method slot).code Γ.types)
        (Expr.boundCall (Γ.types.methodInfo m).label args.length) ∧
      Γ.types.resolveMethod parent name .method (args.map fun a => a.unwidened.ty) = some ⟨m, exact⟩ ∧
      (∃ a ∈ Γ.types.ancestors c, m ∈ (Γ.types.classInfo a).methods) ∧
      m ∉ (Γ.types.classInfo c).methods := by
  obtain ⟨position, meaning, -, rfl, hDenotes⟩ := hTyped.node hΓ hNode
  cases hDenotes with
  | @call _ _ _ _ parent m _ _ _ _ hLooksIn hSelect _ _ =>
    obtain ⟨c, hOwner, hParent⟩ := hLooksIn
    obtain ⟨-, exact, hResolve, -⟩ := hSelect
    exact ⟨c, parent, m, exact, hOwner, hParent, rfl,
      hNode.standsIn hCode (Expr.endsWith_boundCall Γ.types), hResolve,
      hΓ.settled.of_resolveMethod_parent hParent hResolve⟩

/-- Dispatch from end to end. A call on an object or on the current object loads the slot it was
given when it was typed, and in the table of every class the object may have, the word at that offset
is the label of the method of this signature declared nearest to the class. A call of a parent's
method is bound to the method that is found from the parent on, and that method belongs to a proper
ancestor. -/
theorem compile_dispatch (options : Options) (p : Program) (hFresh : p.isFresh = true)
    (result : Compilation) (hOk : p.compile options = .ok result) :
    ∃ lines, result.assembly = Line.fileText lines ∧ (∀ within mark receiver name args method slot,
        p.analyzed.HasNode within (.call mark receiver name args method slot) →
        receiver ≠ .super →
        ∃ c m k, receiver.staticClass within = some c ∧ method = some m ∧ slot = some k ∧
          StandsIn lines ((Expr.call mark receiver name args method slot).code p.env.types)
            (Expr.dispatchedCall k args.length) ∧
          ∀ d, p.env.types.isSubclass d c = true → ∃ m',
            p.env.types.nearestVirtual d (p.env.types.methodInfo m).signature = some m' ∧
            Line.wordBehind lines (.symbol (p.env.types.classInfo d).vmtLabel) (slotOffset k) =
              some (some (.symbol (p.env.types.methodInfo m').label))) ∧
      (∀ within mark name args method slot,
        p.analyzed.HasNode within (.call mark .super name args method slot) →
        ∃ c parent m exact, within = some c ∧ p.env.types.parent c = some parent ∧ method = some m ∧
          StandsIn lines ((Expr.call mark .super name args method slot).code p.env.types)
            (Expr.boundCall (p.env.types.methodInfo m).label args.length) ∧
          p.env.types.resolveMethod parent name .method (args.map fun a => a.unwidened.ty) =
            some ⟨m, exact⟩ ∧
          (∃ a ∈ p.env.types.ancestors c, m ∈ (p.env.types.classInfo a).methods) ∧
          m ∉ (p.env.types.classInfo c).methods) := by
  obtain ⟨-, t, lines, hCode, hAssembly⟩ := compile_eq_ok hOk
  obtain ⟨hΓ, hTyped, -⟩ := typed_of_compile_eq_ok hFresh trivial (.trivial p) hOk
  refine ⟨lines, hAssembly, ?_, ?_⟩
  · exact fun _ _ _ _ _ _ _ hNode hReceiver => hTyped.dispatched_call hΓ hCode hNode hReceiver
  · exact fun _ _ _ _ _ _ hNode => hTyped.bound_call hΓ hCode hNode

/-- A class that overrides a method and calls the one it overrides. -/
def overriding : Program where
  classes := [
    { line := 1, name := "A", members := [.method {
        line := 2, name := "f", returns := some .int
        body := [.ret 3 (some (.int 3 1)) none] }] },
    { line := 5, name := "B", parent := some "A", members := [.method {
        line := 6, name := "f", returns := some .int
        body := [.ret 7 (some (.call 7 .super "f" [] none none)) none] }] }]
  main := ⟨9, [
    .declare 10 (.named "A") ["a"],
    .expr 11 (.assign 11 (.var 11 "a" none) (.new 11 "B" [] none none)),
    .print 12 (.call 12 (.object (.var 12 "a" none)) "f" [] none none)]⟩

/-- The node calls `m` through `slot` of an object that has class `c`. -/
def isCallOn (c : ClassId) (m : MethodId) (slot : Nat) : Expr → Bool
  | .call _ (.object object) _ _ (some m') (some slot') =>
    m' == m && slot' == slot && object.ty == .ofClass c
  | _ => false

/-- The call in the main block, typed by the class of its variable. -/
theorem exists_call_overriding : ∃ mark object name args,
    overriding.analyzed.HasNode none (.call mark (.object object) name args (some ⟨3⟩) (some 1)) ∧
      object.ty = .ofClass ⟨1⟩ := by
  have hAny : ((Stmt.partsOfAll overriding.analyzed.main.body).any fun s =>
      s.operands.any (isCallOn ⟨1⟩ ⟨3⟩ 1)) = true := by decide +kernel
  obtain ⟨s, hs, hAny⟩ := List.any_eq_true.mp hAny
  obtain ⟨e, he, hCall⟩ := List.any_eq_true.mp hAny
  unfold isCallOn at hCall
  split at hCall
  · rename_i mark object name args m slot
    obtain ⟨⟨rfl, rfl⟩, hTy⟩ : (m = ⟨3⟩ ∧ slot = 1) ∧ object.ty = .ofClass ⟨1⟩ := by
      simpa using hCall
    exact ⟨mark, object, name, args, ⟨s, hs, _, he, .refl _⟩, hTy⟩
  · cases hCall

theorem compile_dispatch_overriding : overriding.isFresh = true ∧
    ∃ result lines, overriding.compile {} = .ok result ∧ result.assembly = Line.fileText lines ∧
      Line.wordBehind lines (.symbol "B$VMT") (slotOffset 1) = some (some (.symbol "B$f")) := by
  have hFresh : overriding.isFresh = true := by decide
  refine ⟨hFresh, ?_⟩
  cases hOk : overriding.compile {} with
  | error error =>
    have hSome : (overriding.compile {}).toOption.isSome = true := by decide +kernel
    rw [hOk] at hSome
    cases hSome
  | ok result =>
    obtain ⟨lines, hAssembly, hDispatch, -⟩ := compile_dispatch {} overriding hFresh result hOk
    obtain ⟨mark, object, name, args, hNode, hTy⟩ := exists_call_overriding
    obtain ⟨c, m, k, hClass, hm, hk, -, hWord⟩ := hDispatch _ _ _ _ _ _ _ hNode nofun
    rw [Receiver.staticClass, hTy] at hClass
    cases hClass
    cases hm
    cases hk
    obtain ⟨m', hNearest, hWord⟩ := hWord ⟨2⟩ (by decide +kernel)
    have hLabel : (overriding.env.types.nearestVirtual ⟨2⟩
        (overriding.env.types.methodInfo ⟨3⟩).signature).map
          (fun m => (overriding.env.types.methodInfo m).label) = some "B$f" := by decide +kernel
    have hTable : (overriding.env.types.classInfo ⟨2⟩).vmtLabel = "B$VMT" := by decide +kernel
    rw [hNearest, Option.map_some, Option.some.injEq] at hLabel
    rw [hTable, hLabel] at hWord
    exact ⟨result, lines, rfl, hAssembly, hWord⟩

end Program
end TLang
