import TLang.Proofs.Outcome
import TLang.Proofs.Registry.Signatures
import TLang.Proofs.Typing.Nodes

/-! Soundness of elaboration. In a program that compiles, every cell is read or written by a node of
its own and every call has exactly the arguments that its routine expects, so nothing about types is
left to code generation. -/
namespace TLang

open Registry List

variable {m : MethodId} {a c : ClassId} {kind : MethodKind} {name : String} {Γ : Env} {select : Selection}
  {e : Expr} {d : Meaning} {s : Stmt}

namespace Env

variable {env : Env}

/-- A routine that is declared where a call looks for it, has the kind and the name of the call, and
takes exactly arguments of the types given. -/
def Matches (Γ : Env) : Selection := fun c kind name args m =>
  (∃ a ∈ Γ.types.candidates c kind, m ∈ (Γ.types.classInfo a).methods) ∧
    (Γ.types.methodInfo m).kind = kind ∧ (Γ.types.methodInfo m).name = name ∧
    args.map Expr.ty = (Γ.types.methodInfo m).params.types

/-- Widened arguments have the types of the parameters. -/
theorem map_ty_convertArgs {args : List Expr} (hLength : (env.types.methodInfo m).params.length = args.length) :
    (env.convertArgs ⟨m, false⟩ args).map Expr.ty = (env.types.methodInfo m).params.types := by
  have hZip : (env.types.methodInfo m).params.types.length ≤ args.length := by
    rw [Bindings.types, length_map]
    exact Nat.le_of_eq hLength
  rw [convertArgs, if_neg (by simp), map_map]
  refine Eq.trans (map_congr_left ?_) (map_snd_zip hZip)
  rintro ⟨a, ty⟩ -
  by_cases hTy : a.ty = ty
  · simp only [Function.comp_apply, if_pos hTy]
    exact hTy
  · simp only [Function.comp_apply, if_neg hTy]
    rfl

/-- Both the name a routine is called by and its own name hold no separator. -/
theorem unseparated_of_calledBy (h : env.types.Settled Unseparated)
    (hNames : ∀ name ∈ env.types.classes.map ClassInfo.name, ClassName name)
    (hCalled : env.CalledBy Unseparated c kind name) (ha : a ∈ env.types.candidates c kind)
    (hMem : m ∈ (env.types.classInfo a).methods) (hKind : (env.types.methodInfo m).kind = kind) :
    kind ≠ .destructor ∧ Unseparated name ∧ Unseparated (env.types.methodInfo m).name := by
  cases kind with
  | destructor => exact hCalled.elim
  | method => exact ⟨by decide, hCalled, (h.coherent a).named m hMem hKind⟩
  | constructor =>
    obtain rfl := mem_singleton.mp ha
    have hClass := (className_classInfo hNames (Registry.registered_of_mem hMem)).1
    rw [((h.coherent a).routine m hMem).named hKind, show name = _ from hCalled]
    exact ⟨by decide, hClass, hClass⟩

/-- A routine whose signature is that of a call has the name of the call and parameters of the types
of its arguments. -/
theorem eq_of_signature (h : env.types.Settled Unseparated)
    (hNames : ∀ name ∈ env.types.classes.map ClassInfo.name, ClassName name) {types : List Ty}
    (hCalled : env.CalledBy Unseparated c kind name) (ha : a ∈ env.types.candidates c kind)
    (hMem : m ∈ (env.types.classInfo a).methods) (hKind : (env.types.methodInfo m).kind = kind)
    (hValues : ∀ ty ∈ types, env.types.IsValue ty)
    (hSignature : (env.types.methodInfo m).signature = env.types.signature name kind types) :
    (env.types.methodInfo m).name = name ∧ (env.types.methodInfo m).params.types = types := by
  have hRoutine := (h.coherent a).routine m hMem
  obtain ⟨hCallable, hName, hName'⟩ := unseparated_of_calledBy h hNames hCalled ha hMem hKind
  rw [hRoutine.signature, hKind] at hSignature
  exact signature_inj h.lineal hNames hName' hName hCallable
    (fun ty hTy => .inr (hRoutine.params ty hTy)) hValues hSignature

/-- What overload resolution selects fits the arguments exactly. A resolution that claims to be exact
compared signatures only, so this rests on signatures being readable. -/
theorem Selects.matches (h : env.Sound Unseparated)
    (hNames : ∀ name ∈ env.types.classes.map ClassInfo.name, ClassName name) {args : List Expr}
    (hArgs : ∀ a ∈ args, Denotes env (env.Selects Unseparated) a (.value a.ty))
    (hSelects : env.Selects Unseparated c kind name args m) : env.Matches c kind name args m := by
  obtain ⟨hCalled, exact, hResolve, hConverted⟩ := hSelects
  obtain ⟨a, ha, hMem, hKind, hFits⟩ := h.settled.coherent.indexed.resolveMethod_eq_some hResolve
  cases exact with
  | false =>
    obtain ⟨-, hName, hLength, -⟩ := accepts_iff.mp hFits
    refine ⟨⟨a, ha, hMem⟩, hKind, hName, ?_⟩
    rw [hConverted]
    apply map_ty_convertArgs
    rw [hLength, length_map, length_map]
  | true =>
    have hUnwidened : ∀ e ∈ args, e.unwidened = e :=
      map_inj_left.mp ((hConverted.trans (if_pos rfl)).symm.trans args.map_id.symm)
    have hTypes : (args.map fun e => e.unwidened.ty) = args.map Expr.ty :=
      map_congr_left fun e he => congrArg Expr.ty (hUnwidened e he)
    have hSignature : (env.types.methodInfo m).signature =
        env.types.signature name kind (args.map Expr.ty) := hTypes ▸ hFits
    have hValues : ∀ ty ∈ args.map Expr.ty, env.types.IsValue ty := by
      intro ty hTy
      obtain ⟨e, he, rfl⟩ := mem_map.mp hTy
      exact h.isValue (hArgs e he) (hUnwidened e he)
    obtain ⟨hEq, hParams⟩ :=
      eq_of_signature h.settled hNames hCalled ha hMem hKind hValues hSignature
    exact ⟨⟨a, ha, hMem⟩, hKind, hEq, hParams.symm⟩

end Env

namespace Expr

/-- Variables and fields are cells. -/
def isCell : Expr → Bool
  | var _ _ _ | field _ _ _ _ => true
  | _ => false

/-- Below a node, a cell stands just where the node reads or writes it. -/
def placesCells : Expr → Bool
  | deref _ e => e.isCell
  | assign _ target value => target.isCell && !value.isCell
  | e => e.operands.all fun operand => !operand.isCell

end Expr

theorem Denotes.isCell (h : Denotes Γ select e d) : e.isCell = true ↔ ∃ ty, d = .cell ty := by
  cases h <;> simp [Expr.isCell]

theorem Denotes.not_isCell {ty : Ty} (h : Denotes Γ select e (.value ty)) : e.isCell = false := by
  rw [Bool.eq_false_iff, Ne, h.isCell]
  exact nofun

/-- In a well-typed tree, cells are read or written where they stand. -/
theorem Denotes.placesCells (h : Denotes Γ select e d) : e.placesCells = true := by
  cases h with
  | int | null | this | var => rfl
  | read _ hAddress => exact hAddress.isCell.mpr ⟨_, rfl⟩
  | assign _ hTarget hValue =>
    simpa [Expr.placesCells] using ⟨hTarget.isCell.mpr ⟨_, rfl⟩, hValue.not_isCell⟩
  | field _ hOperand | unary _ _ hOperand | cast _ hOperand | widen _ hOperand =>
    simpa [Expr.placesCells, Expr.operands] using hOperand.not_isCell
  | arithmetic _ _ hLeft hRight | equality _ hLeft hRight =>
    simpa [Expr.placesCells, Expr.operands] using ⟨hLeft.not_isCell, hRight.not_isCell⟩
  | new _ hArgs =>
    simpa [Expr.placesCells, Expr.operands] using fun a ha => (hArgs a ha).not_isCell
  | @call _ receiver _ _ _ _ _ _ hReceiver hArgs =>
    simp only [Expr.placesCells, Expr.operands, all_eq_true, Bool.not_eq_true']
    intro a ha
    rcases mem_append.mp ha with ha | ha
    · cases receiver with
      | implicit | super => cases ha
      | object e =>
        rw [mem_singleton.mp ha]
        exact (hReceiver e rfl).not_isCell
    · exact (hArgs a ha).not_isCell

namespace Program

variable {p : Program} {names : String → Prop}

/-- A program that is well typed stays so when calls are resolved more liberally. -/
theorem Typed.mono (hTyped : p.Typed Γ select) (hΓ : Γ.WellFormed names) {select' : Selection}
    (hSelect : ∀ position, (Γ.placed position).Sound names → ∀ {c kind name args m},
      (∀ a ∈ args, Denotes (Γ.placed position) select a (.value a.ty)) →
        select c kind name args m → select' c kind name args m) :
    p.Typed Γ select' := by
  have hBody : ∀ position body, (Γ.placed position).Sound names →
      Stmt.AllTyped (Γ.placed position) select false body →
        Stmt.AllTyped (Γ.placed position) select' false body := by
    intro position body hSound hBody
    exact Env.Later.allTyped ⟨.refl _, rfl, hSelect position hSound⟩ body hBody
  refine ⟨?_, hBody _ _ hΓ.placed_main hTyped.2⟩
  intro d hd
  obtain ⟨c, hResolved, hBelow, hMembers⟩ := hTyped.1 d hd
  refine ⟨c, hResolved, hBelow, ?_⟩
  intro member hMember
  cases member with
  | field _ => trivial
  | method d =>
    obtain ⟨m, hMethod, hRecords, hTypedBody⟩ := hMembers _ hMember
    exact ⟨m, hMethod, hRecords, hBody _ _ (hΓ.placed_method hBelow hRecords.mem) hTypedBody⟩

/-- In a well-typed program, calls fit their routines exactly. -/
theorem Typed.matches (hTyped : p.Typed Γ (Γ.Selects Unseparated)) (hΓ : Γ.WellFormed Unseparated)
    (hNames : ∀ name ∈ Γ.types.classes.map ClassInfo.name, ClassName name) :
    p.Typed Γ Γ.Matches := by
  apply hTyped.mono hΓ
  intro position hSound c kind name args m hArgs hSelects
  exact Env.Selects.matches hSound hNames hArgs hSelects

/-- Every statement of a well-typed program stands in a class or in the main block. -/
theorem Typed.exists_hasStatement (hTyped : p.Typed Γ select) (hs : s ∈ p.statements) :
    ∃ within, p.HasStatement within s := by
  rcases mem_append.mp hs with hs | hs
  · obtain ⟨d, hd, hs⟩ := mem_flatMap.mp hs
    obtain ⟨c, hResolved, -⟩ := hTyped.1 d hd
    exact ⟨some c, d, hd, hResolved, hs⟩
  · exact ⟨none, hs⟩

/-- The nodes of a well-typed program are explicit about cells, and none is left untyped. -/
theorem Typed.explicit (hTyped : p.Typed Γ (Γ.Selects names)) (hΓ : Γ.WellFormed names) (hs : s ∈ p.statements)
    {root : Expr} (hRoot : root ∈ s.operands) :
    root.isCell = false ∧ ∀ e : Expr, e.IsPart root → e.ty ≠ .untyped ∧ e.ty ≠ .error ∧
      (e.ty = .address ↔ e.isCell = true) ∧ e.placesCells = true := by
  obtain ⟨within, hs⟩ := hTyped.exists_hasStatement hs
  obtain ⟨position, inLoop, hSound, -, hStmt⟩ := hTyped.statement hΓ hs
  obtain ⟨ty, hDenotes⟩ := hStmt.operand hRoot
  refine ⟨hDenotes.not_isCell, ?_⟩
  intro e hPart
  obtain ⟨d, hNode⟩ := hDenotes.part hPart
  obtain ⟨hError, hUntyped⟩ := hSound.ty_ne hNode
  refine ⟨hUntyped, hError, ?_, hNode.placesCells⟩
  rw [hNode.isCell, hNode.ty_eq]
  cases d with
  | cell ty => exact iff_of_true rfl ⟨ty, rfl⟩
  | value ty => exact iff_of_false (hSound.value_ne hNode).2.2 nofun

/-- Elaboration is sound. If the names of methods and classes hold no separator and no class is named
like a type of another kind, a program as it is read that compiles has become explicit and well
typed: every body keeps the typing rules, where calls, instantiations and constructor calls have
arguments of exactly the parameter types of their routine; no node is untyped or in error; and the
nodes that denote addresses are the variables and the fields, each read or written where it stands. -/
theorem compile_elaborates (options : Options) (p : Program) (hFresh : p.isFresh = true)
    (hMethods : p.MethodNames Unseparated) (hClasses : ∀ d ∈ p.classes, ClassName d.name)
    (result : Compilation) (hOk : p.compile options = .ok result) :
    p.analyzed.Typed p.env p.env.Matches ∧
      ∀ s ∈ p.analyzed.statements, ∀ root ∈ s.operands, root.isCell = false ∧
        ∀ e : Expr, e.IsPart root → e.ty ≠ .untyped ∧ e.ty ≠ .error ∧
          (e.ty = .address ↔ e.isCell = true) ∧ e.placesCells = true := by
  obtain ⟨hΓ, hTyped, hNames⟩ := typed_of_compile_eq_ok hFresh (by decide) hMethods hOk
  refine ⟨hTyped.matches hΓ ?_, fun s hs root hRoot => hTyped.explicit hΓ hs hRoot⟩
  rw [hNames]
  intro name hName
  rcases mem_cons.mp hName with rfl | hName
  · decide
  · obtain ⟨d, hd, rfl⟩ := mem_map.mp hName
    exact hClasses d hd

/-- Two methods of one name, called with an object of a subclass and with an int. -/
def overloaded : Program where
  classes := [
    { line := 1, name := "A", members := [
      .method {
        line := 2, name := "f", returns := some .int
        params := [⟨2, .named "A", "x"⟩]
        body := [.ret 3 (some (.int 3 1)) none] },
      .method {
        line := 4, name := "f", returns := some .int
        params := [⟨4, .int, "n"⟩]
        body := [.ret 5 (some (.var 5 "n" none)) none] }] },
    { line := 7, name := "B", parent := some "A" }]
  main := ⟨9, [
    .declare 10 (.named "A") ["a"],
    .expr 11 (.assign 11 (.var 11 "a" none) (.new 11 "B" [] none none)),
    .print 12 (.call 12 (.object (.var 12 "a" none)) "f" [.call 12 (.object (.var 12 "a" none)) "f"
        [.new 12 "B" [] none none] none none] none none)]⟩

theorem compile_elaborates_overloaded : overloaded.isFresh = true ∧
    overloaded.MethodNames Unseparated ∧ (∀ d ∈ overloaded.classes, ClassName d.name) ∧
    ∃ result, overloaded.compile {} = .ok result ∧
      overloaded.analyzed.Typed overloaded.env overloaded.env.Matches := by
  have hFresh : overloaded.isFresh = true := by decide
  have hMethods : overloaded.MethodNames Unseparated := ⟨by decide, by decide⟩
  have hClasses : ∀ d ∈ overloaded.classes, ClassName d.name := by decide
  refine ⟨hFresh, hMethods, hClasses, ?_⟩
  cases hOk : overloaded.compile {} with
  | error error =>
    have hSome : (overloaded.compile {}).toOption.isSome = true := by decide +kernel
    rw [hOk] at hSome
    cases hSome
  | ok result =>
    exact ⟨result, rfl, (compile_elaborates {} overloaded hFresh hMethods hClasses result hOk).1⟩

end Program
end TLang
