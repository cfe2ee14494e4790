import TLang.Proofs.Dressing
import TLang.Proofs.Independence

/-! Analysis only decorates. The analyzed tree is the tree that was read, apart from annotations and
three differences: variables that are declared twice are missing from their declarations, constructors
open with a call of another one, and classes have a constructor and a destructor at the end. -/
namespace TLang

open Analysis List

variable {member : Member} {ds : List ClassDecl} {members : List Member}

variable {log : List Diagnostic}

/-- What a relation says of the entries of two lists one by one, with the reports on all of them in
order. -/
inductive Traces {α β : Type} (R : α → List Diagnostic → β → Prop) :
    List α → List Diagnostic → List β → Prop where
  | nil : Traces R [] [] []
  | cons {a : α} {as : List α} {b : β} {bs : List β} {log logs : List Diagnostic}
      (hFirst : R a log b) (hRest : Traces R as logs bs) :
      Traces R (a :: as) (log ++ logs) (b :: bs)

namespace Traces

variable {α β : Type} {R : α → List Diagnostic → β → Prop} {bs : List β}

theorem of_nil (h : Traces R [] log bs) : log = [] ∧ bs = [] := by
  cases h
  exact ⟨rfl, rfl⟩

theorem of_cons {a : α} {as : List α} (h : Traces R (a :: as) log bs) :
    ∃ first rest b bs', log = first ++ rest ∧ bs = b :: bs' ∧ R a first b ∧ Traces R as rest bs' := by
  cases h with
  | cons hFirst hRest => exact ⟨_, _, _, _, rfl, rfl, hFirst, hRest⟩

/-- Lists that are related in two parts. -/
theorem of_append (as : List α) {more : List α} (h : Traces R (as ++ more) log bs) :
    ∃ log₁ log₂ bs₁ bs₂, log = log₁ ++ log₂ ∧
      bs = bs₁ ++ bs₂ ∧ Traces R as log₁ bs₁ ∧ Traces R more log₂ bs₂ := by
  induction as generalizing log bs with
  | nil => exact ⟨[], log, [], bs, rfl, rfl, .nil, h⟩
  | cons a as ih =>
    obtain ⟨first, rest, b, bs', rfl, rfl, hFirst, hRest⟩ := h.of_cons
    obtain ⟨log₁, log₂, bs₁, bs₂, rfl, rfl, h₁, h₂⟩ := ih hRest
    exact ⟨first ++ log₁, log₂, b :: bs₁, bs₂, (append_assoc ..).symm, rfl, .cons hFirst h₁, h₂⟩

/-- A pass relates what it is given to what it yields if each of its steps does. -/
theorem mapM {γ : Type} {f : γ → Analysis β} {g : γ → α}
    (hStep : ∀ c env, R (g c) (duplicates (f c env).log) (f c env).value.1) (cs : List γ)
    (env : Env) :
    Traces R (cs.map g) (duplicates (cs.mapM f env).log) (cs.mapM f env).value.1 := by
  induction cs generalizing env with
  | nil => exact .nil
  | cons c cs ih =>
    rw [mapM_cons_apply, duplicates_append]
    exact .cons (hStep c env) (ih _)

end Traces

namespace Stmt

/-- Names that were declared are kept or dropped. -/
inductive Splits : List String → List String → List String → Prop where
  | nil : Splits [] [] []
  | keep (name : String) {names kept dropped : List String} (h : Splits names kept dropped) :
      Splits (name :: names) (name :: kept) dropped
  | drop (name : String) {names kept dropped : List String} (h : Splits names kept dropped) :
      Splits (name :: names) kept (name :: dropped)

/-- The second statement is the first one without the declarations that were reported. -/
inductive Prunes : Stmt → List Diagnostic → Stmt → Prop where
  | keep {s : Stmt} (hAlone : s.parts = [s]) (hNone : s.declared = []) : Prunes s [] s
  | declare (line : Nat) (type : TypeName) {names kept dropped : List String}
      (h : Splits names kept dropped) :
      Prunes (.declare line type names)
        (dropped.map fun name => ⟨line, .duplicateVariable name⟩) (.declare line type kept)
  | block (line : Nat) {body body' : List Stmt} {log : List Diagnostic}
      (h : Traces Prunes body log body') : Prunes (.block line body) log (.block line body')
  | branch (line : Nat) (cond : Expr) {s s' : Stmt} {log : List Diagnostic} (h : Prunes s log s') :
      Prunes (.branch line cond s none) log (.branch line cond s' none)
  | branchElse (line : Nat) (cond : Expr) {s s' t t' : Stmt} {log log' : List Diagnostic}
      (h : Prunes s log s') (h' : Prunes t log' t') :
      Prunes (.branch line cond s (some t)) (log ++ log') (.branch line cond s' (some t'))
  | loop (line : Nat) (cond : Expr) {s s' : Stmt} {log : List Diagnostic} (h : Prunes s log s') :
      Prunes (.loop line cond s) log (.loop line cond s')

theorem Splits.self (names : List String) : Splits names names [] := by
  induction names with
  | nil => exact .nil
  | cons name names ih => exact .keep name ih

mutual

theorem Prunes.self : (s : Stmt) → Prunes s [] s
  | .expr _ _ | .print _ _ | .ret _ _ _ | .breakLoop _ | .continueLoop _ | .delete _ _
  | .construct _ _ _ _ | .empty _ => .keep rfl rfl
  | .declare line type names => .declare line type (.self names)
  | .block line body => .block line (Traces.self body)
  | .branch line cond s none => .branch line cond (Prunes.self s)
  | .branch line cond s (some t) => .branchElse line cond (Prunes.self s) (Prunes.self t)
  | .loop line cond s => .loop line cond (Prunes.self s)

theorem Traces.self : (body : List Stmt) → Traces Prunes body [] body
  | [] => .nil
  | s :: rest => .cons (Prunes.self s) (Traces.self rest)

end

/-- A call of another constructor is kept. -/
theorem Prunes.eq_of_construct {line : Nat} {delegate : Delegate} {args : List Expr}
    {constructor : Option MethodId} {s : Stmt} (h : Prunes (.construct line delegate args constructor) log s) :
    log = [] ∧ s = .construct line delegate args constructor := by
  cases h
  exact ⟨rfl, rfl⟩

end Stmt

/-- Names are dropped from a declaration with a report for each. -/
theorem Analysis.splits_declareNames (line : Nat) (ty : Ty) (names : List String) (env : Env) :
    ∃ dropped, Stmt.Splits names (declareNames line ty names env).value.1 dropped ∧
      duplicates (declareNames line ty names env).log =
        dropped.map fun name => ⟨line, .duplicateVariable name⟩ := by
  induction names generalizing env with
  | nil => exact ⟨[], .nil, rfl⟩
  | cons name rest ih =>
    simp only [declareNames, value_bind, log_bind, pure_apply, declareName_apply,
      append_nil, duplicates_append]
    by_cases hTaken : env.isTaken name = true
    · obtain ⟨dropped, hSplits, hLog⟩ := ih env
      simp only [hTaken, if_true, Bool.false_eq_true, if_false, hLog]
      exact ⟨name :: dropped, .drop name hSplits, rfl⟩
    · obtain ⟨dropped, hSplits, hLog⟩ := ih (env.allot name ty)
      simp only [hTaken, Bool.false_eq_true, if_false, if_true, hLog]
      exact ⟨dropped, .keep name hSplits, rfl⟩

namespace Stmt

mutual

/-- Analysis only decorates statements, and drops variables that are declared twice. -/
theorem prunes_analyze (inLoop first : Bool) : (s : Stmt) → (env : Env) →
    Prunes s.erase (duplicates (s.analyze inLoop first env).log)
      (s.analyze inLoop first env).value.1.erase
  | .expr _ e, env => by
    simpa [analyze, erase] using Prunes.self _
  | .declare line type names, env => by
    obtain ⟨dropped, hSplits, hLog⟩ :=
      splits_declareNames line (env.resolveTypeName line type).value names env
    simp only [analyze, value_bind, log_bind, value_read, log_read, pure_apply, duplicates_append,
      (env.silent_resolveTypeName line type).1, hLog, nil_append, append_nil, erase]
    exact .declare line type hSplits
  | .print line e, env => by
    have hInt := env.silent_expectInt line (e.analyze env).value .printExpectsInt fun _ => rfl
    simpa [analyze, erase, hInt.1] using Prunes.self _
  | .block line body, env => by
    have hBody := prunes_analyzeAll inLoop body env
    simpa [analyze, erase] using Prunes.block line hBody
  | .branch line cond s none, env => by
    have hInt := env.silent_condition .branch (cond.analyze env).value
    have hThen := prunes_analyze inLoop false s env
    simpa [analyze, analyzeElse, condition, erase, eraseElse, hInt.1] using
      Prunes.branch line cond.erase hThen
  | .branch line cond s (some t), env => by
    have hInt := env.silent_condition .branch (cond.analyze env).value
    have hThen := prunes_analyze inLoop false s env
    have hElse := prunes_analyze inLoop false t (s.analyze inLoop false env).value.2
    simpa [analyze, analyzeElse, condition, erase, eraseElse, hInt.1] using
      Prunes.branchElse line cond.erase hThen hElse
  | .loop line cond s, env => by
    have hInt := env.silent_condition .loop (cond.analyze env).value
    have hBody := prunes_analyze true false s env
    simpa [analyze, condition, erase, hInt.1] using Prunes.loop line cond.erase hBody
  | .ret line value _, env => by
    have hValue : (value.mapM (Expr.analyze env)).value.map Expr.erase = value.map Expr.erase ∧
        duplicates (value.mapM (Expr.analyze env)).log = [] := by
      cases value with
      | none => exact ⟨rfl, rfl⟩
      | some e => exact ⟨congrArg some (e.erase_analyze env), by simp⟩
    have hStmt := env.dresses_analyzeReturn line (value.mapM (Expr.analyze env)).value none
    simp only [analyze, value_read, log_read, Logged.value_bind, Logged.log_bind, hStmt.erase,
      duplicates_append, hStmt.silent.1, hValue.1, hValue.2, erase]
    exact .self _
  | .breakLoop line, env => by
    cases inLoop <;> exact .self _
  | .continueLoop line, env => by
    cases inLoop <;> exact .self _
  | .delete line target, env => by
    have hStmt := env.dresses_analyzeDelete line (target.analyze env).value
    simp only [analyze, value_read, log_read, Logged.value_bind, Logged.log_bind, hStmt.erase,
      duplicates_append, hStmt.silent.1, target.erase_analyze, target.duplicates_analyze, erase]
    exact .self _
  | .construct line delegate args _, env => by
    have hStmt := env.dresses_analyzeConstruct line first delegate (Expr.analyzeArgs env args).value none
    simp only [analyze, value_read, log_read, Logged.value_bind, Logged.log_bind, hStmt.erase,
      duplicates_append, hStmt.silent.1, Expr.erase_analyzeArgs, Expr.duplicates_analyzeArgs, erase]
    exact .self _
  | .empty line, env => .self _

theorem prunes_analyzeAll (inLoop : Bool) : (body : List Stmt) → (env : Env) →
    Traces Prunes (eraseAll body) (duplicates (analyzeAll inLoop body env).log)
      (eraseAll (analyzeAll inLoop body env).value.1)
  | [], env => .nil
  | s :: rest, env => by
    have hFirst := prunes_analyze inLoop false s env
    have hRest := prunes_analyzeAll inLoop rest (s.analyze inLoop false env).value.2
    simpa [analyzeAll, eraseAll] using Traces.cons hFirst hRest

end

/-- A body is kept but for the names in declarations that are reported as duplicates. -/
theorem prunes_analyzeBody (isConstructor : Bool) (body : List Stmt) (env : Env) :
    Traces Prunes (eraseAll body) (duplicates (analyzeBody isConstructor body env).log)
      (eraseAll (analyzeBody isConstructor body env).value.1) := by
  cases body with
  | nil => exact .nil
  | cons s rest =>
    have hFirst := prunes_analyze false isConstructor s env
    have hRest := prunes_analyzeAll false rest (s.analyze false isConstructor env).value.2
    simpa [analyzeBody, eraseAll] using Traces.cons hFirst hRest

end Stmt

namespace MethodDecl

/-- The second method is the first one, decorated. Once it is declared, a constructor that does not
open with a call of another one calls that of the parent. -/
structure Decorates (d : MethodDecl) (log : List Diagnostic) (d' : MethodDecl) : Prop where
  heading : { d'.erase with body := [] } = { d with body := [] }
  body : if d.kind = .constructor ∧ d'.resolved.isSome ∧ ¬ d.body.head?.any Stmt.isConstruct then
      ∃ rest, d'.erase.body = .superCall d.line :: rest ∧ Traces Stmt.Prunes d.body log rest
    else Traces Stmt.Prunes d.body log d'.erase.body

theorem head_eraseAll (body : List Stmt) :
    (Stmt.eraseAll body).head?.any Stmt.isConstruct = body.head?.any Stmt.isConstruct := by
  cases body with
  | nil => rfl
  | cons s rest => cases s <;> rfl

theorem decorates_of_unresolved {d : MethodDecl} (h : d.resolved = none) : d.erase.Decorates [] d where
  heading := rfl
  body := by
    rw [if_neg (by simp [h])]
    exact Stmt.Traces.self _

/-- A method keeps its heading too. A constructor gets a call of the parent in front, if it was accepted and has
none. -/
theorem decorates_analyzeBody (d : MethodDecl) (env : Env) :
    d.erase.Decorates (duplicates (d.analyzeBody env).log) (d.analyzeBody env).value.1 := by
  cases hResolved : d.resolved with
  | none =>
    have hPure : d.analyzeBody env = ⟨(d, env), []⟩ := by
      rw [analyzeBody, hResolved]
      rfl
    rw [hPure]
    exact decorates_of_unresolved hResolved
  | some m =>
    have hBody := Stmt.prunes_analyzeBody (d.kind = .constructor) d.fullBody (inside m env)
    rw [analyzeBody_apply hResolved]
    refine ⟨rfl, ?_⟩
    have hCond : (d.erase.kind = .constructor ∧ d.resolved.isSome ∧
        ¬ d.erase.body.head?.any Stmt.isConstruct) ↔
          d.kind = .constructor ∧ ¬ d.body.head?.any Stmt.isConstruct := by
      simp [erase, head_eraseAll, hResolved]
    simp only [hCond]
    by_cases hOpen : d.kind = .constructor ∧ ¬ d.body.head?.any Stmt.isConstruct
    · have hFull : d.fullBody = .superCall d.line :: d.body := if_pos hOpen
      rw [if_pos hOpen]
      rw [hFull] at hBody ⊢
      obtain ⟨first, rest, s, body, hLog, hTyped, hFirst, hRest⟩ := hBody.of_cons
      obtain ⟨rfl, rfl⟩ := hFirst.eq_of_construct
      refine ⟨body, hTyped, ?_⟩
      rw [hLog]
      exact hRest
    · have hFull : d.fullBody = d.body := if_neg hOpen
      rw [if_neg hOpen]
      rw [hFull] at hBody ⊢
      exact hBody

end MethodDecl

namespace Member

/-- The second member is the first one, decorated. -/
inductive Decorates : Member → List Diagnostic → Member → Prop where
  | field (d : FieldDecl) (owner : Option String) :
      Decorates (.field d) [] (.field { d with owner })
  | method {d d' : MethodDecl} {log : List Diagnostic} (h : d.Decorates log d') :
      Decorates (.method d) log (.method d')

theorem decorates_analyzeBody (member : Member) (env : Env) :
    member.erase.Decorates (duplicates (member.analyzeBody env).log)
      (member.analyzeBody env).value.1 := by
  cases member with
  | field d => exact .field _ d.owner
  | method d =>
    simp only [analyzeBody, value_bind, log_bind, pure_apply, append_nil]
    exact .method (d.decorates_analyzeBody env)

theorem decorates_of_unresolved (h : member.routine? = none) : member.erase.Decorates [] member := by
  cases member with
  | field d => exact .field _ d.owner
  | method d => exact .method (MethodDecl.decorates_of_unresolved h)

end Member

namespace ClassDecl

/-- The routines that analysis may add to a class. -/
def additions (d : ClassDecl) : List Member :=
  [.method d.defaultConstructor.erase, .method d.defaultDestructor.erase]

/-- The second class is the first one, decorated, and perhaps with a constructor and a destructor at
the end. -/
structure Decorates (d : ClassDecl) (log : List Diagnostic) (d' : ClassDecl) : Prop where
  line : d'.line = d.line
  name : d'.name = d.name
  parent : d'.parent = d.parent
  members : ∃ own added, d'.members = own ++ added ∧ Traces Member.Decorates d.members log own ∧
    (added.map Member.erase).Sublist d.additions

/-- Nothing of what is added is dropped. -/
theorem eq_of_decorates_additions {d : ClassDecl} {member' : Member} (hMember : member ∈ d.additions)
    (h : member.Decorates log member') : log = [] ∧ member'.erase = member := by
  simp only [additions, mem_cons, not_mem_nil, or_false] at hMember
  rcases hMember with rfl | rfl
  · obtain _ | @⟨_, b, _, h⟩ := h
    have hBody : Traces Stmt.Prunes [.superCall d.line] log b.erase.body := by
      have hCond := h.body
      rwa [if_neg] at hCond
      rintro ⟨-, -, hOpen⟩
      exact hOpen rfl
    obtain ⟨first, rest, s, body, rfl, hTyped, hFirst, hRest⟩ := hBody.of_cons
    obtain ⟨rfl, rfl⟩ := hFirst.eq_of_construct
    obtain ⟨rfl, rfl⟩ := hRest.of_nil
    refine ⟨rfl, congrArg Member.method ?_⟩
    exact (congrArg (fun a : MethodDecl => { a with body := b.erase.body }) h.heading).trans
      (congrArg (fun body => { d.defaultConstructor.erase with body }) hTyped)
  · obtain _ | @⟨_, b, _, h⟩ := h
    have hBody : Traces Stmt.Prunes [] log b.erase.body := by
      have hCond := h.body
      rwa [if_neg] at hCond
      rintro ⟨⟨⟩, -⟩
    obtain ⟨rfl, hTyped⟩ := hBody.of_nil
    refine ⟨rfl, congrArg Member.method ?_⟩
    exact (congrArg (fun a : MethodDecl => { a with body := b.erase.body }) h.heading).trans
      (congrArg (fun body => { d.defaultDestructor.erase with body }) hTyped)

end ClassDecl

/-! The passes that settle the classes. -/

/-- Nothing that is reported while classes are settled is about a variable. -/
theorem Program.duplicates_declareClasses (ds : List ClassDecl) (env : Env) :
    duplicates (declareClasses ds env).log = [] := by
  rw [duplicates, filter_eq_nil_iff]
  intro d hd
  rcases declares_declareClasses ds env d hd with hFault | hFault
  all_goals
    revert hFault
    cases d.fault <;> simp [Fault.severity, Fault.isFieldRedeclaration, Fault.isDuplicateVariable]

theorem Member.erase_stamped (className : String) (member : Member) (m : Option MethodId) :
    (member.stamped className m).erase = member.erase := by
  cases member <;> rfl

namespace ClassDecl

variable {d d' : ClassDecl}

/-- The second declaration is the first one with stamps on it, and one that is not registered is left
alone. -/
structure Stamps (d d' : ClassDecl) : Prop where
  erase : d'.erase = d.erase
  untouched : d'.resolved = none → d'.members = d.members

/-- The second declaration is the first one with stamps on it and perhaps with more routines. -/
structure Completes (d d' : ClassDecl) : Prop where
  erase : ∃ added, d'.erase = { d.erase with members := d.erase.members ++ added } ∧
    added.Sublist d.additions
  untouched : d'.resolved = none → d'.members = d.members

/-- A routine of the second declaration is one of the first, or one of those that are added. -/
theorem Completes.exists_source (h : d.Completes d') {e : MethodDecl} (he : .method e ∈ d'.members) :
    (∃ e₀, .method e₀ ∈ d.members ∧ e₀.erase = e.erase) ∨ .method e.erase ∈ d.additions := by
  obtain ⟨added, hErase, hAdded⟩ := h.erase
  have hMember : .method e.erase ∈ d.erase.members ++ added := by
    have hMembers : d'.members.map Member.erase = d.erase.members ++ added :=
      congrArg ClassDecl.members hErase
    exact hMembers ▸ mem_map_of_mem he
  rcases mem_append.mp hMember with hOwn | hNew
  · obtain ⟨member, hSource, hSame⟩ := mem_map.mp hOwn
    cases member with
    | field f => cases hSame
    | method e₀ => exact .inl ⟨e₀, hSource, Member.method.inj hSame⟩
  · exact .inr (hAdded.subset hNew)

theorem stamps_register (d : ClassDecl) (env : Env) : d.Stamps (d.register env).value.1 := by
  simp only [register, value_bind, change_apply]
  cases ((Registry.Change.registerClass d.name).on env.types).1 <;> exact ⟨rfl, fun _ => rfl⟩

/-- Declaring members writes down numbers, and neither adds a member nor drops one. -/
theorem Stamps.declareMembers (h : d.Stamps d') (env : Env) :
    d.Stamps (d'.declareMembers env).value.1 := by
  cases hResolved : d'.resolved with
  | none =>
    have hPure : d'.declareMembers = pure d' := by rw [ClassDecl.declareMembers, hResolved]
    rw [hPure]
    exact h
  | some id =>
    have hMembers : ({ d' with members := [] }.extend id d'.members env).value.1.members.map Member.erase =
        d'.members.map Member.erase :=
      map_members_extend (d := { d' with members := [] }) (Member.erase_stamped d'.name) d'.members env
    rw [declareMembers_eq hResolved]
    refine ⟨?_, fun hNone => ?_⟩
    · rw [← h.erase]
      exact congrArg (fun members => { d'.erase with members }) hMembers
    · cases hResolved.symm.trans hNone

theorem Stamps.completes (h : d.Stamps d') : d.Completes d' where
  erase := ⟨[], by rw [append_nil, h.erase], nil_sublist _⟩
  untouched := h.untouched

/-- Completing a class appends routines that it lacks. -/
theorem exists_added (d : ClassDecl) (env : Env) : ∃ added : List Member,
    (d.complete env).value.1 = { d with members := d.members ++ added } ∧
      (added.map Member.erase).Sublist d.additions ∧ (d.resolved = none → added = []) := by
  cases hResolved : d.resolved with
  | none =>
    have hPure : d.complete = pure d := by rw [complete, hResolved]
    refine ⟨[], ?_, nil_sublist _, fun _ => rfl⟩
    rw [hPure, append_nil, ← hResolved]
    rfl
  | some id =>
    obtain ⟨wanted, hSub, -, hComplete⟩ := exists_complete hResolved env
    rw [hComplete, extend_apply, ← hResolved]
    refine ⟨_, rfl, ?_, fun hNone => ?_⟩
    · rw [Member.map_zipWith_stamped (Member.erase_stamped _) _ (length_mapM _ _ _)]
      exact hSub.map Member.erase
    · cases hResolved.symm.trans hNone

/-- Completing a class adds members at its end. These are a constructor and a destructor at most. -/
theorem Stamps.complete (h : d.Stamps d') (env : Env) : d.Completes (d'.complete env).value.1 := by
  obtain ⟨added, hValue, hAdded, hNone⟩ := d'.exists_added env
  have hAdditions : d'.additions = d.additions := by
    have hHead := congrArg (fun e : ClassDecl => (e.line, e.name)) h.erase
    simp only [ClassDecl.erase, Prod.mk.injEq] at hHead
    simp only [additions, defaultConstructor, defaultDestructor, hHead]
  rw [hValue]
  refine ⟨⟨added.map Member.erase, ?_, hAdditions ▸ hAdded⟩, ?_⟩
  · rw [← h.erase]
    simp [ClassDecl.erase]
  · intro hUnresolved
    rw [hNone hUnresolved, append_nil]
    exact h.untouched hUnresolved

end ClassDecl

/-- Settling the classes completes them. -/
theorem Program.completes_declareClasses (ds : List ClassDecl) (env : Env) :
    List.Forall₂ ClassDecl.Completes ds (declareClasses ds env).value.1 := by
  have hRegister : List.Forall₂ ClassDecl.Stamps ds (ds.mapM ClassDecl.register env).value.1 :=
    forall₂_mapM (fun c d env hEq => hEq ▸ d.stamps_register env)
      (forall₂_same.mpr fun _ _ => rfl : List.Forall₂ (fun c d => c = d) ds ds) env
  simp only [declareClasses, collectClasses, value_bind, get_apply, pure_apply]
  generalize ((_ : Analysis Unit) _).value.2 = env₀
  have hNodup := env₀.types.nodup_declarationOrder (ds.mapM ClassDecl.register env).value.1
  have hDeclare := forall₂_inOrder hNodup (fun _ _ h => h)
    (fun _ _ e h => ClassDecl.Stamps.declareMembers h e) hRegister env₀
  have hComplete := forall₂_inOrder hNodup (fun _ _ h => ClassDecl.Stamps.completes h)
    (fun _ _ e h => ClassDecl.Stamps.complete h e) hDeclare
  refine forall₂_inOrder hNodup (fun _ _ h => h) (fun c d e h => ?_) (hComplete _) _
  rw [d.value_buildVMT e]
  exact h

theorem Program.exists_completes {env : Env} {d' : ClassDecl} (hd' : d' ∈ (declareClasses ds env).value.1) :
    ∃ d ∈ ds, d.Completes d' := by
  obtain ⟨i, hi, rfl⟩ := getElem_of_mem hd'
  have hCompletes := completes_declareClasses ds env
  have hi₀ : i < ds.length := hCompletes.length_eq ▸ hi
  exact ⟨ds[i], getElem_mem hi₀, hCompletes.get hi₀ hi⟩

theorem Traces.self_members (hNone : ∀ member ∈ members, member.routine? = none) :
    Traces Member.Decorates (members.map Member.erase) [] members := by
  induction members with
  | nil => exact .nil
  | cons member members ih =>
    rw [forall_mem_cons] at hNone
    exact .cons (Member.decorates_of_unresolved hNone.1) (ih hNone.2)

namespace ClassDecl

variable {d d' : ClassDecl}

/-- Members that were added declare no variables, so typing them reports no duplicates. -/
theorem erase_of_traces_additions {added : List Member} (hAdded : ∀ member ∈ added, member ∈ d.additions)
    (h : Traces Member.Decorates added log members) : log = [] ∧ members.map Member.erase = added := by
  induction added generalizing log members with
  | nil =>
    obtain ⟨rfl, rfl⟩ := h.of_nil
    exact ⟨rfl, rfl⟩
  | cons member added ih =>
    rw [forall_mem_cons] at hAdded
    obtain ⟨first, rest, member', members', rfl, rfl, hFirst, hRest⟩ := h.of_cons
    obtain ⟨rfl, hErase⟩ := eq_of_decorates_additions hAdded.1 hFirst
    obtain ⟨rfl, hErases⟩ := ih hAdded.2 hRest
    exact ⟨rfl, by rw [map_cons, hErase, hErases]⟩

/-- Typing the bodies of a class that was completed. -/
theorem Completes.decorates (h : d.Completes d') (hFresh : d.isFresh = true) (env : Env) :
    d.Decorates (duplicates (d'.analyzeBodies env).log) (d'.analyzeBodies env).value.1 := by
  have hRoutines : d'.resolved = none → ∀ member ∈ d'.members, member.routine? = none := by
    intro hNone member hMember
    rw [h.untouched hNone] at hMember
    rw [isFresh, Bool.and_eq_true, all_eq_true] at hFresh
    have hMember' := hFresh.2 member hMember
    cases member with
    | field _ => rfl
    | method m => simp_all [Member.isFresh, MethodDecl.isFresh, Member.routine?]
  have hTyped : ∃ members, (d'.analyzeBodies env).value.1 = { d' with members } ∧
      Traces Member.Decorates (d'.members.map Member.erase)
        (duplicates (d'.analyzeBodies env).log) members := by
    cases hResolved : d'.resolved with
    | none =>
      have hPure : d'.analyzeBodies env = ⟨(d', env), []⟩ := by
        rw [analyzeBodies, hResolved]
        rfl
      rw [hPure]
      exact ⟨d'.members, by rw [← hResolved], .self_members (hRoutines hResolved)⟩
    | some c =>
      refine ⟨(d'.members.mapM Member.analyzeBody (inside c env)).value.1, ?_, ?_⟩
      · rw [analyzeBodies_apply hResolved, hResolved]
      · rw [analyzeBodies_apply hResolved]
        exact .mapM Member.decorates_analyzeBody d'.members (inside c env)
  obtain ⟨members, hValue, hTraces⟩ := hTyped
  obtain ⟨added, hErase, hAdded⟩ := h.erase
  have hMembers : d'.members.map Member.erase = d.members ++ added := by
    have hEq := congrArg ClassDecl.members hErase
    rwa [d.erase_of_isFresh hFresh] at hEq
  rw [hMembers] at hTraces
  obtain ⟨log, logAdded, own, extra, hLog, rfl, hOwn, hExtra⟩ := hTraces.of_append
  obtain ⟨rfl, hExtraErase⟩ := erase_of_traces_additions (fun _ h => hAdded.subset h) hExtra
  have hHead := congrArg (fun e : ClassDecl => (e.line, e.name, e.parent)) hErase
  simp only [Prod.mk.injEq] at hHead
  rw [hLog, append_nil, hValue]
  exact ⟨hHead.1, hHead.2.1, hHead.2.2, own, extra, rfl, hOwn, hExtraErase ▸ hAdded⟩

theorem decorates_analyzeBodies {ds' : List ClassDecl} (h : List.Forall₂ Completes ds ds')
    (hFresh : ∀ d ∈ ds, d.isFresh = true) (env : Env) :
    Traces Decorates ds (duplicates (ds'.mapM analyzeBodies env).log)
      (ds'.mapM analyzeBodies env).value.1 := by
  induction h generalizing env with
  | nil => exact .nil
  | cons hFirst _ ih =>
    rw [forall_mem_cons] at hFresh
    rw [mapM_cons_apply, duplicates_append]
    exact .cons (hFirst.decorates hFresh.1 env) (ih hFresh.2 _)

end ClassDecl

/-- The second main block is the first one, decorated. -/
structure MainBlock.Decorates (m : MainBlock) (log : List Diagnostic) (m' : MainBlock) : Prop where
  line : m'.line = m.line
  body : Traces Stmt.Prunes m.body log (Stmt.eraseAll m'.body)

namespace Program

/-- Analysis only decorates. The analyzed program is the one that was read once types, storage, targets
and the nodes that read or widen are erased, up to three differences: routines that a class lacks are
appended to its members, a declared constructor that does not open with a call of another one opens
with a call of that of the parent, and names are missing from declarations of variables. Each missing
name was reported once, on the line of its declaration, and no other name was. -/
theorem analysis_decorates (p : Program) (hFresh : p.isFresh = true) :
    ∃ log mainLog, Traces ClassDecl.Decorates p.classes log p.analyzed.classes ∧
      p.main.Decorates mainLog p.analyzed.main ∧ duplicates p.diagnostics = log ++ mainLog := by
  rw [isFresh, Bool.and_eq_true, all_eq_true] at hFresh
  have hClasses := completes_declareClasses p.classes {}
  simp only [analyzed, diagnostics, analyze, value_bind, log_bind, duplicates_append, duplicates_declareClasses,
    analyzeBodies, pure_apply, nil_append, append_nil]
  refine ⟨_, _, ClassDecl.decorates_analyzeBodies hClasses hFresh.1 _, ?_, rfl⟩
  generalize (((declareClasses p.classes {}).value.1.mapM ClassDecl.analyzeBodies
    (declareClasses p.classes {}).value.2)).value.2 = env
  have hBody := Stmt.prunes_analyzeBody false p.main.body (MainBlock.inside env)
  rw [Stmt.eraseAll_of_areFresh _ hFresh.2] at hBody
  rw [MainBlock.analyze_apply]
  exact ⟨rfl, hBody⟩

/-- A class with a constructor that declares a variable twice and uses another one that is not
declared, and a main block that declares a variable twice. -/
def redeclaring : Program where
  classes := [{
    line := 1
    name := "A"
    members := [.method {
      line := 2
      kind := .constructor
      name := "A"
      body := [.declare 3 .int ["x", "x"],
        .expr 4 (.assign 4 (.var 4 "x" none) (.var 4 "z" none))] }] }]
  main := ⟨6, [.declare 7 .int ["y"], .declare 8 .int ["w", "y"]]⟩

theorem analysis_decorates_redeclaring : redeclaring.isFresh = true ∧
      duplicates redeclaring.diagnostics = [⟨3, .duplicateVariable "x"⟩, ⟨8, .duplicateVariable "y"⟩] ∧
      ∃ log mainLog, Traces ClassDecl.Decorates redeclaring.classes log redeclaring.analyzed.classes ∧
        redeclaring.main.Decorates mainLog redeclaring.analyzed.main ∧
        duplicates redeclaring.diagnostics = log ++ mainLog :=
  ⟨by decide, by decide +kernel, analysis_decorates redeclaring (by decide)⟩

end Program
end TLang
