import TLang.Analysis.Program
import TLang.Proofs.Steps

/-! What is reported while the classes of a program are settled. Unless it is terminal, a field was
declared twice. -/
namespace TLang

/-- A terminal fault, or a field that is declared twice. -/
def Fault.OfDeclaration (f : Fault) : Prop := f.severity = .terminal ∨ f.isFieldRedeclaration = true

namespace Analysis

variable {step : ClassDecl → Analysis ClassDecl}

/-- The analysis only reports what may be wrong with a declaration. -/
def Declares {α : Type} (x : Analysis α) : Prop := ∀ env, ∀ d ∈ (x env).log, d.fault.OfDeclaration

namespace Declares

variable {α β : Type} {x : Analysis α} {f : α → Analysis β}

theorem of_silent (h : ∀ env, (x env).log = []) : Declares x := by
  intro env d hd
  rw [h env] at hd
  cases hd

theorem pure (a : α) : Declares (Pure.pure a) := of_silent fun _ => rfl

theorem get : Declares (MonadState.get : Analysis Env) := of_silent fun _ => rfl

theorem set (e : Env) : Declares (MonadStateOf.set e : Analysis Unit) := of_silent fun _ => rfl

theorem modify (f : Env → Env) : Declares (modify f : Analysis Unit) := of_silent fun _ => rfl

theorem change {ε : Type} (x : Registry.Change ε α) : Declares (Analysis.change x) := of_silent fun _ => rfl

theorem report (line : Nat) {fault : Fault} (h : fault.OfDeclaration) :
    Declares (Analysis.report line fault) := by
  intro env d hd
  rw [List.mem_singleton.mp hd]
  exact h

theorem bind (hx : Declares x) (hf : ∀ a, Declares (f a)) : Declares (x >>= f) := by
  intro env d hd
  rcases List.mem_append.mp hd with hd | hd
  · exact hx env d hd
  · exact hf _ _ d hd

theorem mapM (hf : ∀ a, Declares (f a)) (as : List α) : Declares (as.mapM f) := by
  induction as with
  | nil => exact pure []
  | cons a as ih =>
    rw [List.mapM_cons]
    exact bind (hf a) fun _ => bind ih fun _ => pure _

theorem forM {f : α → Analysis Unit} (hf : ∀ a, Declares (f a)) (as : List α) :
    Declares (as.forM f) := by
  induction as with
  | nil => exact pure ()
  | cons a as ih => exact bind (hf a) fun _ => ih

theorem inOrder (hStep : ∀ d, Declares (step d)) (order : List Nat) (ds : List ClassDecl) :
    Declares (inOrder order step ds) := by
  induction order generalizing ds with
  | nil => exact pure ds
  | cons i order ih =>
    rw [Analysis.inOrder, List.foldlM_cons]
    cases ds[i]? with
    | none => exact bind (pure ds) fun _ => ih _
    | some d => exact bind (bind (hStep d) fun _ => pure _) fun _ => ih _

end Declares

/-- The only fault in a type is a name that no class has, which is a fault of a declaration. -/
theorem declares_resolveTypeName (line : Nat) (type : TypeName) :
    Declares (read fun env => env.resolveTypeName line type) := by
  intro env d hd
  rw [log_read] at hd
  cases type with
  | int => cases hd
  | named name =>
    rw [Env.resolveTypeName] at hd
    split at hd
    · cases hd
    · rw [List.mem_singleton.mp hd]
      exact .inl rfl

/-- The refusal of a member is a fault of a declaration, whatever kind of member it is. -/
theorem declares_addMember (line : Nat) (id : ClassId) (className name : String) (ty : Ty) :
    Declares (addMember line id className name ty) := by
  refine .bind (.change _) fun answer => ?_
  cases answer with
  | ok => exact .pure _
  | error member =>
    refine .bind (.report _ ?_) fun _ => .pure _
    cases member with
    | field _ => exact .inr rfl
    | method _ | destructor => exact .inl rfl

theorem declares_resolveParams (method : String) (params : List Param) (known : Bindings) :
    Declares (resolveParams method params known) := by
  induction params generalizing known with
  | nil => exact .pure known
  | cons p rest ih =>
    refine .bind (declares_resolveTypeName _ _) fun ty => ?_
    split
    · exact ih _
    · exact .bind (.report _ (.inl rfl)) fun _ => ih _

theorem declares_resolveReturn (className : String) (d : MethodDecl) :
    Declares (resolveReturn className d) := by
  unfold resolveReturn
  split
  · exact .bind (declares_resolveTypeName _ _) fun _ => .pure _
  · exact .bind (.report _ (.inl rfl)) fun _ => .pure _
  · exact .bind (.report _ (.inl rfl)) fun _ => .pure _
  · exact .pure _

theorem declares_checkShape (className : String) (d : MethodDecl) :
    Declares (checkShape className d) := by
  rw [checkShape]
  split
  · split
    · exact .pure ()
    · exact .report _ (.inl rfl)
  · split
    · exact .pure ()
    · exact .report _ (.inl rfl)
  · exact .pure ()

theorem declares_declareMethod (id : ClassId) (d : MethodDecl) : Declares (declareMethod id d) := by
  refine .bind .get fun env => .bind (declares_resolveParams _ _ _) fun params => ?_
  refine .bind (declares_resolveReturn _ d) fun returns => .bind (declares_checkShape _ d) fun _ => ?_
  refine .bind .get fun env => .bind (.set _) fun _ =>
    .bind (declares_addMember _ _ _ _ _) fun added => ?_
  cases added with
  | false => exact .pure d
  | true =>
    cases d.synthetic with
    | true => exact .pure _
    | false => exact .bind (.modify _) fun _ => .pure _

theorem declares_declareMember (id : ClassId) (className : String) (member : Member) :
    Declares (declareMember id className member) := by
  cases member with
  | field d =>
    refine .bind (.bind (declares_resolveTypeName _ _) fun ty => .forM (fun name => ?_) d.names)
      fun _ => .pure _
    exact .bind (declares_addMember _ _ _ _ _) fun _ => .pure _
  | method d => exact .bind (declares_declareMethod id _) fun _ => .pure _

end Analysis

open Analysis

namespace ClassDecl

variable (d : ClassDecl)

theorem declares_register : Declares d.register := by
  refine .bind (.change _) fun answer => ?_
  cases answer with
  | ok => exact .pure _
  | error => exact .bind (.report _ (.inl rfl)) fun _ => .pure _

theorem declares_linkParent : Declares d.linkParent := by
  rw [linkParent]
  split
  · exact .pure ()
  · refine .bind .get fun env => ?_
    split
    · exact .set _
    · exact .bind (.report _ (.inl rfl)) fun _ => .set _

theorem declares_breakCycle : Declares d.breakCycle := by
  rw [breakCycle]
  split
  · exact .pure ()
  · refine .bind .get fun env => ?_
    split
    · exact .bind (.report _ (.inl rfl)) fun _ => .set _
    · exact .pure ()

theorem declares_declareMembers : Declares d.declareMembers := by
  rw [declareMembers]
  split
  · exact .pure d
  · exact .bind (.mapM (fun member => declares_declareMember _ _ member) _) fun _ => .pure _

theorem declares_graft (id : ClassId) (method : MethodDecl) : Declares (d.graft id method) :=
  .bind (declares_declareMethod id method) fun _ => .pure _

/-- Completing a class reports faults of declarations only, since it adds routines and looks at no body. -/
theorem declares_complete : Declares d.complete := by
  rw [complete]
  split
  · exact .pure d
  case h_2 id _ =>
    have hDestructor : ∀ d₁ : ClassDecl, Declares (get >>= fun (now : Env) =>
        if (now.types.classInfo id).destructor.isSome then pure d₁
        else d₁.graft id d₁.defaultDestructor) := by
      intro d₁
      refine .bind .get fun now => ?_
      split
      · exact .pure d₁
      · exact d₁.declares_graft _ _
    refine .bind (.modify _) fun _ => .bind .get fun env => ?_
    split
    · exact .bind (.pure d) hDestructor
    · exact .bind (d.declares_graft _ _) hDestructor

theorem declares_buildVMT : Declares d.buildVMT := by
  rw [buildVMT]
  split
  · exact .pure d
  · exact .bind (.modify _) fun _ => .pure d

end ClassDecl

theorem Program.declares_declareClasses (ds : List ClassDecl) : Declares (declareClasses ds) := by
  refine .bind (.bind (.mapM ClassDecl.declares_register ds) fun ds => ?_) fun result => ?_
  · exact .bind (.forM ClassDecl.declares_linkParent ds) fun _ =>
      .bind (.forM ClassDecl.declares_breakCycle ds) fun _ => .bind .get fun _ => .pure _
  · refine .bind (.inOrder ClassDecl.declares_declareMembers _ _) fun ds => ?_
    exact .bind (.inOrder ClassDecl.declares_complete _ ds) fun ds =>
      .inOrder ClassDecl.declares_buildVMT _ ds

end TLang
