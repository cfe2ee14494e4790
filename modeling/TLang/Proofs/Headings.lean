import TLang.Analysis.Program
import TLang.Proofs.Enlistment
import TLang.Proofs.Erasure

/-! Declarations do not look into bodies. The passes that settle the classes of a program treat bodies
as they are: whatever is done to all bodies may be done before the passes or after them. -/
namespace TLang

open Registry Analysis

def MethodDecl.mapBody (f : List Stmt → List Stmt) (d : MethodDecl) : MethodDecl :=
  { d with body := f d.body }

def Member.mapBody (f : List Stmt → List Stmt) : Member → Member
  | field d => field d
  | method d => method (d.mapBody f)

def ClassDecl.mapBodies (f : List Stmt → List Stmt) (d : ClassDecl) : ClassDecl :=
  { d with members := d.members.map (Member.mapBody f) }

/-- Bodies that analysis itself makes are left as they are. -/
structure KeepsDefaults (f : List Stmt → List Stmt) : Prop where
  empty : f [] = []
  superCall : ∀ line, f [.superCall line] = [.superCall line]

namespace Analysis

variable {α : Type}

/-- A change of the entries of a pass shows in its result as it does in the result of each step. -/
theorem mapM_commute {f : α → Analysis α} {g k : α → α} {as : List α}
    (h : ∀ a ∈ as, f (g a) = k <$> f a) : (as.map g).mapM f = List.map k <$> as.mapM f := by
  induction as with
  | nil => rfl
  | cons a as ih =>
    have hRest := ih fun b hb => h b (List.mem_cons_of_mem a hb)
    simp [List.mapM_cons, h a List.mem_cons_self, hRest, Functor.map_map]

theorem forM_commute {f : α → Analysis Unit} {g : α → α} (h : ∀ a, f (g a) = f a) (as : List α) :
    (as.map g).forM f = as.forM f := by
  induction as with
  | nil => rfl
  | cons a as ih =>
    show (f (g a) >>= fun _ => (as.map g).forM f) = f a >>= fun _ => as.forM f
    rw [h, ih]

/-- If every step of a pass commutes with a change of declarations, so does the pass. -/
theorem inOrder_commute {step : ClassDecl → Analysis ClassDecl} {g : ClassDecl → ClassDecl}
    (h : ∀ d, step (g d) = g <$> step d) (order : List Nat) (ds : List ClassDecl) :
    inOrder order step (ds.map g) = List.map g <$> inOrder order step ds := by
  induction order generalizing ds with
  | nil => rfl
  | cons i order ih =>
    cases hd : ds[i]? with
    | none =>
      simp only [inOrder, List.foldlM_cons, List.getElem?_map, hd, Option.map_none, pure_bind]
      exact ih ds
    | some d =>
      simp only [inOrder, List.foldlM_cons, List.getElem?_map, hd, Option.map_some, h, bind_map_left,
        bind_assoc, pure_bind, map_bind, ← List.map_set]
      congr 1
      funext d'
      exact ih (ds.set i d')

end Analysis

section Passes

variable {f : List Stmt → List Stmt}

theorem Analysis.declareMember_mapBody (id : ClassId) (className : String) (member : Member) :
    declareMember id className (member.mapBody f) =
      Member.mapBody f <$> declareMember id className member := by
  have hEnroll : enroll id className (member.mapBody f) = enroll id className member := by
    cases member <;> rfl
  rw [declareMember_eq, declareMember_eq, hEnroll, Functor.map_map]
  exact congrArg (· <$> enroll id className member) (funext fun _ => by cases member <;> rfl)

namespace ClassDecl

variable (d : ClassDecl)

theorem register_mapBodies : (d.mapBodies f).register = mapBodies f <$> d.register := by
  simp only [register, mapBodies, map_bind]
  congr 1
  funext answer
  cases answer <;> simp [mapBodies]

theorem declareMembers_mapBodies : (d.mapBodies f).declareMembers = mapBodies f <$> d.declareMembers := by
  cases hResolved : d.resolved with
  | none => simp [declareMembers, mapBodies, hResolved]
  | some id =>
    simp only [declareMembers, mapBodies, hResolved, mapM_commute fun member _ =>
      declareMember_mapBody id d.name member, bind_map_left, map_bind, map_pure]

theorem graft_mapBodies (id : ClassId) {method : MethodDecl} (hBody : f method.body = method.body) :
    (d.mapBodies f).graft id method = mapBodies f <$> d.graft id method := by
  have hMethod : ∀ m : Option MethodId, Member.mapBody f (.method { method with resolved := m }) =
      .method { method with resolved := m } := by
    intro m
    simp [Member.mapBody, MethodDecl.mapBody, hBody]
  simp only [graft, declareMethod_eq, bind_map_left, map_bind, map_pure]
  simp [mapBodies, hMethod]

theorem supply_mapBodies (id : ClassId) (has : ClassInfo → Bool) {routine : ClassDecl → MethodDecl}
    (hBody : f (routine d).body = (routine d).body) (hRoutine : routine (d.mapBodies f) = routine d) :
    (d.mapBodies f).supply id has routine = mapBodies f <$> d.supply id has routine := by
  simp only [supply, map_bind, hRoutine, d.graft_mapBodies id hBody]
  congr 1
  funext env
  split <;> simp

/-- Completing a class commutes with a change of bodies that keeps those of the routines supplied. -/
theorem complete_mapBodies (hf : KeepsDefaults f) :
    (d.mapBodies f).complete = mapBodies f <$> d.complete := by
  cases hResolved : d.resolved with
  | none => simp [complete, mapBodies, hResolved]
  | some id =>
    have hResolved' : (d.mapBodies f).resolved = some id := hResolved
    rw [complete_eq hResolved, complete_eq hResolved',
      d.supply_mapBodies id _ (hf.superCall d.line) rfl]
    simp only [map_bind, bind_map_left]
    congr 1
    funext _
    congr 1
    funext d'
    exact d'.supply_mapBodies id _ hf.empty rfl

theorem buildVMT_mapBodies : (d.mapBodies f).buildVMT = mapBodies f <$> d.buildVMT := by
  cases hResolved : d.resolved with
  | none => simp [buildVMT, mapBodies, hResolved]
  | some id => simp [buildVMT, mapBodies, hResolved]

end ClassDecl

/-- Classes are collected without a look at bodies. -/
theorem Analysis.collectClasses_mapBodies (ds : List ClassDecl) :
    collectClasses (ds.map (ClassDecl.mapBodies f)) =
      (fun result => (result.1.map (ClassDecl.mapBodies f), result.2)) <$> collectClasses ds := by
  have hDepths : ∀ (r : Registry) (ds : List ClassDecl),
      r.declarationOrder (ds.map (ClassDecl.mapBodies f)) = r.declarationOrder ds := by
    intro r ds
    simp only [declarationOrder, List.map_map, List.length_map]
    rfl
  simp only [collectClasses, mapM_commute fun (d : ClassDecl) _ => d.register_mapBodies,
    bind_map_left, map_bind, map_pure, hDepths]
  congr 1
  funext ds
  rw [forM_commute (g := ClassDecl.mapBodies f) (f := ClassDecl.linkParent) fun _ => rfl]
  congr 1
  funext _
  rw [forM_commute (g := ClassDecl.mapBodies f) (f := ClassDecl.breakCycle) fun _ => rfl]

/-- So are all declarations made. Bodies are typed afterwards, which is left out here. -/
theorem Program.declareClasses_mapBodies (hf : KeepsDefaults f) (ds : List ClassDecl) :
    declareClasses (ds.map (ClassDecl.mapBodies f)) =
      List.map (ClassDecl.mapBodies f) <$> declareClasses ds := by
  simp only [declareClasses, collectClasses_mapBodies, bind_map_left, map_bind,
    inOrder_commute ClassDecl.declareMembers_mapBodies,
    inOrder_commute fun d => ClassDecl.complete_mapBodies d hf,
    inOrder_commute ClassDecl.buildVMT_mapBodies]

end Passes
end TLang
