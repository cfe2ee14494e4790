import TLang.Analysis.Stmt

/-! Reasoning about analyses. An analysis never stops early, so what it yields is only of interest if
it reports nothing terminal; all statements about it are made under that assumption, and say
which harmless faults it may report. -/
namespace TLang

variable {line : Nat} {fault : Fault}

namespace Fault

/-- A field is declared twice, and the second declaration is dropped. -/
def isFieldRedeclaration : Fault → Bool
  | redeclared (.field _) _ => true
  | _ => false

/-- A variable is declared twice, and the second declaration is dropped. -/
def isDuplicateVariable : Fault → Bool
  | duplicateVariable _ => true
  | _ => false

def isUndeclaredVariable : Fault → Bool
  | undeclaredVariable _ => true
  | _ => false

/-- What typing a body may report if nothing terminal is found in it. -/
def isVariableFault (f : Fault) : Bool := f.isUndeclaredVariable || f.isDuplicateVariable

end Fault

/-- Some variable was found not to be declared. -/
def anyUndeclared (ds : List Diagnostic) : Bool := ds.any (·.fault.isUndeclaredVariable)

@[simp] theorem anyUndeclared_append (ds more : List Diagnostic) :
    anyUndeclared (ds ++ more) = (anyUndeclared ds || anyUndeclared more) :=
  List.any_append

/-- Nothing that was reported forbids code generation. -/
def Quiet (ds : List Diagnostic) : Prop := ∀ d ∈ ds, d.isTerminal = false

instance (ds : List Diagnostic) : Decidable (Quiet ds) :=
  inferInstanceAs (Decidable (∀ d ∈ ds, d.isTerminal = false))

namespace Quiet

theorem nil : Quiet [] := by simp [Quiet]

@[simp] theorem append_iff {ds more : List Diagnostic} :
    Quiet (ds ++ more) ↔ Quiet ds ∧ Quiet more := by
  simp [Quiet, or_imp, forall_and]

/-- A terminal report is never part of a quiet analysis. -/
theorem not_report (hFault : fault.severity = .terminal) : ¬ Quiet (Checked.report line fault).log := by
  intro h
  have hd := h ⟨line, fault⟩ (by simp [Checked.report])
  simp [Diagnostic.isTerminal, Diagnostic.severity, hFault] at hd

theorem not_report_bind {α : Type} {f : Unit → Checked α} (hFault : fault.severity = .terminal) :
    ¬ Quiet (Checked.report line fault >>= f).log := by
  rw [Logged.log_bind, append_iff]
  exact fun h => not_report hFault h.1

end Quiet

namespace Analysis

variable {α β : Type} {a : α} {post : β → Env → Prop} {x : Analysis α} {f : Unit → Analysis β}

@[simp] theorem value_bind (x : Analysis α) (f : α → Analysis β) (env : Env) :
    ((x >>= f) env).value = (f (x env).value.1 (x env).value.2).value := rfl

@[simp] theorem log_bind (x : Analysis α) (f : α → Analysis β) (env : Env) :
    ((x >>= f) env).log = (x env).log ++ (f (x env).value.1 (x env).value.2).log := rfl

@[simp] theorem value_map (f : α → β) (x : Analysis α) (env : Env) :
    ((f <$> x) env).value = (f (x env).value.1, (x env).value.2) := rfl

@[simp] theorem log_map (f : α → β) (x : Analysis α) (env : Env) : ((f <$> x) env).log = (x env).log :=
  List.append_nil _

@[simp] theorem pure_apply (a : α) (env : Env) : (pure a : Analysis α) env = ⟨(a, env), []⟩ := rfl

@[simp] theorem get_apply (env : Env) : (get : Analysis Env) env = ⟨(env, env), []⟩ := rfl

@[simp] theorem set_apply (e env : Env) : (set e : Analysis Unit) env = ⟨((), e), []⟩ := rfl

@[simp] theorem modify_apply (f : Env → Env) (env : Env) :
    (modify f : Analysis Unit) env = ⟨((), f env), []⟩ := rfl

theorem change_apply {ε : Type} (x : Registry.Change ε α) (env : Env) :
    change x env = ⟨((x.on env.types).1, { env with types := (x.on env.types).2 }), []⟩ := rfl

@[simp] theorem value_read (f : Env → Checked α) (env : Env) :
    (read f env).value = ((f env).value, env) := rfl

@[simp] theorem log_read (f : Env → Checked α) (env : Env) : (read f env).log = (f env).log :=
  List.append_nil _

@[simp] theorem report_apply (line : Nat) (fault : Fault) (env : Env) :
    report line fault env = ⟨((), env), [⟨line, fault⟩]⟩ := rfl

/-- A pass takes its steps one after the other. -/
theorem mapM_cons_apply (f : α → Analysis β) (a : α) (as : List α) (env : Env) : (a :: as).mapM f env =
      ⟨((f a env).value.1 :: (as.mapM f (f a env).value.2).value.1,
        (as.mapM f (f a env).value.2).value.2),
        (f a env).log ++ (as.mapM f (f a env).value.2).log⟩ := by
  rw [List.mapM_cons]
  apply Logged.ext <;> simp

theorem mapM_append_apply (f : α → Analysis β) (as bs : List α) (env : Env) : (as ++ bs).mapM f env =
      ⟨((as.mapM f env).value.1 ++ (bs.mapM f (as.mapM f env).value.2).value.1,
        (bs.mapM f (as.mapM f env).value.2).value.2),
        (as.mapM f env).log ++ (bs.mapM f (as.mapM f env).value.2).log⟩ := by
  rw [List.mapM_append]
  apply Logged.ext <;> simp

theorem length_mapM (f : α → Analysis β) (as : List α) (env : Env) :
    (as.mapM f env).value.1.length = as.length := by
  induction as generalizing env with
  | nil => rfl
  | cons a as ih =>
    rw [mapM_cons_apply]
    exact congrArg (· + 1) (ih _)

/-- If the analysis is quiet from `env` on, then what it reports, its result and the environment it
leaves behind satisfy `post`. -/
def Yields (x : Analysis α) (env : Env) (post : List Diagnostic → α → Env → Prop) : Prop :=
  Quiet (x env).log → post (x env).log (x env).value.1 (x env).value.2

namespace Yields

variable {env : Env}

theorem pure {post : List Diagnostic → α → Env → Prop} (h : post [] a env) : Yields (Pure.pure a) env post :=
  fun _ => h

theorem bind {f : α → Analysis β} {middle : List Diagnostic → α → Env → Prop}
    {post : List Diagnostic → β → Env → Prop} (hx : Yields x env middle)
    (hf : ∀ log a env', middle log a env' →
      Yields (f a) env' fun log' b env'' => post (log ++ log') b env'') : Yields (x >>= f) env post := by
  intro hQuiet
  rw [log_bind, Quiet.append_iff] at hQuiet
  exact hf _ _ _ (hx hQuiet.1) hQuiet.2

theorem bind_pure {f : α → β} {post : List Diagnostic → β → Env → Prop}
    (hx : Yields x env fun log a env' => post log (f a) env') :
    Yields (x >>= fun a => Pure.pure (f a)) env post := by
  refine bind hx fun log a env' h => pure ?_
  rw [List.append_nil]
  exact h

theorem mono {post post' : List Diagnostic → α → Env → Prop} (h : Yields x env post)
    (hPost : ∀ log a env', post log a env' → post' log a env') : Yields x env post' :=
  fun hQuiet => hPost _ _ _ (h hQuiet)

theorem read {f : Env → Checked α} {post : List Diagnostic → α → Env → Prop}
    (h : Quiet (f env).log → post (f env).log (f env).value env) :
    Yields (Analysis.read f) env post := by
  intro hQuiet
  rw [log_read] at hQuiet ⊢
  exact h hQuiet

theorem modify (f : Env → Env) : Yields (modify f) env fun log _ env' => log = [] ∧ env' = f env :=
  fun _ => ⟨rfl, rfl⟩

end Yields

/-- If the analysis is quiet from `env` on, it reports only faults that `allowed` admits, and its
result and the environment it leaves behind satisfy `post`. -/
def Ensures (x : Analysis α) (env : Env) (allowed : Fault → Prop) (post : α → Env → Prop) : Prop :=
  Yields x env fun log a env' => (∀ d ∈ log, allowed d.fault) ∧ post a env'

namespace Ensures

variable {allowed : Fault → Prop} {env : Env}

theorem pure {post : α → Env → Prop} (h : post a env) : Ensures (Pure.pure a) env allowed post :=
  fun _ => ⟨by simp, h⟩

theorem bind {f : α → Analysis β} {middle : α → Env → Prop} (hx : Ensures x env allowed middle)
    (hf : ∀ a env', middle a env' → Ensures (f a) env' allowed post) : Ensures (x >>= f) env allowed post := by
  refine Yields.bind hx ?_
  rintro log a env' ⟨hLog, hMiddle⟩
  refine (hf a env' hMiddle).mono ?_
  rintro log' b env'' ⟨hLog', hPost⟩
  refine ⟨?_, hPost⟩
  intro d hd
  rcases List.mem_append.mp hd with hd | hd
  · exact hLog d hd
  · exact hLog' d hd

theorem get_bind {f : Env → Analysis β} (h : Ensures (f env) env allowed post) :
    Ensures (MonadState.get >>= f) env allowed post := h

theorem set_bind {e : Env} (h : Ensures (f ()) e allowed post) :
    Ensures (MonadStateOf.set e >>= f) env allowed post := h

/-- What a terminal report is followed by does not matter. -/
theorem report_terminal {post : Unit → Env → Prop} (hFault : fault.severity = .terminal) :
    Ensures (report line fault) env allowed post := by
  intro hQuiet
  exact absurd hQuiet (Quiet.not_report hFault)

theorem report_terminal_bind (hFault : fault.severity = .terminal) :
    Ensures (Analysis.report line fault >>= f) env allowed post :=
  bind (report_terminal hFault) fun _ _ h => h

theorem report_bind (hFault : allowed fault) (h : Ensures (f ()) env allowed post) :
    Ensures (Analysis.report line fault >>= f) env allowed post := by
  have hReport : Ensures (Analysis.report line fault) env allowed fun _ env' => env' = env :=
    fun _ => ⟨by simpa using hFault, rfl⟩
  refine bind hReport ?_
  rintro - env rfl
  exact h

theorem read {f : Env → Checked α} {post : α → Env → Prop}
    (h : Quiet (f env).log → (∀ d ∈ (f env).log, allowed d.fault) ∧ post (f env).value env) :
    Ensures (read f) env allowed post :=
  Yields.read h

end Ensures
end Analysis
end TLang
