/-! Computations that yield a value and, in order, a list of entries. Typing writes diagnostics and
code generation writes lines of assembly. What one step contributes is a value of its own, so it can
be stated without mentioning what was written before it. -/
namespace TLang

/-- A value together with the entries written while it was computed, oldest first. -/
structure Logged (ε α : Type) where
  value : α
  log : List ε

namespace Logged

variable {ε α β : Type}

/-- Entries of later steps follow those of earlier ones. Each step is taken apart once, so that its
value and its entries are not computed twice. -/
instance : Monad (Logged ε) where
  pure a := ⟨a, []⟩
  bind x f :=
    match x with
    | ⟨a, before⟩ =>
      match f a with
      | ⟨b, after⟩ => ⟨b, before ++ after⟩

/-- The computation that only writes one entry. -/
def entry (e : ε) : Logged ε Unit := ⟨(), [e]⟩

@[ext] theorem ext {x y : Logged ε α} (hValue : x.value = y.value) (hLog : x.log = y.log) : x = y := by
  cases x
  cases y
  simp_all

@[simp] theorem value_pure (a : α) : (pure a : Logged ε α).value = a := rfl

@[simp] theorem log_pure (a : α) : (pure a : Logged ε α).log = [] := rfl

@[simp] theorem value_bind (x : Logged ε α) (f : α → Logged ε β) :
    (x >>= f).value = (f x.value).value := rfl

@[simp] theorem log_bind (x : Logged ε α) (f : α → Logged ε β) :
    (x >>= f).log = x.log ++ (f x.value).log := rfl

@[simp] theorem value_entry (e : ε) : (entry e).value = () := rfl

@[simp] theorem log_entry (e : ε) : (entry e).log = [e] := rfl

instance : LawfulMonad (Logged ε) := LawfulMonad.mk' (Logged ε)
  (fun x => ext rfl (List.append_nil x.log))
  (fun _ _ => ext rfl rfl)
  (fun x f g => ext rfl (List.append_assoc x.log (f x.value).log (g (f x.value).value).log))

@[simp] theorem value_map (f : α → β) (x : Logged ε α) : (f <$> x).value = f x.value := rfl

@[simp] theorem log_map (f : α → β) (x : Logged ε α) : (f <$> x).log = x.log :=
  List.append_nil x.log

end Logged
end TLang
