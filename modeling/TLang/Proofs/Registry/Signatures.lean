import TLang.Proofs.Registry.Outline

/-! Signatures as texts. Where neither the names of methods nor those of classes hold the separator,
and no class is named like a type of another kind, a signature can be read back: it determines the
name and the types it was made of. -/
namespace TLang.Registry

variable {r : Registry}

/-- The sign between the parts of a signature. -/
def separator : Char := '$'

/-- A name that cannot be taken for several parts of a signature. -/
def Unseparated (name : String) : Prop := separator ∉ name.toList

instance (name : String) : Decidable (Unseparated name) :=
  inferInstanceAs (Decidable (separator ∉ name.toList))

/-- What types other than classes are called. -/
def reservedNames : List String := ["int", "null", "notype", "error", "deref"]

/-- Names by which a class can be told from all other types and from several parts of a signature. -/
def ClassName (name : String) : Prop := Unseparated name ∧ name ∉ reservedNames

instance (name : String) : Decidable (ClassName name) :=
  inferInstanceAs (Decidable (Unseparated name ∧ name ∉ reservedNames))

/-- The part of a signature behind the name. -/
def parameterText (r : Registry) (params : List Ty) : List Char :=
  params.flatMap fun ty => separator :: (r.typeName ty).toList

/-- A signature is the name followed by the types of the parameters, each behind a separator. Destructors have
another form. -/
theorem toList_signature (r : Registry) (name : String) {kind : MethodKind}
    (hKind : kind ≠ .destructor) (params : List Ty) :
    (r.signature name kind params).toList = name.toList ++ r.parameterText params := by
  have hFold : ∀ text : String,
      (params.foldl (fun text ty => text ++ "$" ++ r.typeName ty) text).toList =
        text.toList ++ r.parameterText params := by
    induction params with
    | nil => simp [parameterText]
    | cons ty params ih =>
      intro text
      rw [List.foldl_cons, ih]
      simp [parameterText, separator]
  cases kind with
  | destructor => exact absurd rfl hKind
  | method | constructor => exact hFold name

theorem takeWhile_append_of_unseparated {name : String} (hName : Unseparated name)
    {rest : List Char} (hRest : rest.takeWhile (· ≠ separator) = []) :
    (name.toList ++ rest).takeWhile (· ≠ separator) = name.toList := by
  have hPass : ∀ x ∈ name.toList, decide (x ≠ separator) = true := by
    intro x hx
    rw [decide_eq_true_iff]
    rintro rfl
    exact hName hx
  rw [List.takeWhile_append_of_pos hPass, hRest, List.append_nil]

/-- The text up to the first separator is determined. -/
theorem takeWhile_of_unseparated {name : String} (hName : Unseparated name) (r : Registry)
    (params : List Ty) :
    (name.toList ++ r.parameterText params).takeWhile (· ≠ separator) = name.toList := by
  apply takeWhile_append_of_unseparated hName
  cases params <;> simp [parameterText]

/-- The name can be read off a signature, provided that it contains no separator. -/
theorem text_inj {name name' : String} (hName : Unseparated name) (hName' : Unseparated name')
    {params params' : List Ty}
    (h : name.toList ++ r.parameterText params = name'.toList ++ r.parameterText params') :
    name = name' ∧ r.parameterText params = r.parameterText params' := by
  have hHead : name.toList = name'.toList := by
    rw [← takeWhile_of_unseparated hName r params, h, takeWhile_of_unseparated hName' r params']
  refine ⟨String.toList_inj.mp hHead, ?_⟩
  rw [hHead] at h
  exact List.append_cancel_left h

/-- Types that are known by their names are known by the text of their signature. -/
theorem parameterText_inj {params params' : List Ty}
    (hPlain : ∀ ty ∈ params, Unseparated (r.typeName ty))
    (hPlain' : ∀ ty ∈ params', Unseparated (r.typeName ty))
    (hTypes : ∀ ty ∈ params, ∀ ty' ∈ params', r.typeName ty = r.typeName ty' → ty = ty')
    (h : r.parameterText params = r.parameterText params') : params = params' := by
  induction params generalizing params' with
  | nil =>
    cases params' with
    | nil => rfl
    | cons ty' params' => simp [parameterText] at h
  | cons ty params ih =>
    cases params' with
    | nil => simp [parameterText] at h
    | cons ty' params' =>
      simp only [parameterText, List.flatMap_cons, List.cons_append, List.cons.injEq, true_and] at h
      obtain ⟨hName, hRest⟩ := text_inj (hPlain ty (by simp)) (hPlain' ty' (by simp)) h
      rw [hTypes ty (by simp) ty' (by simp) hName]
      congr 1
      exact ih (fun ty hTy => hPlain ty (by simp [hTy])) (fun ty hTy => hPlain' ty (by simp [hTy]))
        (fun ty hTy ty' hTy' => hTypes ty (by simp [hTy]) ty' (by simp [hTy'])) hRest

/-- Signatures that agree have the same name and the same parameters. Names with separators are left out, as two
of them can give one text. -/
theorem signature_inj_of_types {name name' : String} (hName : Unseparated name)
    (hName' : Unseparated name') {kind : MethodKind} (hKind : kind ≠ .destructor)
    {params params' : List Ty} (hPlain : ∀ ty ∈ params, Unseparated (r.typeName ty))
    (hPlain' : ∀ ty ∈ params', Unseparated (r.typeName ty))
    (hTypes : ∀ ty ∈ params, ∀ ty' ∈ params', r.typeName ty = r.typeName ty' → ty = ty')
    (h : r.signature name kind params = r.signature name' kind params') :
    name = name' ∧ params = params' := by
  have hText := congrArg String.toList h
  rw [toList_signature r name hKind, toList_signature r name' hKind] at hText
  obtain ⟨hName, hText⟩ := text_inj hName hName' hText
  exact ⟨hName, parameterText_inj hPlain hPlain' hTypes hText⟩

section ClassNames

variable (hLineal : r.Lineal) (hNames : ∀ name ∈ r.classes.map ClassInfo.name, ClassName name)

include hNames

theorem className_classInfo {c : ClassId} (hc : c.index < r.classes.length) :
    ClassName (r.classInfo c).name := by
  apply hNames
  simp only [classInfo, List.getElem?_eq_getElem hc, Option.getD_some]
  exact List.mem_map_of_mem (List.getElem_mem hc)

/-- The name of a type cannot be taken for several parts of a signature. -/
theorem unseparated_typeName {ty : Ty} (hTy : r.IsValue ty) : Unseparated (r.typeName ty) := by
  rcases hTy.cases with rfl | rfl | ⟨c, rfl, hc⟩
  · show Unseparated "null"
    decide
  · show Unseparated "int"
    decide
  · exact (className_classInfo hNames hc).1

include hLineal

theorem eq_ofClass_of_typeName {ty : Ty} {c : ClassId} (hTy : r.IsValue ty)
    (hc : c.index < r.classes.length) (h : r.typeName ty = (r.classInfo c).name) :
    ty = .ofClass c := by
  have hFree : r.typeName ty ∉ reservedNames := h ▸ (className_classInfo hNames hc).2
  rcases hTy.cases with rfl | rfl | ⟨c', rfl, hc'⟩
  · exact absurd (show "null" ∈ reservedNames by decide) hFree
  · exact absurd (show "int" ∈ reservedNames by decide) hFree
  · rw [hLineal.found.eq_of_name hc' hc h]

/-- A type of a value is known by its name. -/
theorem typeName_inj {ty ty' : Ty} (hTy : r.IsValue ty) (hTy' : r.IsValue ty')
    (h : r.typeName ty = r.typeName ty') : ty = ty' := by
  rcases hTy'.cases with hTy' | hTy' | ⟨c', rfl, hc'⟩
  · rcases hTy.cases with rfl | rfl | ⟨c, rfl, hc⟩
    · exact hTy'.symm
    · rw [hTy'] at h
      exact absurd h (show "int" ≠ "null" by decide)
    · exact (eq_ofClass_of_typeName hLineal hNames (.inl hTy') hc h.symm).symm
  · rcases hTy.cases with rfl | rfl | ⟨c, rfl, hc⟩
    · rw [hTy'] at h
      exact absurd h (show "null" ≠ "int" by decide)
    · exact hTy'.symm
    · exact (eq_ofClass_of_typeName hLineal hNames (hTy' ▸ .inr trivial) hc h.symm).symm
  · exact eq_ofClass_of_typeName hLineal hNames hTy hc' h

/-- A signature determines the name and the types it was made of. -/
theorem signature_inj {name name' : String} (hName : Unseparated name)
    (hName' : Unseparated name') {kind : MethodKind} (hKind : kind ≠ .destructor)
    {params params' : List Ty} (hParams : ∀ ty ∈ params, r.IsValue ty)
    (hParams' : ∀ ty ∈ params', r.IsValue ty)
    (h : r.signature name kind params = r.signature name' kind params') :
    name = name' ∧ params = params' :=
  signature_inj_of_types hName hName' hKind
    (fun _ hTy => unseparated_typeName hNames (hParams _ hTy))
    (fun _ hTy => unseparated_typeName hNames (hParams' _ hTy))
    (fun _ hTy _ hTy' => typeName_inj hLineal hNames (hParams _ hTy) (hParams' _ hTy')) h

end ClassNames

end TLang.Registry
