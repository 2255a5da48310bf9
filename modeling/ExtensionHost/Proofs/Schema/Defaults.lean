import ExtensionHost.Proofs.Schema.Reading

namespace ExtensionHost

namespace Binding

/-- The values of the shape that a binding stands for. -/
def Admits (b : Binding) (v : Json) : Prop :=
  match b with
  | any | object | component => True
  | boolean => ∃ x, v = .bool x
  | number => ∃ n, v = .number n
  | integer => ∃ n h, v = .number (.integer n h) ∧
      -0x8000000000000000 ≤ n ∧ n < 0x8000000000000000
  | string | styledText | color => ∃ s, v = .string s
  | array => ∃ items, v = .array items
  | map => ∃ fields, v = .object fields
  | dimension | absoluteDimension | relativeDimension =>
    (∃ n, v = .number n) ∨ ∃ s, v = .string s

theorem toInteger_eq (v : Json) : ∃ n h, toInteger v = .integer n h ∧
    -0x8000000000000000 ≤ n ∧ n < 0x8000000000000000 := by
  unfold toInteger
  split
  · rename_i b _
    have hmem := b.toSigned_mem
    exact ⟨b.toSigned, by omega, rfl, hmem⟩
  · exact ⟨0, by decide, rfl, by decide, by decide⟩

theorem admits_toDimension {default : Json} (h : dimension.Admits default) (v : Json) :
    dimension.Admits (toDimension default v) := by
  unfold toDimension
  split
  · exact .inl ⟨_, rfl⟩
  · exact .inr ⟨_, rfl⟩
  · exact h

theorem admits_coerce (b : Binding) (v : Json) : b.Admits (b.coerce v) := by
  cases b with
  | any | object | component => trivial
  | boolean | number | string | styledText | array => exact ⟨_, rfl⟩
  | integer =>
    obtain ⟨n, h, hv, hmem⟩ := toInteger_eq v
    exact ⟨n, h, congrArg Json.number hv, hmem⟩
  | map | color =>
    simp only [Admits, coerce]
    split <;> exact ⟨_, rfl⟩
  | dimension | relativeDimension => exact admits_toDimension (.inr ⟨_, rfl⟩) v
  | absoluteDimension => exact admits_toDimension (.inl ⟨_, rfl⟩) v

end Binding

namespace Property

def Fits (p : Property) : Prop := p.binding.Admits p.default

theorem fits_read? {v : Json} {p : Property} (h : read? v = some p) : p.Fits := by
  unfold read? at h
  split at h
  · cases h
    exact Binding.admits_coerce _ _
  · dsimp only at h
    split at h
    · cases h
      exact Binding.admits_coerce _ _
    · cases h

theorem fits_readAll (owner : String) (definitions : List (String × Json)) :
    ∀ e ∈ (readAll owner definitions).1, e.2.Fits := by
  induction definitions with
  | nil => simp [readAll]
  | cons d rest ih =>
    obtain ⟨name, definition⟩ := d
    simp only [readAll]
    split
    · rename_i p hp
      rintro e (_ | ⟨_, he⟩)
      · exact fits_read? hp
      · exact ih e he
    · exact ih

end Property

namespace TypeTable

def Fit (types : TypeTable) : Prop := ∀ type ∈ types.values, ∀ p ∈ type.values, p.Fits

theorem fit_empty : Fit .empty := by
  intro type h
  cases h

variable {types next : TypeTable}

theorem fits_inherited (h : types.Fit) (name : String) (parent : Option String) :
    ∀ p ∈ (types.inherited name parent).1.values, p.Fits := by
  unfold inherited
  split
  · intro p hp
    cases hp
  · split
    · rename_i type htype
      exact h type (InsertionMap.mem_values_iff.2 ⟨_, htype⟩)
    · intro p hp
      cases hp

theorem fits_override {own : List (String × Property)} (hown : ∀ e ∈ own, e.2.Fits)
    {inherited : Properties} (h : ∀ p ∈ inherited.values, p.Fits) :
    ∀ p ∈ (override inherited own).values, p.Fits := by
  induction own generalizing inherited with
  | nil => exact h
  | cons e rest ih =>
    apply ih fun e' he' => hown e' (List.mem_cons_of_mem _ he')
    exact InsertionMap.forall_mem_values_insert h (hown e (List.mem_cons_self ..)) e.1

theorem readEntry_cases (types : TypeTable) (entry : Json) :
    Skips readEntry types entry ∨ ∃ name type warnings,
      entry.fields.nonemptyString? "name" = some name ∧ ¬ types.contains name ∧
      (types.Fit → ∀ p ∈ type.values, p.Fits) ∧
      readEntry types entry = (types.insert name type, warnings) := by
  unfold Skips readEntry
  dsimp only
  split
  · rename_i name _ hname _
    split
    · exact .inl ⟨_, rfl⟩
    · rename_i hnew
      refine .inr ⟨name, _, _, hname, hnew, fun h => ?_, rfl⟩
      exact fits_override (Property.fits_readAll _ _) (fits_inherited h _ _)
  · exact .inl ⟨_, rfl⟩

theorem fit_readEntries (entries : List Json) :
    Fit (readEntries readEntry .empty entries).1 := by
  refine readEntries_induction (fun types entry h => ?_) entries fit_empty
  rcases readEntry_cases types entry with ⟨_, hr⟩ | ⟨name, type, _, -, -, htype, hr⟩ <;> rw [hr]
  · exact h
  · exact InsertionMap.forall_mem_values_insert h (htype h) name

end TypeTable

end ExtensionHost
