import ExtensionHost.Proofs.Schema.Isolation

namespace ExtensionHost

namespace LiveDefinition

section Brackets

variable {c : Char} {l p rest : List Char}

theorem beforeBrackets?_of_start (h : ['[', ']'] <+: l) : beforeBrackets? l = some [] := by
  obtain ⟨rest, rfl⟩ := h
  rfl

theorem beforeBrackets?_cons (h : ¬ ['[', ']'] <+: c :: rest) :
    beforeBrackets? (c :: rest) = (beforeBrackets? rest).map (c :: ·) := by
  rw [beforeBrackets?]
  rintro later rfl rfl
  exact h ⟨later, rfl⟩

theorem beforeBrackets?_eq_none_iff : beforeBrackets? l = none ↔ ¬ ['[', ']'] <:+: l := by
  induction l with
  | nil => simp [beforeBrackets?]
  | cons c rest ih =>
    by_cases h : ['[', ']'] <+: c :: rest
    · simp [beforeBrackets?_of_start h, h.isInfix]
    · rw [beforeBrackets?_cons h, Option.map_eq_none_iff, ih, List.infix_cons_iff]
      simp [h]

theorem beforeBrackets?_eq_some_iff : beforeBrackets? l = some p ↔
    (∃ rest, l = p ++ ['[', ']'] ++ rest) ∧ ¬ ['[', ']'] <:+: p ++ ['['] := by
  induction l generalizing p with
  | nil => simp [beforeBrackets?]
  | cons c rest ih =>
    by_cases h : ['[', ']'] <+: c :: rest
    · rw [beforeBrackets?_of_start h, Option.some.injEq]
      constructor
      · rintro rfl
        obtain ⟨later, hlater⟩ := h
        exact ⟨⟨later, hlater.symm⟩, by decide⟩
      · rintro ⟨⟨later, hlater⟩, hfirst⟩
        cases p with
        | nil => rfl
        | cons d p =>
          -- The brackets at the start would be inside what comes before them.
          refine (hfirst (List.IsPrefix.isInfix ?_)).elim
          refine List.prefix_of_prefix_length_le h ?_ (by simp)
          exact ⟨']' :: later, by simp [hlater]⟩
    · rw [beforeBrackets?_cons h, Option.map_eq_some_iff]
      constructor
      · rintro ⟨q, hq, rfl⟩
        obtain ⟨⟨later, rfl⟩, hfirst⟩ := ih.1 hq
        refine ⟨⟨later, rfl⟩, ?_⟩
        rw [List.cons_append, List.infix_cons_iff, not_or]
        exact ⟨fun hstart => h (hstart.trans ⟨']' :: later, by simp⟩), hfirst⟩
      · rintro ⟨⟨later, hlater⟩, hfirst⟩
        cases p with
        | nil => exact (h ⟨later, hlater.symm⟩).elim
        | cons d p =>
          obtain ⟨rfl, rfl⟩ := List.cons.inj hlater
          rw [List.cons_append, List.infix_cons_iff, not_or] at hfirst
          exact ⟨p, ih.2 ⟨⟨later, rfl⟩, hfirst.2⟩, rfl⟩

end Brackets

/-- Whether there are brackets anywhere in a text. -/
def Bracketed (s : String) : Prop := ['[', ']'] <:+: s.toList

/-- What a declared type stands for: with brackets an array of what comes before the first ones,
without any an object of the type. -/
inductive Declares : String → LiveKind → String → Prop
  | array (element rest : String) (first : ¬ Bracketed (element ++ "[")) :
    Declares (element ++ "[]" ++ rest) .array element
  | object (type : String) (none : ¬ Bracketed type) : Declares type .object type

/-- What a declared type would stand for if brackets counted only at its end. -/
def suffixKind (declared : String) : LiveKind × String :=
  if ['[', ']'] <:+ declared.toList then
    (.array, String.ofList declared.toList.dropLast.dropLast)
  else (.object, declared)

theorem kindOf_eq_iff {declared typeName : String} {kind : LiveKind} :
    kindOf declared = (kind, typeName) ↔ Declares declared kind typeName := by
  unfold kindOf
  constructor
  · intro h
    split at h
    · rename_i name hname
      obtain ⟨⟨rest, hrest⟩, hfirst⟩ := beforeBrackets?_eq_some_iff.1 hname
      cases h
      have hdeclared : declared = String.ofList name ++ "[]" ++ String.ofList rest := by
        simp [← String.toList_inj, hrest]
      rw [hdeclared]
      exact .array _ _ (by simpa [Bracketed] using hfirst)
    · rename_i hnone
      cases h
      exact .object _ (beforeBrackets?_eq_none_iff.1 hnone)
  · intro h
    cases h with
    | array _ rest hfirst =>
      have hsome : beforeBrackets? (typeName ++ "[]" ++ rest).toList = some typeName.toList :=
        beforeBrackets?_eq_some_iff.2 ⟨⟨rest.toList, by simp⟩, by simpa [Bracketed] using hfirst⟩
      simp only [hsome, String.ofList_toList]
    | object _ hnone => simp only [beforeBrackets?_eq_none_iff.2 hnone]

theorem suffixKind_eq_array_iff {declared element : String} :
    suffixKind declared = (.array, element) ↔ declared = element ++ "[]" := by
  unfold suffixKind
  constructor
  · intro h
    split at h
    · rename_i hsuffix
      obtain ⟨name, hname⟩ := hsuffix
      have helement : String.ofList name = element := by simpa [← hname] using h
      simp [← String.toList_inj, ← helement, ← hname]
    · cases h
  · rintro rfl
    have hsuffix : ['[', ']'] <:+ (element ++ "[]").toList := ⟨element.toList, by simp⟩
    rw [if_pos hsuffix]
    simp

theorem kindOf_eq_suffixKind_iff {declared : String} : kindOf declared = suffixKind declared ↔
    ∀ element rest, declared = element ++ "[]" ++ rest → rest = "" := by
  have hkind : Declares declared (kindOf declared).1 (kindOf declared).2 := kindOf_eq_iff.1 rfl
  generalize kindOf declared = k at hkind ⊢
  obtain ⟨kind, typeName⟩ := k
  cases hkind with
  | array _ rest hfirst =>
    constructor
    · intro h element later hlater
      rw [suffixKind_eq_array_iff.1 h.symm, ← String.toList_inj] at hlater
      -- If something followed, there would be brackets before the ones that are the first.
      rcases List.eq_nil_or_concat later.toList with hnil | ⟨init, last, hlast⟩
      · exact String.toList_eq_nil_iff.1 hnil
      · have hinit : typeName.toList ++ ['['] = element.toList ++ ['[', ']'] ++ init := by
          have hends : (typeName.toList ++ ['[']) ++ [']'] =
              (element.toList ++ ['[', ']'] ++ init) ++ [last] := by
            simpa [hlast] using hlater
          exact (List.append_inj' hends rfl).1
        exact (hfirst ⟨element.toList, init, by simp [hinit]⟩).elim
    · intro h
      obtain rfl := h typeName rest rfl
      exact (suffixKind_eq_array_iff.2 (by simp)).symm
  | object _ hnone =>
    have hsuffix : ¬ ['[', ']'] <:+ typeName.toList := fun h => hnone h.isInfix
    rw [suffixKind, if_neg hsuffix]
    refine iff_of_true rfl fun element rest hdeclared => ?_
    have hdeclared : typeName = element ++ "[]" ++ rest := hdeclared
    exact (hnone ⟨element.toList, rest.toList, by simp [hdeclared]⟩).elim

/-- The types of items and of objects: declared types, and for items bindings, too. -/
def KnownType (types : TypeTable) (kind : LiveKind) (typeName : String) : Prop :=
  types.contains typeName ∨ kind = .array ∧ (Binding.ofName? typeName).isSome

instance (types : TypeTable) (kind : LiveKind) (typeName : String) :
    Decidable (KnownType types kind typeName) := inferInstanceAs (Decidable (_ ∨ _ ∧ _))

section Entries

variable {types : TypeTable} {liveData : InsertionMap String LiveDefinition} {entry : Json}
  {name declared typeName : String} {kind : LiveKind}

theorem isSome_typeProperties? :
    (typeProperties? types kind typeName).isSome ↔ KnownType types kind typeName := by
  unfold typeProperties? KnownType InsertionMap.contains
  cases types.get? typeName with
  | some properties => simp
  | none => cases kind <;> simp

theorem readEntry_of_known (hname : entry.fields.nonemptyString? "name" = some name)
    (htype : entry.fields.string? "type" = some declared) (hnew : ¬ liveData.contains name)
    (hkind : kindOf declared = (kind, typeName)) (hknown : KnownType types kind typeName) :
    ∃ d warnings, readEntry types liveData entry = (liveData.insert name d, warnings) ∧
      d.kind = kind ∧ d.typeName = typeName := by
  obtain ⟨type, hproperties⟩ := Option.isSome_iff_exists.1 (isSome_typeProperties?.2 hknown)
  simp only [readEntry, hname, htype, hnew, hkind, hproperties]
  exact ⟨_, _, rfl, rfl, rfl⟩

theorem readEntry_of_unknown (hname : entry.fields.nonemptyString? "name" = some name)
    (htype : entry.fields.string? "type" = some declared) (hnew : ¬ liveData.contains name)
    (hkind : kindOf declared = (kind, typeName)) (hknown : ¬ KnownType types kind typeName) :
    readEntry types liveData entry = (liveData, [.invalidLiveDataType name typeName]) := by
  have hproperties : typeProperties? types kind typeName = none := by
    simpa using mt isSome_typeProperties?.1 hknown
  simp [readEntry, hname, htype, hnew, hkind, hproperties]

theorem get?_readEntries {d : LiveDefinition} (h : liveData.get? name = some d)
    (entries : List Json) :
    (readEntries (readEntry types) liveData entries).1.get? name = some d := by
  refine readEntries_induction (P := fun next : InsertionMap String LiveDefinition =>
    next.get? name = some d) (fun next entry h => ?_) entries h
  rcases readEntry_cases types next entry with ⟨_, hr⟩ | ⟨other, e, _, -, hnew, -, -, hr⟩ <;>
    rw [hr]
  · exact h
  · have hne : name ≠ other := by
      rintro rfl
      simp [InsertionMap.contains, h] at hnew
    rw [InsertionMap.get?_insert, if_neg hne, h]

end Entries

end LiveDefinition

namespace Schema

open LiveDefinition (kindOf Declares KnownType suffixKind kindOf_eq_iff kindOf_eq_suffixKind_iff)

theorem readBody_liveData (keys : PropertyKeys) (uri version : String) (document : Object) :
    let r := readBody keys uri version document
    let live := readEntries (LiveDefinition.readEntry r.schema.types) .empty
      (entriesOf document .liveData).1
    r.schema.liveData = live.1 ∧ ∀ warning ∈ live.2, warning ∈ r.warnings := by
  refine ⟨rfl, fun warning h => ?_⟩
  simp only [readBody, List.mem_append]
  exact .inl (.inl (.inr h))

/-- How a document's live data comes to its kind and its type, for an entry with a name that is new
and a declared type. With brackets in the declared type it is an array, and the type of its items is
what comes before the first brackets; it has to be a declared type or a binding. Without brackets it
is an object, of a type that has to be declared. Otherwise the entry is left out with a warning. To
look for brackets at the end only would give the same unless there are some that something
follows. -/
theorem kind_by_first_brackets {maxVersion : String} {keys : PropertyKeys} {document : Json}
    {r : Reading} (h : read maxVersion keys document = .ok r)
    {before after : List Json} {entry : Json}
    (hentries : (entriesOf document.fields .liveData).1 = before ++ entry :: after)
    {name declared : String} (hname : entry.fields.nonemptyString? "name" = some name)
    (htype : entry.fields.string? "type" = some declared)
    (hnew : ¬ (readEntries (LiveDefinition.readEntry r.schema.types) .empty before).1.contains
      name) :
    ∃ kind typeName, Declares declared kind typeName ∧
      (KnownType r.schema.types kind typeName → ∃ d, r.schema.liveData? name = some d ∧
        d.kind = kind ∧ d.typeName = typeName) ∧
      (¬ KnownType r.schema.types kind typeName →
        r.schema.liveData =
          (readEntries (LiveDefinition.readEntry r.schema.types) .empty (before ++ after)).1 ∧
        .invalidLiveDataType name typeName ∈ r.warnings) ∧
      (suffixKind declared = (kind, typeName) ↔
        ∀ element rest, declared = element ++ "[]" ++ rest → rest = "") := by
  obtain ⟨fields, uri, version, hfields, -, rfl⟩ := read_eq_ok_iff.1 h
  rw [Json.fields_of_asObject? hfields] at hentries
  obtain ⟨hlive, hwarnings⟩ := readBody_liveData keys uri version fields
  generalize readBody keys uri version fields = r at hnew hlive hwarnings ⊢
  rw [hentries] at hlive hwarnings
  generalize hkind : kindOf declared = k
  obtain ⟨kind, typeName⟩ := k
  refine ⟨kind, typeName, kindOf_eq_iff.1 hkind, fun hknown => ?_, fun hknown => ?_, ?_⟩
  · obtain ⟨d, warnings, hread, hd⟩ :=
      LiveDefinition.readEntry_of_known hname htype hnew hkind hknown
    refine ⟨d, ?_, hd⟩
    rw [liveData?, hlive, readEntries_append, readEntries, hread]
    exact LiveDefinition.get?_readEntries (by simp) after
  · have hread := LiveDefinition.readEntry_of_unknown hname htype hnew hkind hknown
    simp only [readEntries_append, readEntries, hread] at hlive hwarnings ⊢
    exact ⟨hlive, hwarnings _ (by simp)⟩
  · rw [← hkind, eq_comm]
    exact kindOf_eq_suffixKind_iff

theorem kind_by_first_brackets_player : ∃ r, read "1.0" (.startingAt 1) playerDocument = .ok r ∧
    ¬ (readEntries (LiveDefinition.readEntry r.schema.types) .empty []).1.contains "queue" ∧
    ∃ d, r.schema.liveData? "queue" = some d ∧ d.kind = .array ∧ d.typeName = "Track" := by
  have hread : ∃ r entry, read "1.0" (.startingAt 1) playerDocument = .ok r ∧
      (entriesOf playerDocument.fields .liveData).1 = [] ++ [entry] ∧
      entry.fields.nonemptyString? "name" = some "queue" ∧
      entry.fields.string? "type" = some "Track[]" ∧ r.schema.types.contains "Track" :=
    ⟨_, _, rfl, rfl, by decide +kernel, by decide +kernel, by decide +kernel⟩
  obtain ⟨r, entry, hr, hentries, hname, htype, hdeclared⟩ := hread
  have hnew : ¬ (readEntries (LiveDefinition.readEntry r.schema.types) .empty []).1.contains
      "queue" := by simp [readEntries, InsertionMap.contains]
  obtain ⟨kind, typeName, hkind, hknown, -⟩ :=
    kind_by_first_brackets hr hentries hname htype hnew
  have hqueue : kindOf "Track[]" = (.array, "Track") := by decide +kernel
  obtain ⟨rfl, rfl⟩ := Prod.mk.inj (hqueue.symm.trans (kindOf_eq_iff.2 hkind))
  exact ⟨r, hr, hnew, hknown (.inl hdeclared)⟩

def levelsDocument : Json :=
  .object [("type", .string "Schema"), ("version", .string "1.0"), ("uri", .string "mixer"),
    ("liveData", .object [("name", .string "levels"), ("type", .string "number[]x")])]

/-- What follows the brackets is dropped. The declared type does not end in brackets, and there is
no object type of this name either. -/
theorem text_after_brackets_dropped : ∃ r d,
    read "1.0" (.startingAt 1) levelsDocument = .ok r ∧ r.schema.liveData? "levels" = some d ∧
      d.kind = .array ∧ d.typeName = "number" ∧
      suffixKind "number[]x" = (.object, "number[]x") ∧
      ¬ KnownType r.schema.types .object "number[]x" := by
  exact ⟨_, _, rfl, rfl, by decide +kernel⟩

end Schema

end ExtensionHost
