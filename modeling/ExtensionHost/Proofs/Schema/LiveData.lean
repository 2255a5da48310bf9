import ExtensionHost.Proofs.Schema.Reading

namespace ExtensionHost

theorem SortedMap.mem_of_get?_ofList {κ ν : Type} [Ord κ] [Std.TransOrd κ] [Std.LawfulEqOrd κ]
    {l : List (κ × ν)} {a : κ} {v : ν} (h : (ofList l).get? a = some v) : (a, v) ∈ l := by
  induction l with
  | nil => cases h
  | cons e rest ih =>
    rw [get?_ofList_cons] at h
    rcases Option.or_eq_some_iff.1 h with hrest | ⟨-, he⟩
    · exact List.mem_cons_of_mem _ (ih hrest)
    · split at he
      · rename_i heq
        obtain rfl := Std.LawfulEqOrd.eq_of_compare heq
        cases he
        exact List.mem_cons_self ..
      · cases he

theorem InsertionMap.contains_iff_mem_keys {κ ν : Type} [DecidableEq κ] {m : InsertionMap κ ν}
    {key : κ} : m.contains key ↔ key ∈ m.keys := by
  unfold contains get?
  rw [Option.isSome_iff_ne_none, Ne, lookup_eq_none_iff, not_not]
  rfl

namespace Trigger

/-- A trigger that calls a handler with a name, if any, and watches properties of one type. -/
structure Watches (type : Properties) (t : Trigger) : Prop where
  handler : t.eventHandler ≠ some ""
  properties : ∀ property, (t.properties.get? property).isSome → type.contains property

variable {type : Properties}

theorem watches_empty : Watches type .empty where
  handler := by simp [empty]
  properties := by simp [empty]

theorem contains_of_everyProperty {property : String}
    (h : ((everyProperty type).get? property).isSome) : type.contains property := by
  obtain ⟨collapse, hget⟩ := Option.isSome_iff_exists.1 h
  obtain ⟨name, hname, he⟩ := List.mem_map.1 (SortedMap.mem_of_get?_ofList hget)
  cases he
  exact InsertionMap.contains_iff_mem_keys.2 hname

theorem contains_of_requestedProperties {entries : List Json} {property : String}
    (h : ((requestedProperties type entries).get? property).isSome) : type.contains property := by
  obtain ⟨collapse, hget⟩ := Option.isSome_iff_exists.1 h
  have hmem := SortedMap.get?_eq_some_iff_mem.1 hget
  exact (List.mem_filter.1 hmem).2

theorem watches_read? {live block : String} {events : Object} {t : Trigger}
    {warnings : List SchemaWarning} (h : read? live type events block = some (t, warnings)) :
    t.Watches type := by
  unfold read? at h
  obtain ⟨fields, -, hfields⟩ := Option.map_eq_some_iff.1 h
  cases hfields
  refine ⟨fun hempty => SortedMap.nonemptyString?_ne_empty hempty rfl, fun property hproperty => ?_⟩
  dsimp only at hproperty
  split at hproperty
  · exact contains_of_everyProperty hproperty
  · exact contains_of_requestedProperties hproperty
  · exact contains_of_everyProperty hproperty

end Trigger

namespace LiveDefinition

/-- Live data whose parts agree with each other and with the declared types. -/
structure Sound (types : TypeTable) (d : LiveDefinition) : Prop where
  type : (types.get? d.typeName).isSome ∨
    d.kind = .array ∧ (Binding.ofName? d.typeName).isSome
  array : d.kind = .array → ∃ items, d.initial = .array items
  object : d.kind = .object → ∃ fields, d.initial = .object fields
  triggers : ∀ t ∈ [d.onAdd, d.onUpdate, d.onRemove],
    t.Watches ((types.get? d.typeName).getD .empty)

/-- The contents that are declared. -/
inductive Begins (d : LiveDefinition) : Json → Prop
  | array {items : List Json} (hkind : d.kind = .array) (hinitial : d.initial = .array items) :
      Begins d (.array items)
  | object {fields : List (String × Json)} (hkind : d.kind = .object)
      (hinitial : d.initial = .object fields) : Begins d (.ofObject (.ofList fields))

theorem Sound.exists_begins {types : TypeTable} {d : LiveDefinition} (h : d.Sound types) :
    ∃ v, d.Begins v := by
  cases hkind : d.kind with
  | array =>
    obtain ⟨items, hinitial⟩ := h.array hkind
    exact ⟨_, .array hkind hinitial⟩
  | object =>
    obtain ⟨fields, hinitial⟩ := h.object hkind
    exact ⟨_, .object hkind hinitial⟩

theorem typeProperties?_eq_some {types : TypeTable} {kind : LiveKind} {typeName : String}
    {type : Properties} (h : typeProperties? types kind typeName = some type) :
    (types.get? typeName).getD .empty = type ∧
      ((types.get? typeName).isSome ∨ kind = .array ∧ (Binding.ofName? typeName).isSome) := by
  unfold typeProperties? at h
  split at h
  · rename_i htype
    cases h
    simp [htype]
  · rename_i htype
    obtain ⟨b, hb, rfl⟩ := Option.map_eq_some_iff.1 h
    simp [htype, hb]
  · cases h

theorem initialData_shape (name : String) (kind : LiveKind) (data : Option Json) :
    (kind = .array → ∃ items, (initialData name kind data).1 = .array items) ∧
      (kind = .object → ∃ fields, (initialData name kind data).1 = .object fields) := by
  unfold initialData
  split
  · exact ⟨fun _ => ⟨_, rfl⟩, nofun⟩
  · exact ⟨nofun, fun _ => ⟨_, rfl⟩⟩
  · cases kind with
    | array => exact ⟨fun _ => ⟨_, rfl⟩, nofun⟩
    | object => exact ⟨nofun, fun _ => ⟨_, rfl⟩⟩

theorem watches_triggers (live : String) (type : Properties) (events : Object) :
    ∀ t ∈ [(triggers live type events).1.1, (triggers live type events).1.2.1,
      (triggers live type events).1.2.2], t.Watches type := by
  have hread : ∀ r : Option (Trigger × List SchemaWarning),
      (∀ x, r = some x → Trigger.Watches type x.1) →
      Trigger.Watches type ((r.map (·.1)).getD .empty) := by
    intro r hr
    cases r with
    | none => exact Trigger.watches_empty
    | some x => exact hr x rfl
  have hblock : ∀ block x, Trigger.read? live type events block = some x → x.1.Watches type :=
    fun block x hx => Trigger.watches_read? hx
  simp only [triggers, List.mem_cons, List.not_mem_nil, or_false]
  rintro t (rfl | rfl | rfl)
  · exact hread _ (hblock "add")
  · refine hread _ fun x hx => ?_
    rcases Option.or_eq_some_iff.1 hx with hset | ⟨-, hupdate⟩
    · exact hblock "set" x hset
    · exact hblock "update" x hupdate
  · exact hread _ (hblock "remove")

theorem readEntry_cases (types : TypeTable) (liveData : InsertionMap String LiveDefinition)
    (entry : Json) :
    Skips (readEntry types) liveData entry ∨ ∃ name d warnings,
      entry.fields.nonemptyString? "name" = some name ∧ ¬ liveData.contains name ∧
      d.name = name ∧ d.Sound types ∧
      readEntry types liveData entry = (liveData.insert name d, warnings) := by
  unfold Skips readEntry
  split
  · exact .inl ⟨_, rfl⟩
  · split
    · exact .inl ⟨_, rfl⟩
    · split
      · exact .inl ⟨_, rfl⟩
      · dsimp only
        split
        · exact .inl ⟨_, rfl⟩
        · rename_i name hname _ declared _ hnew _ type htype
          obtain ⟨rfl, hdeclared⟩ := typeProperties?_eq_some htype
          obtain ⟨harray, hobject⟩ :=
            initialData_shape name (kindOf declared).1 (entry.fields.get? "data")
          refine .inr ⟨name, _, _, hname, hnew, ?_, ?_, rfl⟩
          · rfl
          · exact ⟨hdeclared, harray, hobject, watches_triggers name _ _⟩

/-- Definitions of live data that are stored under their own names. -/
def SelfNamed (liveData : InsertionMap String LiveDefinition) : Prop :=
  ∀ name d, liveData.get? name = some d → d.name = name

theorem selfNamed_empty : SelfNamed .empty := by
  intro name d h
  simp at h

theorem selfNamed_insert {liveData : InsertionMap String LiveDefinition} {name : String}
    {d : LiveDefinition} (h : SelfNamed liveData) (hd : d.name = name) :
    SelfNamed (liveData.insert name d) := by
  intro a e he
  rw [InsertionMap.get?_insert] at he
  split at he
  · rename_i ha
    cases he
    rw [hd, ha]
  · exact h a e he

theorem selfNamed_readEntries (types : TypeTable) (entries : List Json) :
    SelfNamed (readEntries (readEntry types) .empty entries).1 := by
  refine readEntries_induction (fun liveData entry h => ?_) entries selfNamed_empty
  rcases readEntry_cases types liveData entry with ⟨_, hr⟩ | ⟨name, d, _, -, -, hd, -, hr⟩ <;>
    rw [hr]
  · exact h
  · exact selfNamed_insert h hd

theorem sound_readEntries (types : TypeTable) (entries : List Json) :
    ∀ d ∈ (readEntries (readEntry types) .empty entries).1.values, d.Sound types := by
  refine readEntries_induction
    (P := fun (liveData : InsertionMap String LiveDefinition) =>
      ∀ d ∈ liveData.values, d.Sound types)
    (fun liveData entry h => ?_) entries (fun d hd => by cases hd)
  rcases readEntry_cases types liveData entry with ⟨_, hr⟩ | ⟨name, d, _, -, -, -, hd, hr⟩ <;>
    rw [hr]
  · exact h
  · exact InsertionMap.forall_mem_values_insert h hd name

end LiveDefinition

namespace Schema

theorem selfNamed_of_read {maxVersion : String} {keys : PropertyKeys} {document : Json}
    {r : Reading} (h : read maxVersion keys document = .ok r) :
    LiveDefinition.SelfNamed r.schema.liveData := by
  obtain ⟨fields, uri, version, -, -, rfl⟩ := read_eq_ok_iff.1 h
  exact LiveDefinition.selfNamed_readEntries _ _

theorem exists_begins_of_read {maxVersion : String} {keys : PropertyKeys} {document : Json}
    {r : Reading} (h : read maxVersion keys document = .ok r) :
    ∀ d ∈ r.schema.liveData.values, ∃ v, d.Begins v := by
  obtain ⟨fields, uri, version, -, -, rfl⟩ := read_eq_ok_iff.1 h
  exact fun d hd => (LiveDefinition.sound_readEntries _ _ d hd).exists_begins

end Schema

end ExtensionHost
