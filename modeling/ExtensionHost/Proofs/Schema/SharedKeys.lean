import Mathlib.Data.List.Nodup
import ExtensionHost.Proofs.Schema.Isolation

namespace ExtensionHost

namespace PropertyKeys

/-- The second table has the names of the first one under the same keys. -/
structure Extends (t t' : PropertyKeys) : Prop where
  base : t'.base = t.base
  names : t.names <+: t'.names

variable {t t' t'' : PropertyKeys} {name : String} {key : PropertyKey}

theorem extends_refl (t : PropertyKeys) : t.Extends t := ⟨rfl, List.prefix_refl _⟩

theorem Extends.trans (h : t.Extends t') (h' : t'.Extends t'') : t.Extends t'' :=
  ⟨h'.base.trans h.base, h.names.trans h'.names⟩

theorem extends_append (t : PropertyKeys) (name : String) : t.Extends (t.append name).1 := by
  unfold append add
  split
  · exact t.extends_refl
  · exact ⟨rfl, List.prefix_append _ _⟩

theorem Extends.key? (h : t.Extends t') (hkey : t.key? name = some key) :
    t'.key? name = some key := by
  obtain ⟨hmem, hidx⟩ := key?_eq_some_iff.1 hkey
  obtain ⟨suffix, hnames⟩ := h.names
  refine key?_eq_some_iff.2 ⟨hnames ▸ List.mem_append_left _ hmem, ?_⟩
  rw [← hnames, List.idxOf_append, if_pos hmem, h.base, hidx]

theorem name?_eq_some_iff : t.name? key = some name ↔ t.key? name = some key := by
  rw [key?_eq_some_iff]
  unfold name?
  constructor
  · intro h
    split at h
    · cases h
    · rename_i hbase
      obtain ⟨hlt, hname⟩ := List.getElem?_eq_some_iff.1 h
      subst hname
      refine ⟨List.getElem_mem hlt, ?_⟩
      rw [t.nodup.idxOf_getElem]
      exact Nat.add_sub_cancel' (Nat.le_of_not_lt hbase)
  · rintro ⟨hmem, rfl⟩
    rw [if_neg (Nat.not_lt.2 (Nat.le_add_right ..)), Nat.add_sub_cancel_left]
    exact List.getElem?_eq_some_iff.2
      ⟨List.idxOf_lt_length_of_mem hmem, List.getElem_idxOf _⟩

theorem append_of_extends (h : (t.append name).1.Extends t') :
    t'.append name = (t', (t.append name).2) := by
  obtain ⟨hmem, hkey⟩ := key?_eq_some_iff.1 (h.key? (t.key?_append name))
  unfold append at hkey ⊢
  simp only [add, hmem, dif_pos, hkey]

end PropertyKeys

namespace ComponentTable

section Filing

variable {ν : Type} {t' : PropertyKeys}

def file (r : PropertyKeys × SortedMap PropertyKey ν) (e : String × ν) :
    PropertyKeys × SortedMap PropertyKey ν :=
  ((r.1.append e.1).1, r.2.insert (r.1.append e.1).2 e.2)

theorem extends_foldl_file (named : List (String × ν))
    (r : PropertyKeys × SortedMap PropertyKey ν) : r.1.Extends (named.foldl file r).1 := by
  induction named generalizing r with
  | nil => exact r.1.extends_refl
  | cons e rest ih => exact (r.1.extends_append e.1).trans (ih (file r e))

theorem extends_fileByKey (keys : PropertyKeys) (named : List (String × ν)) :
    keys.Extends (fileByKey keys named).1 :=
  extends_foldl_file named (keys, .empty)

/-- Once all names have their keys, filing again finds the same places. -/
theorem foldl_file_again (named : List (String × ν)) (keys : PropertyKeys)
    (filed : SortedMap PropertyKey ν) (h : (named.foldl file (keys, filed)).1.Extends t') :
    named.foldl file (t', filed) = (t', (named.foldl file (keys, filed)).2) := by
  induction named generalizing keys filed with
  | nil => rfl
  | cons e rest ih =>
    have happend := PropertyKeys.append_of_extends
      ((extends_foldl_file rest (file (keys, filed) e)).trans h)
    have hfile : file (t', filed) e = (t', (file (keys, filed) e).2) := by
      simp only [file, happend]
    rw [List.foldl_cons, hfile]
    exact ih _ _ h

theorem fileByKey_again {keys : PropertyKeys} {named : List (String × ν)}
    (h : (fileByKey keys named).1.Extends t') :
    fileByKey t' named = (t', (fileByKey keys named).2) :=
  foldl_file_again named keys .empty h

theorem nodup_filed (filed : SortedMap PropertyKey ν) :
    (filed.entries.map fun e => (some e.1, e.2)).Nodup := by
  apply List.Nodup.of_map Prod.fst
  have hkeys := filed.nodup_keys.map fun _ _ => Option.some.inj
  simpa [SortedMap.keys, Function.comp_def] using hkeys

variable {keys : PropertyKeys} {filed : SortedMap PropertyKey ν} {named : List (String × ν)}

theorem nodup_named (h : Filed keys filed named) (hn : (named.map (·.1)).Nodup) :
    (named.map fun e => (keys.key? e.1, e.2)).Nodup := by
  apply List.Nodup.of_map Prod.fst
  rw [List.map_map, List.nodup_iff_pairwise_ne, List.pairwise_map]
  refine (List.pairwise_map.1 hn).imp_of_mem fun ha hb hne heq => hne ?_
  obtain ⟨key, _, hkey, -⟩ := h.complete _ ha
  exact PropertyKeys.key?_inj hkey (heq.symm.trans hkey)

theorem perm_of_filed (h : Filed keys filed named) (hn : (named.map (·.1)).Nodup) :
    (filed.entries.map fun e => (some e.1, e.2)).Perm
      (named.map fun e => (keys.key? e.1, e.2)) := by
  refine (List.perm_ext_iff_of_nodup (nodup_filed filed) (nodup_named h hn)).2 fun x => ?_
  constructor
  · intro hx
    obtain ⟨⟨key, v⟩, hmem, rfl⟩ := List.mem_map.1 hx
    obtain ⟨name, hname, hkey⟩ := h.sound key v (SortedMap.get?_eq_some_iff_mem.2 hmem)
    exact List.mem_map.2 ⟨(name, v), hname, by simp [hkey]⟩
  · intro hx
    obtain ⟨⟨name, v⟩, hmem, rfl⟩ := List.mem_map.1 hx
    obtain ⟨key, w, hkey, hw⟩ := h.complete _ hmem
    obtain ⟨name', hmem', hkey'⟩ := h.sound key w hw
    -- What is on file under the key has come with the name, and so only once.
    obtain rfl : name = name' := PropertyKeys.key?_inj hkey hkey'
    obtain rfl : v = w := by
      have hfirst := InsertionMap.lookup_eq_some_of_mem hn hmem
      rw [InsertionMap.lookup_eq_some_of_mem hn hmem'] at hfirst
      exact (Option.some.inj hfirst).symm
    exact List.mem_map.2 ⟨(key, v), SortedMap.get?_eq_some_iff_mem.1 hw, by simp [hkey]⟩

end Filing

end ComponentTable

namespace Property

/-- The properties that a component declares and that make sense, by name. -/
def acceptedOf (entry : Json) : List (String × Property) :=
  (((entry.fields.get? "properties").bind Json.asObject?).getD .empty).entries.filterMap fun e =>
    (read? e.2).map (e.1, ·)

theorem readAll_eq (owner : String) (definitions : List (String × Json)) :
    (readAll owner definitions).1 = definitions.filterMap fun e => (read? e.2).map (e.1, ·) := by
  induction definitions with
  | nil => rfl
  | cons e rest ih =>
    simp only [readAll]
    split <;> simp [*]

theorem nodup_acceptedOf (entry : Json) : ((acceptedOf entry).map (·.1)).Nodup :=
  (SortedMap.filterMap _ read?).nodup_keys

end Property

namespace ComponentTable

/-- A component as the table of keys has it: the keys of its handlers lead to their names, and there
is one entry under the key of each property that its declaration names, with that definition. -/
structure Keyed (keys : PropertyKeys) (entry : Json) (c : ComponentDefinition) : Prop where
  name : entry.fields.nonemptyString? "name" = some c.name
  handlers : ∀ key h, c.eventHandlers.get? key = some h → keys.name? key = some h.name
  properties : (c.properties.entries.map fun e => (some e.1, e.2)).Perm
    ((Property.acceptedOf entry).map fun e => (keys.key? e.1, e.2))

theorem Keyed.of_extends {keys keys' : PropertyKeys} {entry : Json} {c : ComponentDefinition}
    (h : Keyed keys entry c) (hle : keys.Extends keys') : Keyed keys' entry c where
  name := h.name
  handlers key g hg := by
    have hkey := PropertyKeys.name?_eq_some_iff.1 (h.handlers key g hg)
    exact PropertyKeys.name?_eq_some_iff.2 (hle.key? hkey)
  properties := by
    refine h.properties.trans (.of_eq (List.map_congr_left fun e he => ?_))
    -- The name has a key already, or it would not be among the entries.
    have hmem : (keys.key? e.1, e.2) ∈ c.properties.entries.map fun e => (some e.1, e.2) :=
      h.properties.mem_iff.2 (List.mem_map.2 ⟨e, he, rfl⟩)
    obtain ⟨d, -, hd⟩ := List.mem_map.1 hmem
    have hkey : keys.key? e.1 = some d.1 := (congrArg Prod.fst hd).symm
    rw [hkey, hle.key? hkey]

def isComponent (entry : Json) : Bool :=
  (entry.fields.nonemptyString? "name").isSome &&
    match entry.fields.present? "events" with
    | none | some (.array _) => true
    | some _ => false

variable {uri : String} {types : TypeTable} {table : ComponentTable} {entry : Json}
  {t' : PropertyKeys}

theorem keyed_readNamed (uri : String) (types : TypeTable) (table : ComponentTable)
    {name : String} (hname : entry.fields.nonemptyString? "name" = some name)
    (events : List Json) :
    ∃ c, (readNamed uri types table name entry.fields events).1.components =
        table.components ++ [c] ∧
      Keyed (readNamed uri types table name entry.fields events).1.keys entry c ∧
      table.keys.Extends (readNamed uri types table name entry.fields events).1.keys := by
  let named := (HandlerTable.readAll uri .components table.modes events).1.handlers.map
    fun h => (h.name, h)
  let own := (Property.readAll name
    (((entry.fields.get? "properties").bind Json.asObject?).getD .empty).entries).1
  have hhandlers := filed_fileByKey table.keys named
  have hgrown := extends_fileByKey (fileByKey table.keys named).1 own
  unfold readNamed
  refine ⟨_, rfl, ⟨hname, fun key h hh => ?_, ?_⟩, (extends_fileByKey ..).trans hgrown⟩
  · obtain ⟨a, ha, hkey⟩ := hhandlers.sound key h hh
    obtain ⟨g, -, he⟩ := List.mem_map.1 ha
    cases he
    exact PropertyKeys.name?_eq_some_iff.2 (hgrown.key? hkey)
  · have hown : own = Property.acceptedOf entry := Property.readAll_eq ..
    have hfiled := filed_fileByKey (fileByKey table.keys named).1 own
    rw [← hown]
    exact perm_of_filed hfiled (hown ▸ Property.nodup_acceptedOf entry)

theorem readNamed_again {name : String} {fields : Object} {events : List Json}
    (h : (readNamed uri types table name fields events).1.keys.Extends t') :
    readNamed uri types { table with keys := t' } name fields events =
      ({ (readNamed uri types table name fields events).1 with keys := t' },
        (readNamed uri types table name fields events).2) := by
  unfold readNamed at h ⊢
  dsimp only at h ⊢
  rw [fileByKey_again ((extends_fileByKey ..).trans h), fileByKey_again h]

theorem readEntry_uniform (uri : String) (types : TypeTable) (entry : Json) :
    (isComponent entry = false ∧ ∃ warning, ∀ table,
      readEntry uri types table entry = (table, [warning])) ∨
    (isComponent entry = true ∧ ∃ name events, entry.fields.nonemptyString? "name" = some name ∧
      ∀ table, readEntry uri types table entry =
        readNamed uri types table name entry.fields events) := by
  unfold readEntry isComponent
  cases hfields : entry.asObject? with
  | none =>
    rw [Json.fields_of_asObject?_eq_none hfields]
    exact .inl ⟨rfl, _, fun _ => rfl⟩
  | some fields =>
    rw [Json.fields_of_asObject? hfields]
    cases hname : fields.nonemptyString? "name" with
    | none => exact .inl ⟨rfl, _, fun _ => by simp only [hname]; rfl⟩
    | some name =>
      cases hevents : fields.present? "events" with
      | none => exact .inr ⟨rfl, name, [], rfl, fun _ => by simp only [hname, hevents]⟩
      | some v =>
        cases v with
        | array events =>
          exact .inr ⟨rfl, name, events, rfl, fun _ => by simp only [hname, hevents]⟩
        | null | bool | number | string | object =>
          exact .inl ⟨rfl, _, fun _ => by simp only [hname, hevents]; rfl⟩

theorem keyed_readEntries (uri : String) (types : TypeTable) (entries : List Json)
    (table : ComponentTable) :
    ∃ added, (readEntries (readEntry uri types) table entries).1.components =
        table.components ++ added ∧
      List.Forall₂ (Keyed (readEntries (readEntry uri types) table entries).1.keys)
        (entries.filter isComponent) added ∧
      table.keys.Extends (readEntries (readEntry uri types) table entries).1.keys := by
  induction entries generalizing table with
  | nil => exact ⟨[], (List.append_nil _).symm, .nil, table.keys.extends_refl⟩
  | cons entry rest ih =>
    rcases readEntry_uniform uri types entry with
      ⟨hno, warning, hr⟩ | ⟨hyes, name, events, hname, hr⟩
    · simp only [readEntries, hr, List.filter_cons, hno]
      exact ih table
    · obtain ⟨c, hc, hkeyed, hle⟩ := keyed_readNamed uri types table hname events
      obtain ⟨added, hadded, hrest, hle'⟩ :=
        ih (readNamed uri types table name entry.fields events).1
      simp only [readEntries, hr, List.filter_cons, hyes, if_true]
      refine ⟨c :: added, ?_, .cons (hkeyed.of_extends hle') hrest, hle.trans hle'⟩
      rw [hadded, hc, List.append_assoc]
      rfl

theorem readEntries_again (uri : String) (types : TypeTable) (entries : List Json)
    (table : ComponentTable)
    (h : (readEntries (readEntry uri types) table entries).1.keys.Extends t') :
    readEntries (readEntry uri types) { table with keys := t' } entries =
      ({ (readEntries (readEntry uri types) table entries).1 with keys := t' },
        (readEntries (readEntry uri types) table entries).2) := by
  induction entries generalizing table with
  | nil => rfl
  | cons entry rest ih =>
    rcases readEntry_uniform uri types entry with ⟨-, warning, hr⟩ | ⟨-, name, events, -, hr⟩
    · simp only [readEntries, hr] at h ⊢
      rw [ih table h]
    · simp only [readEntries, hr] at h ⊢
      obtain ⟨-, -, -, hle⟩ := keyed_readEntries uri types rest
        (readNamed uri types table name entry.fields events).1
      rw [readNamed_again (hle.trans h)]
      dsimp only
      rw [ih _ h]

end ComponentTable

namespace Schema

variable {maxVersion : String} {keys t' : PropertyKeys} {document : Json} {r : Reading}

theorem exists_componentsOf (uri version : String) (document : Object) :
    ∃ types commands events liveData earlier, ∀ keys,
      readBody keys uri version document =
        (finishComponents uri version types events liveData
          (componentsOf keys uri document types commands events).1).warned
            (earlier ++ (componentsOf keys uri document types commands events).2) := by
  let types := typesOf document
  let commands := commandsOf uri document types.1
  let events := eventsOf uri document
  let liveData := liveDataOf document types.1
  refine ⟨types.1, commands.1, events.1, liveData.1,
    types.2 ++ commands.2 ++ events.2 ++ liveData.2, fun keys => ?_⟩
  rw [readBody_eq]
  simp only [finishTypes, finishCommands, finishEvents, finishLiveData, Reading.warned_warned]
  simp only [← List.append_assoc]
  rfl

theorem keyed_of_read (h : read maxVersion keys document = .ok r) :
    List.Forall₂ (ComponentTable.Keyed r.keys)
        ((entriesOf document.fields .components).1.filter ComponentTable.isComponent)
        r.schema.components ∧
      keys.Extends r.keys := by
  obtain ⟨fields, uri, version, hfields, -, rfl⟩ := read_eq_ok_iff.1 h
  obtain ⟨types, commands, events, liveData, earlier, hbody⟩ :=
    exists_componentsOf uri version fields
  obtain ⟨added, hadded, hkeyed, hle⟩ := ComponentTable.keyed_readEntries uri types
    (entriesOf fields .components).1 ⟨[], commands, events.modes, keys⟩
  rw [Json.fields_of_asObject? hfields, hbody]
  rw [List.nil_append] at hadded
  refine ⟨?_, hle⟩
  rw [← hadded] at hkeyed
  exact hkeyed

theorem read_again (h : read maxVersion keys document = .ok r) (hle : r.keys.Extends t') :
    read maxVersion t' document = .ok { r with keys := t' } := by
  obtain ⟨fields, uri, version, hfields, headed, rfl⟩ := read_eq_ok_iff.1 h
  obtain ⟨types, commands, events, liveData, earlier, hbody⟩ :=
    exists_componentsOf uri version fields
  refine read_eq_ok_iff.2 ⟨fields, uri, version, hfields, headed, ?_⟩
  rw [hbody keys] at hle
  have hagain := ComponentTable.readEntries_again uri types
    (entriesOf fields .components).1 ⟨[], commands, events.modes, keys⟩ hle
  have hcomponents : componentsOf t' uri fields types commands events =
      ({ (componentsOf keys uri fields types commands events).1 with keys := t' },
        (componentsOf keys uri fields types commands events).2) := by
    simp only [entriesOf_eq] at hagain
    simp only [componentsOf, readPart, hagain]
  rw [hbody, hbody, hcomponents]
  rfl

end Schema

/-- What readers and others do with a table of keys that they share. -/
inductive KeyUse where
  | read (maxVersion : String) (document : Json)
  | append (name : String)

namespace PropertyKeys

/-- The table after a use. A document that cannot be read leaves it alone. -/
def used (t : PropertyKeys) : KeyUse → PropertyKeys
  | .read maxVersion document =>
    match Schema.read maxVersion t document with
    | .ok r => r.keys
    | .error _ => t
  | .append name => (t.append name).1

def usedFor (t : PropertyKeys) (uses : List KeyUse) : PropertyKeys := uses.foldl used t

theorem extends_used (t : PropertyKeys) (use : KeyUse) : t.Extends (t.used use) := by
  cases use with
  | read maxVersion document =>
    simp only [used]
    split
    case h_1 r hr => exact (Schema.keyed_of_read hr).2
    case h_2 => exact t.extends_refl
  | append name => exact t.extends_append name

theorem extends_usedFor (t : PropertyKeys) (uses : List KeyUse) : t.Extends (t.usedFor uses) := by
  induction uses generalizing t with
  | nil => exact t.extends_refl
  | cons use rest ih => exact (t.extends_used use).trans (ih (t.used use))

/-- The components of a document that is read from a shared table keep their places in the table,
whatever it is used for before and afterwards. There is one component for each entry that stands for
one, and it has its keys, so that no property takes the place of another one. Reading the document
again gives the same schema with the same warnings, and the table stays as it is. -/
theorem keys_settled (t : PropertyKeys) (earlier later : List KeyUse) {maxVersion : String}
    {document : Json} {r : Schema.Reading}
    (h : Schema.read maxVersion (t.usedFor earlier) document = .ok r) :
    let keys := t.usedFor (earlier ++ .read maxVersion document :: later)
    List.Forall₂ (ComponentTable.Keyed keys)
        ((Schema.entriesOf document.fields .components).1.filter ComponentTable.isComponent)
        r.schema.components ∧
      Schema.read maxVersion keys document = .ok { r with keys } := by
  have hkeys : t.usedFor (earlier ++ .read maxVersion document :: later) =
      r.keys.usedFor later := by
    simp only [usedFor] at h
    simp only [usedFor, List.foldl_append, List.foldl_cons, used, h]
  have hle := extends_usedFor r.keys later
  rw [hkeys]
  exact ⟨(Schema.keyed_of_read h).1.imp fun entry c hkeyed => hkeyed.of_extends hle,
    Schema.read_again h hle⟩

/-- The width has had the first key since before the player was read. -/
theorem keys_settled_player :
    let keys := (startingAt 1).usedFor
      ([.append "width"] ++ .read "1.0" Schema.playerDocument :: [.append "height"])
    keys.names = ["width", "moved", "height"] ∧ ∃ r entry c,
      Schema.read "1.0" ((startingAt 1).usedFor [.append "width"]) Schema.playerDocument = .ok r ∧
        r.schema.components = [c] ∧ (c.properties.get? 1).isSome ∧
        ComponentTable.Keyed keys entry c ∧
        Schema.read "1.0" keys Schema.playerDocument = .ok { r with keys } := by
  intro keys
  have hread : ∃ r c,
      Schema.read "1.0" ((startingAt 1).usedFor [.append "width"]) Schema.playerDocument = .ok r ∧
        r.schema.components = [c] ∧ (c.properties.get? 1).isSome :=
    ⟨_, _, rfl, rfl, by decide +kernel⟩
  obtain ⟨r, c, hr, hc, hwidth⟩ := hread
  obtain ⟨hkeyed, hagain⟩ := keys_settled (startingAt 1) [.append "width"] [.append "height"] hr
  rw [hc] at hkeyed
  obtain ⟨entry, _, hentry, -, -⟩ := List.forall₂_cons_right_iff.1 hkeyed
  exact ⟨by decide +kernel, r, entry, c, hr, hc, hwidth, hentry, hagain⟩

end PropertyKeys

end ExtensionHost
