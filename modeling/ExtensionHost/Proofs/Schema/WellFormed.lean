import ExtensionHost.Directory.Basic
import ExtensionHost.Proofs.Schema.Defaults
import ExtensionHost.Proofs.Schema.Filing
import ExtensionHost.Proofs.Schema.LiveData

namespace ExtensionHost

namespace CommandDefinition

/-- A named command of the extension, whose payload, if any, is of a declared type. -/
structure Sound (uri : String) (types : TypeTable) (c : CommandDefinition) : Prop where
  uri : c.uri = uri
  name : c.name ≠ ""
  properties : c.properties = .empty ∨ ∃ type, types.get? type = some c.properties

variable {uri : String} {types : TypeTable}

theorem payloadProperties_eq_ok {command : String} {fields : Object} {properties : Properties}
    (h : payloadProperties types command fields = .ok properties) :
    properties = .empty ∨ ∃ type, types.get? type = some properties := by
  unfold payloadProperties at h
  split at h
  · cases h
    exact .inl rfl
  · split at h
    · rename_i htype
      cases h
      exact .inr ⟨_, htype⟩
    · cases h

theorem readEntry_cases (uri : String) (types : TypeTable) (commands : List CommandDefinition)
    (entry : Json) :
    Skips (readEntry uri types) commands entry ∨ ∃ c : CommandDefinition,
      entry.fields.nonemptyString? "name" = some c.name ∧ c.Sound uri types ∧
      readEntry uri types commands entry = (commands ++ [c], []) := by
  unfold Skips readEntry
  split
  · exact .inl ⟨_, rfl⟩
  · rename_i fields hfields
    rw [Json.fields_of_asObject? hfields]
    split
    · exact .inl ⟨_, rfl⟩
    · rename_i name hname
      split
      · exact .inl ⟨_, rfl⟩
      · rename_i properties hproperties
        refine .inr ⟨_, hname, ?_, rfl⟩
        exact ⟨rfl, SortedMap.nonemptyString?_ne_empty hname, payloadProperties_eq_ok hproperties⟩

theorem sound_readAll (uri : String) (types : TypeTable) (entries : List Json) :
    ∀ c ∈ (readAll uri types entries).1, c.Sound uri types := by
  refine readEntries_induction (P := fun commands : List CommandDefinition =>
    ∀ c ∈ commands, c.Sound uri types) (fun commands entry h => ?_) entries (by simp)
  rcases readEntry_cases uri types commands entry with ⟨_, hr⟩ | ⟨c, -, hc, hr⟩ <;> rw [hr]
  · exact h
  · exact List.forall_mem_append.2 ⟨h, List.forall_mem_singleton.2 hc⟩

end CommandDefinition

/-- A named event handler of the extension. -/
structure HandlerDefinition.Sound (uri : String) (h : HandlerDefinition) : Prop where
  uri : h.uri = uri
  name : h.name ≠ ""

namespace HandlerTable

/-- The handlers of one list, and modes for their names besides the ones there have been. -/
structure Sound (uri : String) (before : InsertionMap String EventMode) (t : HandlerTable) :
    Prop where
  handlers : ∀ h ∈ t.handlers, h.Sound uri
  modes : ∀ name, (t.modes.get? name).isSome ↔
    (before.get? name).isSome ∨ ∃ h ∈ t.handlers, h.name = name

variable {uri : String} {before : InsertionMap String EventMode}

theorem isSome_insertIfNew (modes : InsertionMap String EventMode) (name a : String)
    (mode : EventMode) : ((modes.insertIfNew name mode).get? a).isSome ↔
      (modes.get? a).isSome ∨ name = a := by
  unfold InsertionMap.insertIfNew InsertionMap.contains
  by_cases ha : name = a
  · subst ha
    split <;> simp_all
  · split <;> simp [ha, Ne.symm ha]

theorem readEntry_cases (uri : String) (part : SchemaPart) (t : HandlerTable) (entry : Json) :
    Skips (readEntry uri part) t entry ∨ ∃ name mode,
      entry.fields.nonemptyString? "name" = some name ∧ readEntry uri part t entry =
        (⟨t.handlers ++ [⟨uri, name⟩], t.modes.insertIfNew name mode⟩, []) := by
  unfold Skips readEntry
  split
  · exact .inl ⟨_, rfl⟩
  · rename_i name hname
    exact .inr ⟨name, _, hname, rfl⟩

theorem sound_readAll (uri : String) (part : SchemaPart) (before : InsertionMap String EventMode)
    (entries : List Json) : (readAll uri part before entries).1.Sound uri before := by
  refine readEntries_induction (fun t entry h => ?_) entries ⟨by simp, by simp⟩
  rcases readEntry_cases uri part t entry with ⟨_, hr⟩ | ⟨name, mode, hname, hr⟩ <;> rw [hr]
  · exact h
  · constructor
    · refine List.forall_mem_append.2 ⟨h.handlers, List.forall_mem_singleton.2 ?_⟩
      exact ⟨rfl, SortedMap.nonemptyString?_ne_empty hname⟩
    · intro a
      rw [isSome_insertIfNew, h.modes a]
      simp [or_assoc, or_and_right, exists_or]

end HandlerTable

/-- A named component of the extension, whose handlers and properties are in order and whose
commands are among the given ones. -/
structure ComponentDefinition.Sound (uri : String) (commands : List CommandDefinition)
    (c : ComponentDefinition) : Prop where
  handlers : ∀ h ∈ c.eventHandlers.values, h.Sound uri
  uri : c.uri = uri
  name : c.name ≠ ""
  properties : ∀ p ∈ c.properties.values, p.Fits
  commands : ∀ d ∈ c.commands, d ∈ commands

theorem ComponentDefinition.Sound.mono {uri : String} {commands : List CommandDefinition}
    {c : ComponentDefinition} (h : c.Sound uri commands) (more : List CommandDefinition) :
    c.Sound uri (commands ++ more) :=
  { h with commands := fun d hd => List.mem_append_left _ (h.commands d hd) }

namespace ComponentTable

/-- What is true of the components and of what they share. `handlers` are those of the extension
itself. -/
structure Sound (uri : String) (types : TypeTable) (handlers : List HandlerDefinition)
    (t : ComponentTable) : Prop where
  components : ∀ c ∈ t.components, c.Sound uri t.commands
  commands : ∀ c ∈ t.commands, c.Sound uri types
  modes : ∀ name, (t.modes.get? name).isSome ↔
    ∃ h ∈ handlers ++ t.components.flatMap (·.eventHandlers.values), h.name = name

variable {uri : String} {types : TypeTable} {handlers : List HandlerDefinition}
  {t next : ComponentTable}

theorem sound_readCommands (uri : String) (types : TypeTable) (name : String) (fields : Object) :
    ∀ c ∈ (readCommands uri types name fields).1, c.Sound uri types := by
  unfold readCommands
  split
  · simp
  · exact CommandDefinition.sound_readAll _ _ _
  · simp

theorem mem_of_mem_fileHandlers {keys : PropertyKeys} {named : List HandlerDefinition}
    {h : HandlerDefinition}
    (hh : h ∈ (fileByKey keys (named.map fun h => (h.name, h))).2.values) : h ∈ named := by
  obtain ⟨a, ha⟩ := mem_of_mem_fileByKey hh
  obtain ⟨g, hg, he⟩ := List.mem_map.1 ha
  obtain rfl : g = h := congrArg Prod.snd he
  exact hg

theorem exists_name_fileByKey (keys : PropertyKeys) (named : List HandlerDefinition)
    (name : String) :
    (∃ h ∈ (fileByKey keys (named.map fun h => (h.name, h))).2.values, h.name = name) ↔
      ∃ h ∈ named, h.name = name := by
  constructor
  · rintro ⟨h, hmem, hname⟩
    exact ⟨h, mem_of_mem_fileHandlers hmem, hname⟩
  · rintro ⟨h, hmem, rfl⟩
    have hnamed : (h.name, h) ∈ named.map fun h => (h.name, h) := List.mem_map.2 ⟨h, hmem, rfl⟩
    obtain ⟨w, hw, hname⟩ := exists_mem_fileByKey hnamed
    obtain ⟨g, -, he⟩ := List.mem_map.1 hname
    obtain rfl : g = w := congrArg Prod.snd he
    exact ⟨g, hw, congrArg Prod.fst he⟩

theorem sound_readNamed (h : t.Sound uri types handlers) {name : String} (hname : name ≠ "")
    (fields : Object) (events : List Json) :
    (readNamed uri types t name fields events).1.Sound uri types handlers := by
  have hcommands := sound_readCommands uri types name fields
  have hhandlers := HandlerTable.sound_readAll uri .components t.modes events
  unfold readNamed
  constructor
  · refine List.forall_mem_append.2
      ⟨fun c hc => (h.components c hc).mono _, List.forall_mem_singleton.2 ?_⟩
    refine ⟨fun g hg => ?_, rfl, hname, fun p hp => ?_, fun d hd => List.mem_append_right _ hd⟩
    · exact hhandlers.handlers g (mem_of_mem_fileHandlers hg)
    · obtain ⟨a, ha⟩ := mem_of_mem_fileByKey hp
      exact Property.fits_readAll _ _ _ ha
  · exact List.forall_mem_append.2 ⟨h.commands, hcommands⟩
  · -- Names that are met here come to those of before, and all of them are on file.
    intro a
    have hnames := exists_name_fileByKey t.keys
      (HandlerTable.readAll uri .components t.modes events).1.handlers a
    dsimp only
    rw [hhandlers.modes, h.modes, ← hnames]
    simp only [List.flatMap_append, List.flatMap_singleton, List.mem_append, or_and_right,
      exists_or, or_assoc]

theorem readEntry_cases (uri : String) (types : TypeTable) (t : ComponentTable) (entry : Json) :
    Skips (readEntry uri types) t entry ∨ ∃ name events,
      entry.fields.nonemptyString? "name" = some name ∧
      readEntry uri types t entry = readNamed uri types t name entry.fields events := by
  unfold Skips readEntry
  split
  · exact .inl ⟨_, rfl⟩
  · rename_i fields hfields
    rw [Json.fields_of_asObject? hfields]
    split
    · exact .inl ⟨_, rfl⟩
    · rename_i name hname
      split
      · exact .inr ⟨name, _, hname, rfl⟩
      · exact .inr ⟨name, _, hname, rfl⟩
      · exact .inl ⟨_, rfl⟩

theorem sound_start {commands : List CommandDefinition}
    (hcommands : ∀ c ∈ commands, c.Sound uri types) {events : HandlerTable}
    (hevents : events.Sound uri .empty) (keys : PropertyKeys) :
    Sound uri types events.handlers ⟨[], commands, events.modes, keys⟩ where
  components := by simp
  commands := hcommands
  modes name := by simpa using hevents.modes name

theorem sound_readEntries {start : ComponentTable} (entries : List Json)
    (h : start.Sound uri types handlers) :
    (readEntries (readEntry uri types) start entries).1.Sound uri types handlers := by
  refine readEntries_induction (fun t entry h => ?_) entries h
  rcases readEntry_cases uri types t entry with ⟨_, hr⟩ | ⟨name, events, hname, hr⟩ <;> rw [hr]
  · exact h
  · exact sound_readNamed h (SortedMap.nonemptyString?_ne_empty hname) _ events

end ComponentTable

namespace Schema

def properties (s : Schema) : List Property :=
  s.types.values.flatMap (·.values) ++ s.commands.flatMap (·.properties.values) ++
    s.components.flatMap (·.properties.values)

/-- Everything in a schema has a name and belongs to the extension, and whatever it refers to is
declared. -/
structure WellFormed (s : Schema) : Prop where
  uri : s.uri ≠ ""
  commands : ∀ c ∈ s.commands, c.Sound s.uri s.types
  handlers : ∀ h ∈ Directory.handlersOf s, h.Sound s.uri
  components : ∀ c ∈ s.components, c.Sound s.uri s.commands
  modes : ∀ name, (s.eventMode? name).isSome ↔ ∃ h ∈ Directory.handlersOf s, h.name = name
  liveData : ∀ name d, s.liveData? name = some d → d.name = name ∧ d.Sound s.types
  defaults : ∀ p ∈ s.properties, p.Fits

theorem wellFormed_of_parts {uri : String} (huri : uri ≠ "") (version : String)
    {types : TypeTable} (htypes : types.Fit)
    {events : HandlerTable} (hevents : events.Sound uri .empty)
    {liveData : InsertionMap String LiveDefinition} (hnamed : LiveDefinition.SelfNamed liveData)
    (hlive : ∀ d ∈ liveData.values, d.Sound types)
    {table : ComponentTable} (htable : table.Sound uri types events.handlers)
    (environment : Environment) :
    WellFormed ⟨uri, version, types, table.commands, events.handlers, table.modes, liveData,
      table.components, environment⟩ where
  uri := huri
  commands := htable.commands
  handlers := by
    refine List.forall_mem_append.2 ⟨hevents.handlers, fun h hh => ?_⟩
    obtain ⟨c, hc, hmem⟩ := List.mem_flatMap.1 hh
    exact (htable.components c hc).handlers h hmem
  components := htable.components
  modes := htable.modes
  liveData name d hd := ⟨hnamed name d hd, hlive d (InsertionMap.mem_values_iff.2 ⟨name, hd⟩)⟩
  defaults := by
    intro p hp
    simp only [properties, List.mem_append, List.mem_flatMap] at hp
    rcases hp with (⟨type, htype, hp⟩ | ⟨c, hc, hp⟩) | ⟨c, hc, hp⟩
    · exact htypes type htype p hp
    · -- A command has no properties of its own: they are those of a type.
      rcases (htable.commands c hc).properties with hempty | ⟨name, hname⟩
      · rw [hempty] at hp
        cases hp
      · exact htypes _ (InsertionMap.mem_values_iff.2 ⟨name, hname⟩) p hp
    · exact (htable.components c hc).properties p hp

theorem wellFormed_readBody {uri : String} (huri : uri ≠ "") (keys : PropertyKeys)
    (version : String) (document : Object) :
    (readBody keys uri version document).schema.WellFormed := by
  have hevents := HandlerTable.sound_readAll uri .events .empty (entriesOf document .events).1
  refine wellFormed_of_parts huri version (TypeTable.fit_readEntries _) hevents
    (LiveDefinition.selfNamed_readEntries _ _) (LiveDefinition.sound_readEntries _ _) ?_ _
  apply ComponentTable.sound_readEntries
  exact ComponentTable.sound_start (CommandDefinition.sound_readAll _ _ _) hevents keys

/-- Whatever a document says, the schema that is read from it is well formed. -/
theorem wellFormed_of_read {maxVersion : String} {keys : PropertyKeys} {document : Json}
    {r : Reading} (h : read maxVersion keys document = .ok r) : r.schema.WellFormed := by
  obtain ⟨fields, uri, version, -, hheaded, rfl⟩ := read_eq_ok_iff.1 h
  exact wellFormed_readBody (SortedMap.nonemptyString?_ne_empty hheaded.uri) keys version fields

/-- A document with an entry of every part. The second command asks for a type that there is not. -/
def playerDocument : Json :=
  .object [("type", .string "Schema"), ("version", .string "1.0"), ("uri", .string "player"),
    ("types", .array [.object [("name", .string "Track"),
      ("properties", .object [("title", .string "string"), ("length", .string "integer")])]]),
    ("commands", .array [.object [("name", .string "play"), ("payload", .string "Track")],
      .object [("name", .string "stop"), ("payload", .string "Nothing")]]),
    ("events", .object [("name", .string "started")]),
    ("liveData", .array [.object [("name", .string "queue"), ("type", .string "Track[]"),
      ("events", .object [("add", .object [("eventHandler", .string "queued")])])]]),
    ("components", .array [.object [("name", .string "bar"),
      ("events", .array [.object [("name", .string "moved")]]),
      ("commands", .array [.object [("name", .string "show")]]),
      ("properties", .object [("width", .string "dimension")])]])]

theorem wellFormed_of_read_player : ∃ r,
    read "1.0" (.startingAt 1) playerDocument = .ok r ∧ r.schema.WellFormed ∧
      r.schema.commands.map (·.name) = ["play", "show"] ∧
      (r.schema.eventMode? "moved").isSome := by
  have hread : ∃ r, read "1.0" (.startingAt 1) playerDocument = .ok r ∧
      r.schema.commands.map (·.name) = ["play", "show"] ∧
      (r.schema.eventMode? "moved").isSome := ⟨_, rfl, by decide +kernel, by decide +kernel⟩
  obtain ⟨r, hr, hcommands, hmode⟩ := hread
  exact ⟨r, hr, wellFormed_of_read hr, hcommands, hmode⟩

end Schema

end ExtensionHost
