import ExtensionHost.Proofs.Schema.WellFormed

namespace ExtensionHost

/-- Something that a part of a schema declares. -/
inductive Definition where
  | type (name : String) (properties : Properties)
  | command (definition : CommandDefinition)
  | handler (definition : HandlerDefinition)
  | liveData (definition : LiveDefinition)
  | component (definition : ComponentDefinition)

def Definition.name : Definition → String
  | type name _ => name
  | command c => c.name
  | handler h => h.name
  | liveData d => d.name
  | component c => c.name

section Entries

variable {σ : Type} {read : EntryReader σ} {state : σ} {before : List Json} {entry : Json}

theorem readEntries_append (read : EntryReader σ) (state : σ) (a b : List Json) :
    readEntries read state (a ++ b) =
      ((readEntries read (readEntries read state a).1 b).1,
        (readEntries read state a).2 ++ (readEntries read (readEntries read state a).1 b).2) := by
  induction a generalizing state with
  | nil => rfl
  | cons entry rest ih => simp [readEntries, ih]

/-- What comes before an entry that is passed over and what comes after it is read as if it were
not there. -/
theorem readEntries_of_skips (h : Skips read (readEntries read state before).1 entry) :
    ∃ warning, ∀ after,
      (readEntries read state (before ++ entry :: after)).1 =
          (readEntries read state (before ++ after)).1 ∧
        ∃ a b, (readEntries read state (before ++ after)).2 = a ++ b ∧
          (readEntries read state (before ++ entry :: after)).2 = a ++ warning :: b := by
  obtain ⟨warning, hr⟩ := h
  refine ⟨warning, fun after => ?_⟩
  simp only [readEntries_append, readEntries, hr]
  exact ⟨trivial, _, _, rfl, rfl⟩

/-- An entry adds one definition, of its name, behind the ones there are. -/
def Appends (read : EntryReader σ) (definitions : σ → List Definition) (state : σ)
    (entry : Json) : Prop :=
  ∃ d, definitions (read state entry).1 = definitions state ++ [d] ∧
    entry.fields.nonemptyString? "name" = some d.name

/-- Whatever the table holds, an entry is passed over or adds one definition. -/
def SkipsOrAppends (read : EntryReader σ) (definitions : σ → List Definition) : Prop :=
  ∀ state entry, Skips read state entry ∨ Appends read definitions state entry

variable {definitions : σ → List Definition}

theorem SkipsOrAppends.readEntries (h : SkipsOrAppends read definitions) (state : σ)
    (entries : List Json) :
    ∃ later, later.length ≤ entries.length ∧
      definitions (readEntries read state entries).1 = definitions state ++ later := by
  induction entries generalizing state with
  | nil => exact ⟨[], Nat.le_refl _, (List.append_nil _).symm⟩
  | cons entry rest ih =>
    obtain ⟨later, hlength, hlater⟩ := ih (read state entry).1
    rcases h state entry with ⟨_, hr⟩ | ⟨d, hd, -⟩
    · rw [hr] at hlater
      refine ⟨later, Nat.le_succ_of_le hlength, ?_⟩
      simpa only [ExtensionHost.readEntries, hr] using hlater
    · refine ⟨d :: later, Nat.succ_le_succ hlength, hlater.trans ?_⟩
      rw [hd, List.append_assoc]
      rfl

end Entries

theorem InsertionMap.insertEntry_of_lookup_none {κ ν : Type} [DecidableEq κ] {key : κ}
    {l : List (κ × ν)} (h : lookup key l = none) (value : ν) :
    insertEntry key value l = l ++ [(key, value)] := by
  induction l with
  | nil => rfl
  | cons e rest ih =>
    by_cases hkey : key = e.1
    · simp [lookup, hkey] at h
    · simp only [lookup, hkey, if_false] at h
      simp [insertEntry, hkey, ih h]

theorem InsertionMap.entries_insert_of_new {κ ν : Type} [DecidableEq κ] {m : InsertionMap κ ν}
    {key : κ} (h : ¬ m.contains key) (value : ν) :
    (m.insert key value).entries = m.entries ++ [(key, value)] := by
  refine insertEntry_of_lookup_none ?_ value
  simpa [contains, get?] using h

namespace TypeTable

def definitions (types : TypeTable) : List Definition :=
  types.entries.map fun e => .type e.1 e.2

theorem definitions_insert {types : TypeTable} {name : String} (hnew : ¬ types.contains name)
    (type : Properties) :
    definitions (types.insert name type) = types.definitions ++ [.type name type] := by
  simp only [definitions, InsertionMap.entries_insert_of_new hnew, List.map_append]
  rfl

theorem skipsOrAppends_readEntry : SkipsOrAppends readEntry definitions := by
  intro types entry
  refine (readEntry_cases types entry).imp_right ?_
  rintro ⟨name, type, _, hname, hnew, -, hr⟩
  exact ⟨.type name type, by rw [hr, definitions_insert hnew], hname⟩

end TypeTable

namespace CommandDefinition

theorem skipsOrAppends_readEntry (uri : String) (types : TypeTable) :
    SkipsOrAppends (readEntry uri types) (·.map .command) := by
  intro commands entry
  refine (readEntry_cases uri types commands entry).imp_right ?_
  rintro ⟨c, hname, -, hr⟩
  exact ⟨.command c, by simp [hr], hname⟩

end CommandDefinition

namespace HandlerTable

theorem skipsOrAppends_readEntry (uri : String) (part : SchemaPart) :
    SkipsOrAppends (readEntry uri part) (·.handlers.map .handler) := by
  intro table entry
  refine (readEntry_cases uri part table entry).imp_right ?_
  rintro ⟨name, _, hname, hr⟩
  exact ⟨.handler ⟨uri, name⟩, by simp [hr], hname⟩

end HandlerTable

namespace LiveDefinition

def definitions (liveData : InsertionMap String LiveDefinition) : List Definition :=
  liveData.values.map .liveData

theorem definitions_insert {liveData : InsertionMap String LiveDefinition} {name : String}
    (hnew : ¬ liveData.contains name) (d : LiveDefinition) :
    definitions (liveData.insert name d) = definitions liveData ++ [.liveData d] := by
  simp only [definitions, InsertionMap.values, InsertionMap.entries_insert_of_new hnew,
    List.map_append]
  rfl

theorem skipsOrAppends_readEntry (types : TypeTable) :
    SkipsOrAppends (readEntry types) definitions := by
  intro liveData entry
  refine (readEntry_cases types liveData entry).imp_right ?_
  rintro ⟨name, d, _, hname, hnew, rfl, -, hr⟩
  exact ⟨.liveData d, by rw [hr, definitions_insert hnew], hname⟩

end LiveDefinition

namespace ComponentTable

variable {uri : String} {types : TypeTable}

theorem readNamed_appends (uri : String) (types : TypeTable) (table : ComponentTable)
    (name : String) (fields : Object) (events : List Json) :
    ∃ c : ComponentDefinition, c.name = name ∧
      (readNamed uri types table name fields events).1.components = table.components ++ [c] ∧
      (readNamed uri types table name fields events).1.commands = table.commands ++ c.commands :=
  ⟨_, rfl, rfl, rfl⟩

theorem skipsOrAppends_readEntry (uri : String) (types : TypeTable) :
    SkipsOrAppends (readEntry uri types) (·.components.map .component) := by
  intro table entry
  refine (readEntry_cases uri types table entry).imp_right ?_
  rintro ⟨name, events, hname, hr⟩
  obtain ⟨c, rfl, hcomponents, -⟩ := readNamed_appends uri types table name entry.fields events
  exact ⟨.component c, by simp [hr, hcomponents], hname⟩

theorem commands_readEntries (commands : List CommandDefinition)
    (modes : InsertionMap String EventMode) (keys : PropertyKeys) (entries : List Json) :
    let table := (readEntries (readEntry uri types) ⟨[], commands, modes, keys⟩ entries).1
    table.commands = commands ++ table.components.flatMap (·.commands) := by
  refine readEntries_induction (P := fun table : ComponentTable =>
    table.commands = commands ++ table.components.flatMap (·.commands))
    (fun table entry h => ?_) entries (by simp)
  rcases readEntry_cases uri types table entry with ⟨_, hr⟩ | ⟨name, events, -, hr⟩ <;> rw [hr]
  · exact h
  · obtain ⟨c, -, hcomponents, hcommands⟩ :=
      readNamed_appends uri types table name entry.fields events
    simp [hcomponents, hcommands, h]

end ComponentTable

/-- An object in which a field has another value, or none. -/
def SortedMap.withField (o : Object) (field : String) : Option Json → Object
  | none => o.erase field
  | some v => o.insert field v

@[simp] theorem SortedMap.get?_withField (o : Object) (field a : String) (v : Option Json) :
    (o.withField field v).get? a = if a = field then v else o.get? a := by
  cases v with
  | none => simp [withField, eq_comm (a := a)]
  | some v => simp [withField]

theorem SortedMap.insertEntry_of_lookup {κ ν : Type} [Ord κ] [Std.TransOrd κ] [Std.LawfulEqOrd κ]
    {key : κ} {value : ν} {l : List (κ × ν)} (hs : l.Pairwise fun a b => compare a.1 b.1 = .lt)
    (h : lookup key l = some value) : insertEntry key value l = l := by
  induction l with
  | nil => cases h
  | cons e rest ih =>
    obtain ⟨k, v⟩ := e
    have hp := List.pairwise_cons.1 hs
    by_cases he : compare key k = .eq
    · obtain rfl := Std.LawfulEqOrd.eq_of_compare he
      obtain rfl : v = value := by simpa [lookup] using h
      simp [insertEntry]
    · have hrest : lookup key rest = some value := by simpa [lookup, he] using h
      -- The key is found behind this entry, so it is greater.
      have hgt : compare key k = .gt :=
        Std.OrientedCmp.gt_of_lt (hp.1 _ (mem_of_lookup_eq_some hrest))
      simp [insertEntry, hgt, ih hp.2 hrest]

theorem SortedMap.withField_get? (o : Object) (field : String) :
    o.withField field (o.get? field) = o := by
  cases h : o.get? field with
  | none => exact erase_eq_self h
  | some v => exact ext_entries (insertEntry_of_lookup o.sorted h)

namespace Schema

def ownCommands (s : Schema) : List CommandDefinition :=
  s.commands.take (s.commands.length - (s.components.flatMap (·.commands)).length)

def definitions (s : Schema) : SchemaPart → List Definition
  | .types => TypeTable.definitions s.types
  | .commands => s.ownCommands.map .command
  | .events => s.eventHandlers.map .handler
  | .liveData => LiveDefinition.definitions s.liveData
  | .components => s.components.map .component

@[simp] theorem name_inj {a b : SchemaPart} : a.name = b.name ↔ a = b := by
  cases a <;> cases b <;> decide

def listed (part : SchemaPart) (v : Option Json) : List Json × List SchemaWarning :=
  match v.filter (!·.isNull) with
  | none => ([], [])
  | some (.array entries) => (entries, [])
  | some (.object fields) => ([.object fields], [])
  | some _ => ([], [.malformedSection part])

theorem entriesOf_eq (document : Object) (part : SchemaPart) :
    entriesOf document part = listed part (document.get? part.name) := rfl

def Reading.warned (r : Reading) (warnings : List SchemaWarning) : Reading :=
  { r with warnings := warnings ++ r.warnings }

@[simp] theorem Reading.warned_warned (r : Reading) (a b : List SchemaWarning) :
    (r.warned a).warned b = r.warned (b ++ a) := by
  simp [Reading.warned]

def readPart {σ : Type} (part : SchemaPart) (read : EntryReader σ) (start : σ)
    (v : Option Json) : σ × List SchemaWarning :=
  let (entries, malformed) := listed part v
  let (state, warnings) := readEntries read start entries
  (state, malformed ++ warnings)

section Stages

variable (keys : PropertyKeys) (uri version : String) (document : Object) (types : TypeTable)
  (commands : List CommandDefinition) (events : HandlerTable)
  (liveData : InsertionMap String LiveDefinition) (table : ComponentTable)

def typesOf : TypeTable × List SchemaWarning :=
  readPart .types TypeTable.readEntry .empty (document.get? (SchemaPart.name .types))

def commandsOf : List CommandDefinition × List SchemaWarning :=
  readPart .commands (CommandDefinition.readEntry uri types) []
    (document.get? (SchemaPart.name .commands))

def eventsOf : HandlerTable × List SchemaWarning :=
  readPart .events (HandlerTable.readEntry uri .events) ⟨[], .empty⟩
    (document.get? (SchemaPart.name .events))

def liveDataOf : InsertionMap String LiveDefinition × List SchemaWarning :=
  readPart .liveData (LiveDefinition.readEntry types) .empty
    (document.get? (SchemaPart.name .liveData))

def componentsOf : ComponentTable × List SchemaWarning :=
  readPart .components (ComponentTable.readEntry uri types) ⟨[], commands, events.modes, keys⟩
    (document.get? (SchemaPart.name .components))

def finishComponents : Reading where
  schema := {
    uri, version, types, liveData
    commands := table.commands
    eventHandlers := events.handlers
    eventModes := table.modes
    components := table.components
    environment := .available }
  warnings := []
  keys := table.keys

/-- What becomes of a document whose live data has been read, and so on for the other parts. -/
def finishLiveData : Reading :=
  let (table, warnings) := componentsOf keys uri document types commands events
  (finishComponents uri version types events liveData table).warned warnings

def finishEvents : Reading :=
  let (liveData, warnings) := liveDataOf document types
  (finishLiveData keys uri version document types commands events liveData).warned warnings

def finishCommands : Reading :=
  let (events, warnings) := eventsOf uri document
  (finishEvents keys uri version document types commands events).warned warnings

def finishTypes : Reading :=
  let (commands, warnings) := commandsOf uri document types
  (finishCommands keys uri version document types commands).warned warnings

theorem readBody_eq : readBody keys uri version document =
    (finishTypes keys uri version document (typesOf document).1).warned (typesOf document).2 := by
  simp only [finishTypes, finishCommands, finishEvents, finishLiveData, Reading.warned_warned]
  simp [readBody, typesOf, commandsOf, eventsOf, liveDataOf, componentsOf, readPart, entriesOf_eq,
    finishComponents, Reading.warned, CommandDefinition.readAll, HandlerTable.readAll]

/-- How a part of a document is read, between the parts before it and the ones after it. -/
structure PartReader (part : SchemaPart) where
  State : Type
  read : EntryReader State
  start : State
  earlier : List SchemaWarning
  finish : State → Reading
  definitions : State → List Definition
  finish_definitions : ∀ state, (finish state).schema.definitions part = definitions state
  outcome : SkipsOrAppends read definitions

/-- The reading of a document that has a value in the place of the part. -/
def PartReader.reading {part : SchemaPart} (p : PartReader part) (v : Option Json) : Reading :=
  let (state, warnings) := readPart part p.read p.start v
  ((p.finish state).warned warnings).warned p.earlier

theorem ownCommands_finishEvents :
    (finishEvents keys uri version document types commands events).schema.ownCommands =
      commands := by
  simp [ownCommands, finishEvents, finishLiveData, componentsOf, finishComponents, Reading.warned,
    readPart, ComponentTable.commands_readEntries]

/-- The values of the other parts are those of the document. -/
def partReader : (part : SchemaPart) → PartReader part
  | .types => {
    State := TypeTable
    read := TypeTable.readEntry
    start := .empty
    earlier := []
    finish := finishTypes keys uri version document
    definitions := TypeTable.definitions
    finish_definitions := fun _ => rfl
    outcome := TypeTable.skipsOrAppends_readEntry }
  | .commands =>
    let types := typesOf document
    { State := List CommandDefinition
      read := CommandDefinition.readEntry uri types.1
      start := []
      earlier := types.2
      finish := finishCommands keys uri version document types.1
      definitions := (·.map .command)
      finish_definitions := fun _ => congrArg _ (ownCommands_finishEvents ..)
      outcome := CommandDefinition.skipsOrAppends_readEntry uri types.1 }
  | .events =>
    let types := typesOf document
    let commands := commandsOf uri document types.1
    { State := HandlerTable
      read := HandlerTable.readEntry uri .events
      start := ⟨[], .empty⟩
      earlier := types.2 ++ commands.2
      finish := finishEvents keys uri version document types.1 commands.1
      definitions := (·.handlers.map .handler)
      finish_definitions := fun _ => rfl
      outcome := HandlerTable.skipsOrAppends_readEntry uri .events }
  | .liveData =>
    let types := typesOf document
    let commands := commandsOf uri document types.1
    let events := eventsOf uri document
    { State := InsertionMap String LiveDefinition
      read := LiveDefinition.readEntry types.1
      start := .empty
      earlier := types.2 ++ commands.2 ++ events.2
      finish := finishLiveData keys uri version document types.1 commands.1 events.1
      definitions := LiveDefinition.definitions
      finish_definitions := fun _ => rfl
      outcome := LiveDefinition.skipsOrAppends_readEntry types.1 }
  | .components =>
    let types := typesOf document
    let commands := commandsOf uri document types.1
    let events := eventsOf uri document
    let liveData := liveDataOf document types.1
    { State := ComponentTable
      read := ComponentTable.readEntry uri types.1
      start := ⟨[], commands.1, events.1.modes, keys⟩
      earlier := types.2 ++ commands.2 ++ events.2 ++ liveData.2
      finish := finishComponents uri version types.1 events.1 liveData.1
      definitions := (·.components.map .component)
      finish_definitions := fun _ => rfl
      outcome := ComponentTable.skipsOrAppends_readEntry uri types.1 }

theorem readBody_withField (part : SchemaPart) (v : Option Json) :
    readBody keys uri version (document.withField part.name v) =
      (partReader keys uri version document part).reading v := by
  cases part <;>
    simp [readBody_eq, partReader, PartReader.reading, finishTypes, finishCommands, finishEvents,
      finishLiveData, typesOf, commandsOf, eventsOf, liveDataOf, componentsOf]

end Stages

/-- Two readings that differ in one warning, which only the second one has. -/
structure OneMore (warning : SchemaWarning) (r r' : Reading) : Prop where
  schema : r'.schema = r.schema
  keys : r'.keys = r.keys
  warnings : ∃ a b, r.warnings = a ++ b ∧ r'.warnings = a ++ warning :: b

theorem OneMore.warned {warning : SchemaWarning} {r r' : Reading} (h : OneMore warning r r')
    (earlier : List SchemaWarning) : OneMore warning (r.warned earlier) (r'.warned earlier) where
  schema := h.schema
  keys := h.keys
  warnings := by
    obtain ⟨a, b, hr, hr'⟩ := h.warnings
    exact ⟨earlier ++ a, b, by simp [Reading.warned, hr], by simp [Reading.warned, hr']⟩

theorem oneMore_warned (r : Reading) (warning : SchemaWarning) (a b : List SchemaWarning) :
    OneMore warning (r.warned (a ++ b)) (r.warned (a ++ warning :: b)) where
  schema := rfl
  keys := rfl
  warnings := ⟨a, b ++ r.warnings, by simp [Reading.warned], by simp [Reading.warned]⟩

/-- The entry adds one definition, of its name, behind those of the entries before it. Entries after
it may add theirs, each at most one. -/
def Adds (part : SchemaPart) (reading : Option Json → Reading) (before : List Json)
    (entry : Json) : Prop :=
  ∃ d : Definition, entry.fields.nonemptyString? "name" = some d.name ∧
    ∀ after, ∃ later, later.length ≤ after.length ∧
      (reading (some (.array (before ++ entry :: after)))).schema.definitions part =
        (reading (some (.array before))).schema.definitions part ++ d :: later

/-- The entry leaves a warning and nothing else, whatever comes after it. -/
def Skipped (reading : Option Json → Reading) (before : List Json) (entry : Json) : Prop :=
  ∃ warning, ∀ after, OneMore warning (reading (some (.array (before ++ after))))
    (reading (some (.array (before ++ entry :: after))))

/-- The value cannot stand for a list of entries. -/
def Misshapen : Json → Prop
  | .null | .array _ | .object _ => False
  | _ => True

/-- What entries, and values in the place of a list, do to a reading that depends on the value of a
part. -/
structure Isolated (part : SchemaPart) (reading : Option Json → Reading) : Prop where
  entry : ∀ before entry, Adds part reading before entry ∨ Skipped reading before entry
  misshapen : ∀ v, Misshapen v → OneMore (.malformedSection part) (reading none) (reading (some v))
  null : reading (some .null) = reading none
  lone : ∀ fields, reading (some (.object fields)) = reading (some (.array [.object fields]))

namespace PartReader

variable {part : SchemaPart} (p : PartReader part)

theorem reading_array (entries : List Json) : p.reading (some (.array entries)) =
    ((p.finish (readEntries p.read p.start entries).1).warned
      (readEntries p.read p.start entries).2).warned p.earlier := rfl

theorem definitions_reading (entries : List Json) :
    (p.reading (some (.array entries))).schema.definitions part =
      p.definitions (readEntries p.read p.start entries).1 :=
  p.finish_definitions _

theorem adds_of_appends {before : List Json} {entry : Json}
    (h : Appends p.read p.definitions (readEntries p.read p.start before).1 entry) :
    Adds part p.reading before entry := by
  obtain ⟨d, hd, hname⟩ := h
  refine ⟨d, hname, fun after => ?_⟩
  obtain ⟨later, hlength, hlater⟩ := p.outcome.readEntries
    (p.read (readEntries p.read p.start before).1 entry).1 after
  refine ⟨later, hlength, ?_⟩
  have hnext : (readEntries p.read p.start (before ++ entry :: after)).1 =
      (readEntries p.read (p.read (readEntries p.read p.start before).1 entry).1 after).1 := by
    simp only [readEntries_append, readEntries]
  rw [definitions_reading, definitions_reading, hnext, hlater, hd, List.append_assoc]
  rfl

theorem skipped_of_skips {before : List Json} {entry : Json}
    (h : Skips p.read (readEntries p.read p.start before).1 entry) :
    Skipped p.reading before entry := by
  obtain ⟨warning, hskips⟩ := readEntries_of_skips h
  refine ⟨warning, fun after => ?_⟩
  obtain ⟨hstate, a, b, hwithout, hwith⟩ := hskips after
  rw [reading_array, reading_array, hstate, hwithout, hwith]
  exact (oneMore_warned ..).warned _

theorem isolated_reading : Isolated part p.reading where
  entry before entry := by
    rcases p.outcome (readEntries p.read p.start before).1 entry with hskips | happends
    · exact .inr (p.skipped_of_skips hskips)
    · exact .inl (p.adds_of_appends happends)
  misshapen v hv := by
    cases v with
    | null | array | object => exact hv.elim
    | bool | number | string =>
      exact (oneMore_warned (p.finish p.start) (.malformedSection part) [] []).warned p.earlier
  null := rfl
  lone _ := rfl

end PartReader

theorem headed_withField {maxVersion uri version : String} {document : Object}
    (h : Headed maxVersion document uri version) (part : SchemaPart) (v : Option Json) :
    Headed maxVersion (document.withField part.name v) uri version := by
  have hname : ∀ name ∈ ["type", "version", "uri"], name ≠ part.name := by
    cases part <;> decide
  have hstring : ∀ name ∈ ["type", "version", "uri"],
      (document.withField part.name v).string? name = document.string? name := by
    intro name hmem
    simp [SortedMap.string?, hname name hmem]
  refine ⟨?_, h.supported, ?_, ?_⟩
  · rw [hstring "type" (by simp), h.type]
  · rw [hstring "version" (by simp), h.version]
  · rw [SortedMap.nonemptyString?, hstring "uri" (by simp)]
    exact h.uri

variable {maxVersion : String} {keys : PropertyKeys} {document : Json} {r : Reading}

/-- Whatever a document that can be read has in one of its parts: each entry of the part adds one
definition, or it leaves one warning and might as well not be there. A part that is no list costs
one warning, null is an empty list, and an object a list of one. -/
theorem entries_isolated (h : read maxVersion keys document = .ok r) (part : SchemaPart) :
    ∃ reading : Option Json → Reading,
      reading (document.fields.get? part.name) = r ∧
      (∀ v, read maxVersion keys (.ofObject (document.fields.withField part.name v)) =
        .ok (reading v)) ∧
      Isolated part reading := by
  obtain ⟨fields, uri, version, hfields, headed, rfl⟩ := read_eq_ok_iff.1 h
  rw [Json.fields_of_asObject? hfields]
  refine ⟨(partReader keys uri version fields part).reading, ?_, fun v => ?_,
    (partReader keys uri version fields part).isolated_reading⟩
  · rw [← readBody_withField, SortedMap.withField_get?]
  · rw [← readBody_withField]
    exact read_eq_ok_iff.2 ⟨_, uri, version, Json.asObject?_ofObject _,
      headed_withField headed part v, rfl⟩

/-- The second command of the player asks for a type that there is not. It might as well not be
there. -/
theorem entries_isolated_player : ∃ r play stop r' warning,
    read "1.0" (.startingAt 1) playerDocument = .ok r ∧
      playerDocument.fields.get? (SchemaPart.name .commands) = some (.array [play, stop]) ∧
      read "1.0" (.startingAt 1) (.ofObject (playerDocument.fields.withField
        (SchemaPart.name .commands) (some (.array [play])))) = .ok r' ∧
      OneMore warning r' r := by
  have hplayer : ∃ r play stop r', read "1.0" (.startingAt 1) playerDocument = .ok r ∧
      playerDocument.fields.get? (SchemaPart.name .commands) = some (.array [play, stop]) ∧
      read "1.0" (.startingAt 1) (.ofObject (playerDocument.fields.withField
        (SchemaPart.name .commands) (some (.array [play])))) = .ok r' ∧
      r.schema.ownCommands.length = 1 ∧ r'.schema.ownCommands.length = 1 :=
    ⟨_, _, _, _, rfl, rfl, rfl, by decide +kernel, by decide +kernel⟩
  obtain ⟨r, play, stop, r', hr, hcommands, hr', hone, hone'⟩ := hplayer
  obtain ⟨reading, hreading, hread, hisolated⟩ := entries_isolated hr .commands
  rw [hcommands] at hreading
  obtain rfl : reading (some (.array [play])) = r' := Except.ok.inj ((hread _).symm.trans hr')
  rcases hisolated.entry [play] stop with ⟨d, -, hadds⟩ | ⟨warning, hskipped⟩
  · -- There would be two commands.
    obtain ⟨later, -, hdefinitions⟩ := hadds []
    have hlength := congrArg List.length hdefinitions
    simp only [definitions, List.singleton_append, hreading, List.length_append, List.length_map,
      List.length_cons, hone, hone'] at hlength
    omega
  · have hone := hskipped []
    simp only [List.singleton_append, List.append_nil, hreading] at hone
    exact ⟨r, play, stop, _, warning, hr, hcommands, hr', hone⟩

end Schema

end ExtensionHost
