import ExtensionHost.Schema.Components
import ExtensionHost.Schema.LiveData

namespace ExtensionHost.Schema

/-- The outcome of reading a schema document: the schema, what was skipped, and the property keys
with those of the schema's components. -/
structure Reading where
  schema : Schema
  warnings : List SchemaWarning
  keys : PropertyKeys

/-- The entries of a part. An object stands for a list of one, null for an empty list. -/
def entriesOf (document : Object) (part : SchemaPart) : List Json × List SchemaWarning :=
  match document.present? part.name with
  | none => ([], [])
  | some (.array entries) => (entries, [])
  | some (.object fields) => ([.object fields], [])
  | some _ => ([], [.malformedSection part])

/-- The URI and version of an acceptable document. Versions are compared as text. -/
def readHeader (maxVersion : String) (document : Object) : Except SchemaError (String × String) :=
  let type := (document.string? "type").getD ""
  let version := (document.string? "version").getD ""
  if type ≠ "Schema" then .error (.unsupportedType type)
  else if maxVersion < version then .error (.unsupportedVersion version maxVersion)
  else
    match document.nonemptyString? "uri" with
    | none => .error .missingUri
    | some uri => .ok (uri, version)

def readBody (keys : PropertyKeys) (uri version : String) (document : Object) : Reading :=
  let (typeEntries, w₁) := entriesOf document .types
  let (types, w₂) := readEntries TypeTable.readEntry .empty typeEntries
  let (commandEntries, w₃) := entriesOf document .commands
  let (commands, w₄) := CommandDefinition.readAll uri types commandEntries
  let (eventEntries, w₅) := entriesOf document .events
  let (events, w₆) := HandlerTable.readAll uri .events .empty eventEntries
  let (liveEntries, w₇) := entriesOf document .liveData
  let (liveData, w₈) := readEntries (LiveDefinition.readEntry types) .empty liveEntries
  let (componentEntries, w₉) := entriesOf document .components
  let (table, w₁₀) := readEntries (ComponentTable.readEntry uri types)
    ⟨[], commands, events.modes, keys⟩ componentEntries
  { schema := {
      uri, version, types, liveData
      commands := table.commands
      eventHandlers := events.handlers
      eventModes := table.modes
      components := table.components
      environment := .available }
    warnings := w₁ ++ w₂ ++ w₃ ++ w₄ ++ w₅ ++ w₆ ++ w₇ ++ w₈ ++ w₉ ++ w₁₀
    keys := table.keys }

/-- Reads a schema document and files the names of its components with the property keys. Only its
header can be refused; entries that make no sense are left out with a warning. -/
def load (maxVersion : String) (document : Json) :
    ExceptT SchemaError (StateM PropertyKeys) (Schema × List SchemaWarning) := do
  match document.asObject? with
  | none => throw .notObject
  | some fields =>
    let (uri, version) ← readHeader maxVersion fields
    let reading := readBody (← get) uri version fields
    set reading.keys
    return (reading.schema, reading.warnings)

def read (maxVersion : String) (keys : PropertyKeys) (document : Json) :
    Except SchemaError Reading :=
  let (result, keys) := (load maxVersion document).run.run keys
  result.map fun (schema, warnings) => ⟨schema, warnings, keys⟩

end ExtensionHost.Schema
