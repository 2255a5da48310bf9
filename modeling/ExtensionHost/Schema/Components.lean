import ExtensionHost.Schema.Commands
import ExtensionHost.Schema.Handlers

namespace ExtensionHost

/-- The components read so far, and what they share with the rest of the schema and with other
schemas: commands, event modes and property keys. -/
structure ComponentTable where
  components : List ComponentDefinition
  commands : List CommandDefinition
  modes : InsertionMap String EventMode
  keys : PropertyKeys

namespace ComponentTable

/-- Files each value under the key of its name. A later value of the same key replaces an earlier
one. -/
def fileByKey {ν : Type} (keys : PropertyKeys) (named : List (String × ν)) :
    PropertyKeys × SortedMap PropertyKey ν :=
  named.foldl (fun (keys, filed) (name, v) =>
    let (keys, key) := keys.append name
    (keys, filed.insert key v)) (keys, .empty)

def readCommands (uri : String) (types : TypeTable) (name : String) (fields : Object) :
    List CommandDefinition × List SchemaWarning :=
  match fields.present? "commands" with
  | none => ([], [])
  | some (.array entries) => CommandDefinition.readAll uri types entries
  | some _ => ([], [.invalidEntry .components (.badComponentCommands name)])

/-- Reads a component whose `events` are well formed; its commands and handlers are read first,
then its properties. -/
def readNamed (uri : String) (types : TypeTable) (table : ComponentTable) (name : String)
    (fields : Object) (events : List Json) : ComponentTable × List SchemaWarning :=
  let (commands, badCommands) := readCommands uri types name fields
  let (handlers, badHandlers) := HandlerTable.readAll uri .components table.modes events
  let (keys, eventHandlers) := fileByKey table.keys (handlers.handlers.map fun h => (h.name, h))
  let definitions := ((fields.get? "properties").bind Json.asObject?).getD .empty
  let (own, badProperties) := Property.readAll name definitions.entries
  let (keys, properties) := fileByKey keys own
  let component : ComponentDefinition := {
    uri, name, properties, eventHandlers, commands
    resourceType := fields.string? "resourceType"
    visualContext := (fields.string? "context").getD "" }
  ({ components := table.components ++ [component]
     commands := table.commands ++ commands
     modes := handlers.modes
     keys }, badCommands ++ badHandlers ++ badProperties)

def readEntry (uri : String) (types : TypeTable) : EntryReader ComponentTable := fun table entry =>
  match entry.asObject? with
  | none => (table, [.invalidEntry .components .componentNotObject])
  | some fields =>
    match fields.nonemptyString? "name" with
    | none => (table, [.invalidEntry .components .unnamedComponent])
    | some name =>
      match fields.present? "events" with
      | none => readNamed uri types table name fields []
      | some (.array events) => readNamed uri types table name fields events
      | some _ => (table, [.invalidEntry .components (.badComponentEvents name)])

end ComponentTable

end ExtensionHost
