import ExtensionHost.Schema.Basic

namespace ExtensionHost

inductive SchemaPart where
  | types
  | commands
  | events
  | liveData
  | components
  deriving DecidableEq

def SchemaPart.name : SchemaPart → String
  | types => "types"
  | commands => "commands"
  | events => "events"
  | liveData => "liveData"
  | components => "components"

inductive SchemaError where
  | notObject
  | unsupportedType (found : String)
  | unsupportedVersion (version max : String)
  | missingUri
  deriving DecidableEq

def SchemaError.text : SchemaError → String
  | notObject => "schema must be an object"
  | unsupportedType found => s!"unsupported schema type '{found}'"
  | unsupportedVersion version max =>
    s!"unsupported extension schema version '{version}' (max {max})"
  | missingUri => "missing or invalid extension URI"

inductive EntryFault where
  | incompleteType
  | commandNotObject
  | unnamedCommand
  | unnamedHandler
  | unnamedLiveData
  | untypedLiveData (name : String)
  | componentNotObject
  | unnamedComponent
  | badComponentEvents (name : String)
  | badComponentCommands (name : String)
  deriving DecidableEq

def EntryFault.text : EntryFault → String
  | incompleteType => "a type needs a name and a properties map"
  | commandNotObject => "a command must be an object"
  | unnamedCommand => "a command needs a name"
  | unnamedHandler => "an event handler needs a name"
  | unnamedLiveData => "a live data binding needs a name"
  | untypedLiveData name => s!"live data '{name}' needs a type"
  | componentNotObject => "a component must be an object"
  | unnamedComponent => "a component needs a name"
  | badComponentEvents name => s!"component '{name}' has a malformed 'events' block"
  | badComponentCommands name => s!"component '{name}' has a malformed 'commands' block"

/-- A part of a schema document that was skipped or replaced by a default. -/
inductive SchemaWarning where
  | malformedSection (part : SchemaPart)
  | invalidEntry (part : SchemaPart) (fault : EntryFault)
  | duplicate (part : SchemaPart) (name : String)
  | unknownParentType (typeName parent : String)
  | invalidProperty (owner property : String)
  | unknownPayloadType (command payload : String)
  | invalidLiveDataType (name typeName : String)
  | invalidInitialData (name : String) (kind : LiveKind)
  | invalidTriggerProperties (name : String)
  deriving DecidableEq

def SchemaWarning.text : SchemaWarning → String
  | malformedSection part => s!"malformed '{part.name}' block"
  | invalidEntry part fault => s!"invalid entry in '{part.name}': {fault.text}"
  | duplicate part name => s!"duplicate {part.name} definition '{name}' ignored"
  | unknownParentType typeName parent => s!"unknown type '{parent}' extended by type '{typeName}'"
  | invalidProperty owner property => s!"invalid property '{property}' of '{owner}'"
  | unknownPayloadType command payload =>
    s!"command '{command}' references unknown payload type '{payload}'"
  | invalidLiveDataType name typeName =>
    s!"data type '{typeName}' for live data '{name}' is invalid"
  | invalidInitialData name .array => s!"initial data for live data '{name}' should be an array"
  | invalidInitialData name .object => s!"initial data for live data '{name}' should be a map"
  | invalidTriggerProperties name =>
    s!"trigger properties for live data '{name}' should be an array"

/-- Reads one entry of a list. The table is handed on as the reader leaves it, together with the
warnings that it has given, whether it has accepted the entry or passed it over. -/
abbrev EntryReader (σ : Type) := σ → Json → σ × List SchemaWarning

def readEntries {σ : Type} (read : EntryReader σ) : σ → List Json → σ × List SchemaWarning
  | state, [] => (state, [])
  | state, entry :: rest =>
    let (next, warnings) := read state entry
    let (final, more) := readEntries read next rest
    (final, warnings ++ more)

def SortedMap.flag (o : Object) (field : String) (default : Bool) : Bool :=
  match o.present? field with
  | none => default
  | some v => truthy v

end ExtensionHost
