import ExtensionHost.Collection.InsertionMap
import ExtensionHost.Schema.Binding
import ExtensionHost.Schema.PropertyKeys

namespace ExtensionHost

structure Property where
  binding : Binding
  default : Json
  required : Bool
  deriving DecidableEq

/-- The properties of a type. A property that overrides an inherited one takes its place. -/
abbrev Properties := InsertionMap String Property

structure CommandDefinition where
  uri : String
  name : String
  properties : Properties
  requireResponse : Bool
  allowFastMode : Bool
  deriving DecidableEq

inductive EventMode where
  | normal
  | fast
  deriving DecidableEq

namespace EventMode

def name : EventMode → String
  | normal => "NORMAL"
  | fast => "FAST"

def ofName? (s : String) : Option EventMode := [normal, fast].find? (·.name == s)

end EventMode

structure HandlerDefinition where
  uri : String
  name : String
  deriving DecidableEq

inductive LiveKind where
  | array
  | object
  deriving DecidableEq

namespace LiveKind

def name : LiveKind → String
  | array => "array"
  | object => "object"

def ofName? (s : String) : Option LiveKind := [array, object].find? (·.name == s)

end LiveKind

/-- The handler that changes to live data call. `properties` holds the properties whose changes
count, each with whether its changes are collected into one call. -/
structure Trigger where
  eventHandler : Option String
  properties : SortedMap String Bool
  deriving DecidableEq

namespace Trigger

def empty : Trigger := ⟨none, .empty⟩

def handler? (t : Trigger) : Option String := t.eventHandler.filter (!·.isEmpty)

/-- Whether changes of the property are collected; none if they do not count at all. -/
def collapses? (t : Trigger) (property : String) : Option Bool := t.properties.get? property

end Trigger

/-- Live data as declared. For an array `typeName` is the type of the items, for an object the
type whose properties it has. -/
structure LiveDefinition where
  name : String
  kind : LiveKind
  typeName : String
  initial : Json
  onAdd : Trigger
  onUpdate : Trigger
  onRemove : Trigger
  deriving DecidableEq

structure ComponentDefinition where
  uri : String
  name : String
  resourceType : Option String
  visualContext : String
  properties : SortedMap PropertyKey Property
  eventHandlers : SortedMap PropertyKey HandlerDefinition
  commands : List CommandDefinition
  deriving DecidableEq

inductive Environment where
  | available
  | map (fields : Object)
  deriving DecidableEq

namespace Environment

def toJson : Environment → Json
  | available => .bool true
  | map fields => .ofObject fields

end Environment

structure Schema where
  uri : String
  version : String
  types : InsertionMap String Properties
  commands : List CommandDefinition
  eventHandlers : List HandlerDefinition
  eventModes : InsertionMap String EventMode
  liveData : InsertionMap String LiveDefinition
  components : List ComponentDefinition
  environment : Environment
  deriving DecidableEq

namespace Schema

def bare (uri : String) : Schema where
  uri
  version := ""
  types := .empty
  commands := []
  eventHandlers := []
  eventModes := .empty
  liveData := .empty
  components := []
  environment := .available

def type? (s : Schema) (name : String) : Option Properties := s.types.get? name

def command? (s : Schema) (name : String) : Option CommandDefinition :=
  s.commands.find? (·.name == name)

def eventMode? (s : Schema) (name : String) : Option EventMode := s.eventModes.get? name

def liveData? (s : Schema) (name : String) : Option LiveDefinition := s.liveData.get? name

def component? (s : Schema) (name : String) : Option ComponentDefinition :=
  s.components.find? (·.name == name)

end Schema

end ExtensionHost
