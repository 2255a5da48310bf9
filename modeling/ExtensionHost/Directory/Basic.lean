import ExtensionHost.Client.Basic

namespace ExtensionHost

structure ExtensionRequest where
  space : String
  uri : String
  deriving DecidableEq

/-- What a document can look up: commands and event handlers under `namespace:name`, the commands
it has attached to handlers, and the environment of each namespace. -/
structure Directory where
  commands : SortedMap String CommandDefinition
  handlers : SortedMap String HandlerDefinition
  attached : List (HandlerDefinition × Json)
  environment : Object

namespace Directory

def empty : Directory := ⟨.empty, .empty, [], .empty⟩

def qualify (space name : String) : String := s!"{space}:{name}"

def handlersOf (s : Schema) : List HandlerDefinition :=
  s.eventHandlers ++ s.components.flatMap fun c => c.eventHandlers.values

/-- Enters definitions under a namespace; a name that is taken keeps its meaning. -/
def enter {ν : Type} (space : String) (nameOf : ν → String) (entries : SortedMap String ν)
    (definitions : List ν) : SortedMap String ν :=
  definitions.foldl (fun m d => m.insertIfNew (qualify space (nameOf d)) d) entries

def addSchema (requests : List ExtensionRequest) (d : Directory) (s : Schema) : Directory :=
  (requests.filter (·.uri == s.uri)).foldl (fun d r =>
    { d with
      commands := enter r.space CommandDefinition.name d.commands s.commands
      handlers := enter r.space HandlerDefinition.name d.handlers (handlersOf s) }) d

def environmentFor (schemas : List Schema) (uri : String) : Json :=
  match schemas.reverse.find? (·.uri == uri) with
  | some s => s.environment.toJson
  | none => .bool false

def build (requests : List ExtensionRequest) (clients : List Client) : Directory :=
  let schemas := clients.filterMap fun c => c.connection?.map (·.schema)
  { schemas.foldl (addSchema requests) empty with
    environment := .ofList (requests.map fun r => (r.space, environmentFor schemas r.uri)) }

def command? (d : Directory) (name : String) : Option CommandDefinition := d.commands.get? name

def handler? (d : Directory) (name : String) : Option HandlerDefinition := d.handlers.get? name

def attach (d : Directory) (handler : HandlerDefinition) (commands : Json) : Directory :=
  { d with attached := (handler, commands) :: d.attached.filter (·.1 ≠ handler) }

def attached? (d : Directory) (handler : HandlerDefinition) : Option Json :=
  (d.attached.find? (·.1 == handler)).map (·.2)

end Directory

end ExtensionHost
