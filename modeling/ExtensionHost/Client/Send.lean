import ExtensionHost.Client.Basic
import ExtensionHost.Message.Command
import ExtensionHost.Message.Component
import ExtensionHost.Message.Registration

namespace ExtensionHost

/-- A document's wish to run a command of an extension, perhaps for one resource. -/
structure Invocation where
  uri : String
  name : String
  payload : Json
  resourceId : Option Json

namespace Client

def requestRegistration (c : Client) (settings : Json) : Client × List Effect × Json :=
  let message := (RegisterRequest.mk c.uri settings (c.config.flagsFor c.uri)).encode
  let registration := match c.registration with
    | .unregistered => .awaiting
    | r => r
  ({ c with registration }, c.trace (.outbound c.uri message), message)

/-- A resource id has to be a string; null and the empty string count as none. -/
def resourceIdOf : Option Json → Except ClientFault (Option String)
  | none | some .null => .ok none
  | some (.string id) => .ok (if id.isEmpty then none else some id)
  | some _ => .error .badResourceId

def checkInvocation (c : Client) (i : Invocation) : Except ClientFault (Option String) := do
  c.checkTarget i.uri
  if i.name.isEmpty then throw .unnamedCommand
  resourceIdOf i.resourceId

/-- Issues a command under the next id. A refused one takes no id. -/
def issue (c : Client) (ids : CommandIds) (i : Invocation) :
    Except ClientFault (CommandIds × UInt64 × Json) :=
  (c.checkInvocation i).map fun resourceId =>
    let (ids, id) := ids.issue
    (ids, id, (CommandRequest.mk c.token id i.name i.uri i.payload resourceId).encode)

/-- The message about a component's state. While it is pending it carries all properties, and when
it is ready those that have changed. -/
def componentChange (c : Client) (component : Component) : Except ClientFault Json := do
  c.checkTarget component.uri
  let sent := fun (properties : List (String × Json)) =>
    (⟨c.uri, c.token, component.resourceId, component.state, component.viewport,
      some (.ofList properties)⟩ : ComponentChange).encode
  match component.state with
  | .pending => return sent component.properties
  | .ready => return sent (component.properties.filter fun p => component.dirty.contains p.1)
  | state =>
    return (⟨c.uri, c.token, component.resourceId, state, none, none⟩ : ComponentChange).encode

def disconnect (c : Client) (bound : Option (DocumentId × Document)) (code : Int)
    (message : String) : List Effect :=
  if code = 0 then []
  else
    let failures := match bound with
      | none => []
      | some (id, d) =>
        (d.components.zipIdx.filter fun (component, _) => component.uri = c.uri).map fun (_, i) =>
          Effect.call id (.fail i code message)
    .log (.disconnected c.uri code message) :: failures

end Client

end ExtensionHost
