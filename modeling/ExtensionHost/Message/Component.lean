import ExtensionHost.Message.Fault

namespace ExtensionHost

structure ComponentChange where
  target : String
  token : String
  resourceId : String
  state : ResourceState
  viewport : Option Json
  payload : Option Object

namespace ComponentChange

def encode (c : ComponentChange) : Json :=
  .ofObject <| .ofList <|
    [("version", .string interfaceVersion), ("method", .string Method.component.name),
      ("target", .string c.target), ("token", .string c.token),
      ("resourceId", .string c.resourceId), ("state", .string c.state.name)] ++
    (c.viewport.map fun v => ("viewport", v)).toList ++
    (c.payload.map fun p => ("payload", .ofObject p)).toList

end ComponentChange

def decodeState (name : String) : Except MessageFault ResourceState :=
  match ResourceState.ofName? name with
  | some s => .ok s
  | none => .error (.invalidField "state" (.unknownState name))

structure ComponentResponse where
  method : Method
  resourceId : String
  state : Option ResourceState
  payload : Option Object
  code : Int
  message : String

namespace ComponentResponse

def decode (method : Method) (message : Json) : Except MessageFault ComponentResponse := do
  let body ← message.body
  let state ← match body.string? "state" with
    | some name => (decodeState name).map some
    | none => pure none
  let code := match body.get? "code" with
    | some (.number n) => n.toSigned?.getD (-1)
    | _ => -1
  return {
    method
    resourceId := (body.string? "resourceId").getD ""
    state
    payload := (body.get? "payload").bind Json.asObject?
    code
    message := (body.string? "message").getD "" }

end ComponentResponse

end ExtensionHost
