import ExtensionHost.Message.Fault

namespace ExtensionHost

structure EventMessage where
  name : String
  target : String
  payload : Object
  resourceId : Option String

namespace EventMessage

def decodePayload (body : Object) : Except MessageFault Object :=
  match body.present? "payload" with
  | none => .ok .empty
  | some payload =>
    match payload.asObject? with
    | some o => .ok o
    | none => .error (.invalidField "payload" .notMap)

def decode (message : Json) : Except MessageFault EventMessage := do
  let body ← message.body
  let name ← body.requiredString "name"
  let target ← body.requiredString "target"
  let payload ← decodePayload body
  return ⟨name, target, payload, body.string? "resourceId"⟩

end EventMessage

end ExtensionHost
