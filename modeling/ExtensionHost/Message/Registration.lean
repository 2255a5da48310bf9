import ExtensionHost.Message.Fault

namespace ExtensionHost

structure RegisterRequest where
  uri : String
  settings : Json
  flags : Json

namespace RegisterRequest

def encode (r : RegisterRequest) : Json :=
  .ofObject <| .ofList
    [("version", .string interfaceVersion), ("method", .string Method.register.name),
      ("uri", .string r.uri), ("settings", r.settings), ("flags", r.flags)]

end RegisterRequest

/-- An extension's consent to register. Its schema is not looked into yet. -/
structure RegisterSuccess where
  token : String
  schema : Json
  environment : Option Object

namespace RegisterSuccess

def decode (message : Json) : Except MessageFault RegisterSuccess := do
  let body ← message.body
  let token ← body.requiredString "token"
  match body.present? "schema" with
  | none => throw (.missingField "schema")
  | some schema => return ⟨token, schema, (body.get? "environment").bind Json.asObject?⟩

end RegisterSuccess

end ExtensionHost
