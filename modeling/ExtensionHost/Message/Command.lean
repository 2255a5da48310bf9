import ExtensionHost.Message.Fault

namespace ExtensionHost

structure CommandRequest where
  token : String
  id : UInt64
  name : String
  target : String
  payload : Json
  resourceId : Option String

namespace CommandRequest

def encode (r : CommandRequest) : Json :=
  .ofObject <| .ofList <|
    [("version", .string interfaceVersion), ("method", .string Method.command.name),
      ("token", .string r.token), ("id", .number (.ofUInt64 r.id)), ("name", .string r.name),
      ("target", .string r.target), ("payload", r.payload)] ++
    (r.resourceId.map fun id => ("resourceId", .string id)).toList

end CommandRequest

/-- An extension's answer to a command. A null result counts as none. -/
structure CommandResponse where
  id : UInt64
  success : Bool
  result : Option Json

namespace CommandResponse

/-- A command id: an unsigned integer, or a double without sign and fraction. A double above the
largest id but at most `2 ^ 64` counts as the largest. -/
def idOfNumber? (n : Number) : Option UInt64 :=
  match n.toUInt64?, n.toBinary64 with
  | some id, _ => some id
  | none, .finite d =>
    if (d.isZero || !d.negative) ∧ d.isIntegral ∧ d.trunc ≤ 0x10000000000000000 then
      some (UInt64.ofNat (min d.trunc.toNat 0xffffffffffffffff))
    else none
  | none, _ => none

def decodeId (body : Object) : Except MessageFault UInt64 :=
  match body.present? "id" with
  | none => .error (.missingField "id")
  | some (.number n) =>
    match idOfNumber? n with
    | some id => .ok id
    | none => .error (.invalidField "id" .notNatural)
  | some _ => .error (.invalidField "id" .notNumber)

def decode (method : Method) (message : Json) : Except MessageFault CommandResponse := do
  let body ← message.body
  let id ← decodeId body
  return ⟨id, method == .commandSuccess, body.present? "result"⟩

end CommandResponse

end ExtensionHost
