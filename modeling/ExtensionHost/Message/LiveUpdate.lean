import ExtensionHost.Message.Fault

namespace ExtensionHost

/-- A batch of changes to live data. The operations are decoded one by one when they are applied,
so that a bad one does not spoil the batch. -/
structure LiveUpdate where
  name : String
  target : String
  operations : List Json

namespace LiveUpdate

def decodeOperations (body : Object) : Except MessageFault (List Json) :=
  match body.present? "operations" with
  | none => .error (.missingField "operations")
  | some (.array items) => .ok items
  | some _ => .error (.invalidField "operations" .notArray)

def decode (message : Json) : Except MessageFault LiveUpdate := do
  let body ← message.body
  let name ← body.requiredString "name"
  let target ← body.requiredString "target"
  let operations ← decodeOperations body
  return ⟨name, target, operations⟩

end LiveUpdate

/-- One change to live data. Which fields it needs depends on what it is applied to. -/
structure Operation where
  kind : OperationKind
  key : Option String
  index : Option Int
  item : Option Json
  count : Option Int

namespace Operation

def decodeKind (body : Object) : Except MessageFault OperationKind :=
  match body.present? "type" with
  | none => .error (.missingField "type")
  | some (.string name) =>
    match OperationKind.ofName? name with
    | some kind => .ok kind
    | none => .error (.unknownOperation name)
  | some found => .error (.unknownOperation found.compact)

/-- A position or count: fractions are cut off and what exceeds 64 bits is clamped. -/
def integer? : Json → Option Int
  | .number n => some n.toClampedInt
  | _ => none

def decode (operation : Json) : Except MessageFault Operation := do
  let body ← operation.body
  let kind ← decodeKind body
  return {
    kind
    key := body.nonemptyString? "key"
    index := (body.get? "index").bind integer?
    item := body.present? "item"
    count := (body.get? "count").bind integer? }

end Operation

end ExtensionHost
