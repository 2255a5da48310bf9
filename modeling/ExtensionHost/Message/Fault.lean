import ExtensionHost.Json.Compact
import ExtensionHost.Json.Parse
import ExtensionHost.Message.Vocabulary

namespace ExtensionHost

inductive FieldFault where
  | empty
  | notString (found : Json)
  | notMap
  | notArray
  | notNumber
  | notNatural
  | unknownState (name : String)

inductive MessageFault where
  | notObject
  | notJson
  | unknownMethod (name : String)
  | wrongVersion (expected actual : String)
  | missingField (field : String)
  | invalidField (field : String) (fault : FieldFault)
  | unknownOperation (name : String)

def FieldFault.text : FieldFault → String
  | empty => "must not be empty"
  | notString found => "expected a string, found " ++ found.compact
  | notMap => "expected a map"
  | notArray => "expected an array"
  | notNumber => "not a number"
  | notNatural => "not a non-negative integer"
  | unknownState name => s!"unknown resource state '{name}'"

def MessageFault.text : MessageFault → String
  | notObject => "message is not a JSON object"
  | notJson => "malformed message"
  | unknownMethod name => s!"unknown method '{name}'"
  | wrongVersion expected actual =>
    s!"interface version is wrong: expected {expected}, actual {actual}"
  | missingField field => s!"missing field '{field}'"
  | invalidField field fault => s!"invalid field '{field}': {fault.text}"
  | unknownOperation name => s!"unknown live data operation '{name}'"

def Json.body (message : Json) : Except MessageFault Object :=
  match message.asObject? with
  | some o => .ok o
  | none => .error .notObject

/-- A field that has to hold a string of at least one character. -/
def SortedMap.requiredString (o : Object) (field : String) : Except MessageFault String :=
  match o.present? field with
  | none => .error (.missingField field)
  | some (.string s) => if s.isEmpty then .error (.invalidField field .empty) else .ok s
  | some found => .error (.invalidField field (.notString found))

def readMessage (text : String) : Except MessageFault Json :=
  match Json.parse? text with
  | some v => .ok v
  | none => .error .notJson

end ExtensionHost
