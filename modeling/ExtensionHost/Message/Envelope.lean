import ExtensionHost.Message.Fault

namespace ExtensionHost

/-- The fields that every message has, read before anything else of it is trusted. -/
structure Envelope where
  version : Option String
  methodName : Option String
  deriving DecidableEq

namespace Envelope

def read (message : Json) : Except MessageFault Envelope :=
  message.body.map fun body => ⟨body.string? "version", body.string? "method"⟩

def method? (e : Envelope) : Option Method := e.methodName.bind Method.ofName?

def checkVersion (e : Envelope) (expected : String) : Except MessageFault Unit :=
  if e.version = some expected then .ok ()
  else .error (.wrongVersion expected (e.version.getD "<missing>"))

def requireMethod (e : Envelope) : Except MessageFault Method :=
  match e.methodName with
  | none => .error (.missingField "method")
  | some name =>
    match Method.ofName? name with
    | some m => .ok m
    | none => .error (.unknownMethod name)

end Envelope

end ExtensionHost
