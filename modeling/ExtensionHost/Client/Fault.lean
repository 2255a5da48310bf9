import ExtensionHost.Message.Fault
import ExtensionHost.Schema.Warning

namespace ExtensionHost

inductive ClientFault where
  | message (fault : MessageFault)
  | schema (fault : SchemaError)
  | notRegistered
  | registrationFailed
  | alreadyRegistered
  | unexpectedMethod (method : Method)
  | unissuedId (id lastIssued : UInt64)
  | wrongTarget (expected actual : String)
  | unnamedCommand
  | badResourceId
  | unknownEvent (name : String)
  | unknownLiveData (name : String)

def ClientFault.text : ClientFault → String
  | message fault => fault.text
  | schema fault => s!"malformed schema: {fault.text}"
  | notRegistered => "can't process message before registration"
  | registrationFailed => "can't process message after failed registration"
  | alreadyRegistered => "can't register extension twice"
  | unexpectedMethod method => s!"method '{method.name}' is not accepted from an extension"
  | unissuedId id last => s!"invalid command response id {id} (last issued {last})"
  | wrongTarget expected actual => s!"target '{actual}' does not match extension '{expected}'"
  | unnamedCommand => "invalid command: command name is empty"
  | badResourceId => "invalid command: resource id is not a string"
  | unknownEvent name => s!"undeclared event '{name}'"
  | unknownLiveData name => s!"undeclared live data '{name}'"

end ExtensionHost
