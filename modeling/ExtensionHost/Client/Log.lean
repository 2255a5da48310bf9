import ExtensionHost.Client.Fault
import ExtensionHost.Live.Fault

namespace ExtensionHost

inductive LogLevel where
  | warn
  | debug
  deriving DecidableEq

def LogLevel.name : LogLevel → String
  | warn => "WARN"
  | debug => "DEBUG"

inductive LogRecord where
  | schemaWarning (uri : String) (warning : SchemaWarning)
  | registered (uri token : String)
  | unreadable (uri : String)
  | refused (uri token : String) (fault : ClientFault)
  | inbound (uri : String) (message : Json)
  | outbound (uri : String) (message : Json)
  | holding (uri event : String)
  | replaying (uri : String) (count : Nat)
  | unheardChange
  | operationSkipped (uri name : String) (fault : LiveFault)
  | unknownFlush (uri name : String)
  | nothingPending (uri : String) (id : UInt64)
  | unknownComponent (uri resourceId : String)
  | disconnected (uri : String) (code : Int) (message : String)

namespace LogRecord

def level : LogRecord → LogLevel
  | schemaWarning .. | unreadable .. | refused .. | operationSkipped .. | unknownFlush ..
  | unknownComponent .. | disconnected .. => .warn
  | _ => .debug

def text : LogRecord → String
  | schemaWarning uri warning => s!"extension {uri}: {warning.text}"
  | registered uri token => s!"extension {uri} registered, token {token}"
  | unreadable uri => s!"extension {uri}: {MessageFault.notJson.text}"
  | refused uri token fault => s!"extension {uri} ({token}): {fault.text}"
  | inbound uri message => s!"extension {uri} <- {message.compact}"
  | outbound uri message => s!"extension {uri} -> {message.compact}"
  | holding uri event => s!"extension {uri}: no document bound, holding event '{event}'"
  | replaying uri count => s!"extension {uri}: replaying {count} held events"
  | unheardChange => "live data change without a bound handler dropped"
  | operationSkipped uri name fault =>
    s!"extension {uri}: live data '{name}' operation skipped: {fault.text}"
  | unknownFlush uri name => s!"extension {uri}: flush for unknown live data '{name}'"
  | nothingPending uri id => s!"extension {uri}: no pending action for command {id}"
  | unknownComponent uri resourceId => s!"extension {uri}: unable to find component '{resourceId}'"
  | disconnected uri code message => s!"extension {uri} disconnected ({code}): {message}"

end LogRecord

end ExtensionHost
