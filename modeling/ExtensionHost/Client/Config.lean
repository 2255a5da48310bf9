import ExtensionHost.Message.Vocabulary
import ExtensionHost.Text.Blank

namespace ExtensionHost

/-- How a client behaves: the protocol version that it insists on, the newest schema version that
it takes, whether it traces messages, and the flags for each extension. -/
structure Config where
  interfaceVersion : String
  maxSchemaVersion : String
  logMessages : Bool
  flags : SortedMap String Json
  deriving DecidableEq

namespace Config

def standard : Config :=
  ⟨ExtensionHost.interfaceVersion, ExtensionHost.maxSchemaVersion, false, .empty⟩

def logMessagesVariable : String := "EXTLINK_LOG_MESSAGES"

def isYes (value : String) : Bool :=
  String.ofList (Text.lower (Text.trim value.toList)) ∈ ["1", "true", "yes", "on"]

def ofEnvironment (setting : Option String) : Config :=
  { standard with logMessages := (setting.map isYes).getD false }

def withFlags (c : Config) (uri : String) (flags : Json) : Config :=
  { c with flags := c.flags.insert uri flags }

def flagsFor (c : Config) (uri : String) : Json := (c.flags.get? uri).getD .null

end Config

end ExtensionHost
