import ExtensionHost.Schema.Types

namespace ExtensionHost.CommandDefinition

/-- The name of the payload's type; what names no type counts as the empty name. -/
def payloadType : Json → String
  | .string s => s
  | v => (v.fields.string? "type").getD ""

def payloadProperties (types : TypeTable) (command : String) (fields : Object) :
    Except SchemaWarning Properties :=
  match fields.get? "payload" with
  | none => .ok .empty
  | some payload =>
    match types.get? (payloadType payload) with
    | some properties => .ok properties
    | none => .error (.unknownPayloadType command (payloadType payload))

def readEntry (uri : String) (types : TypeTable) : EntryReader (List CommandDefinition) :=
  fun commands entry =>
    match entry.asObject? with
    | none => (commands, [.invalidEntry .commands .commandNotObject])
    | some fields =>
      match fields.nonemptyString? "name" with
      | none => (commands, [.invalidEntry .commands .unnamedCommand])
      | some name =>
        match payloadProperties types name fields with
        | .error warning => (commands, [warning])
        | .ok properties =>
          let command : CommandDefinition := {
            uri, name, properties
            requireResponse := fields.flag "requireResponse" false
            allowFastMode := fields.flag "allowFastMode" false }
          (commands ++ [command], [])

def readAll (uri : String) (types : TypeTable) (entries : List Json) :
    List CommandDefinition × List SchemaWarning :=
  readEntries (readEntry uri types) [] entries

end ExtensionHost.CommandDefinition
