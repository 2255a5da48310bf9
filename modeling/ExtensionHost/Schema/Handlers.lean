import ExtensionHost.Schema.Warning

namespace ExtensionHost

/-- The handlers of one list, and the modes of all events met so far. -/
structure HandlerTable where
  handlers : List HandlerDefinition
  modes : InsertionMap String EventMode

namespace HandlerTable

/-- The first definition of an event settles its mode, which is fast unless stated otherwise. -/
def readEntry (uri : String) (part : SchemaPart) : EntryReader HandlerTable := fun table entry =>
  match entry.fields.nonemptyString? "name" with
  | none => (table, [.invalidEntry part .unnamedHandler])
  | some name =>
    let mode := ((entry.fields.string? "mode").bind EventMode.ofName?).getD .fast
    (⟨table.handlers ++ [⟨uri, name⟩], table.modes.insertIfNew name mode⟩, [])

def readAll (uri : String) (part : SchemaPart) (modes : InsertionMap String EventMode)
    (entries : List Json) : HandlerTable × List SchemaWarning :=
  readEntries (readEntry uri part) ⟨[], modes⟩ entries

end HandlerTable

end ExtensionHost
