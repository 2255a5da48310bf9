import ExtensionHost.Schema.Basic

namespace ExtensionHost

def Json.ofOptionalString (s : Option String) : Json := (s.map Json.string).getD .null

def Json.record (fields : List (String × Json)) : Json := .ofObject (.ofList fields)

namespace Property

def toJson (p : Property) : Json :=
  .record [("binding", .string p.binding.name), ("default", p.default),
    ("required", .bool p.required)]

def tableToJson (properties : Properties) : Json :=
  .record (properties.entries.map fun (name, p) => (name, p.toJson))

end Property

def CommandDefinition.toJson (c : CommandDefinition) : Json :=
  .record [("uri", .string c.uri), ("name", .string c.name),
    ("properties", Property.tableToJson c.properties),
    ("requireResponse", .bool c.requireResponse), ("allowFastMode", .bool c.allowFastMode)]

def HandlerDefinition.toJson (h : HandlerDefinition) : Json :=
  .record [("uri", .string h.uri), ("name", .string h.name)]

def Trigger.toJson (t : Trigger) : Json :=
  .record [("eventHandler", .ofOptionalString t.eventHandler),
    ("properties", .ofObject (t.properties.map fun _ collapse => .bool collapse))]

def LiveDefinition.toJson (d : LiveDefinition) : Json :=
  .record [("name", .string d.name), ("kind", .string d.kind.name),
    ("typeName", .string d.typeName), ("initial", d.initial), ("add", d.onAdd.toJson),
    ("update", d.onUpdate.toJson), ("remove", d.onRemove.toJson)]

def ComponentDefinition.toJson (c : ComponentDefinition) : Json :=
  .record [("uri", .string c.uri), ("name", .string c.name),
    ("resourceType", .ofOptionalString c.resourceType),
    ("visualContext", .string c.visualContext),
    ("properties", .record (c.properties.entries.map fun (key, p) => (key.repr, p.toJson))),
    ("eventHandlers", .record (c.eventHandlers.entries.map fun (key, h) => (key.repr, h.toJson))),
    ("commands", .array (c.commands.map CommandDefinition.toJson))]

def Schema.toJson (s : Schema) : Json :=
  .record [("uri", .string s.uri), ("version", .string s.version),
    ("types", .record (s.types.entries.map fun (name, p) => (name, Property.tableToJson p))),
    ("commands", .array (s.commands.map CommandDefinition.toJson)),
    ("eventHandlers", .array (s.eventHandlers.map HandlerDefinition.toJson)),
    ("eventModes", .record (s.eventModes.entries.map fun (name, m) => (name, .string m.name))),
    ("liveData", .record (s.liveData.entries.map fun (name, d) => (name, d.toJson))),
    ("components", .array (s.components.map ComponentDefinition.toJson)),
    ("environment", s.environment.toJson)]

end ExtensionHost
