import ExtensionHost.Schema.Types

namespace ExtensionHost

namespace Trigger

def everyProperty (type : Properties) : SortedMap String Bool :=
  .ofList (type.keys.map fun name => (name, true))

/-- One entry of the `properties` of a trigger: it adds the named property or all of them, or
takes the named one back. Entries that are no objects are passed over. -/
def request (type : Properties) (requested : SortedMap String Bool) (entry : Json) :
    SortedMap String Bool :=
  match entry.asObject? with
  | none => requested
  | some fields =>
    let name := (fields.string? "name").getD ""
    let collapse := fields.flag "collapse" true
    if fields.flag "update" false then
      if name = "*" then type.keys.foldl (fun m property => m.insert property collapse) requested
      else requested.insert name collapse
    else requested.erase name

def requestedProperties (type : Properties) (entries : List Json) : SortedMap String Bool :=
  (entries.foldl (request type) .empty).filter fun name _ => type.contains name

def read? (live : String) (type : Properties) (events : Object) (block : String) :
    Option (Trigger × List SchemaWarning) :=
  ((events.get? block).bind Json.asObject?).map fun fields =>
    let (properties, warnings) := match fields.present? "properties" with
      | none => (everyProperty type, [])
      | some (.array entries) => (requestedProperties type entries, [])
      | some _ => (everyProperty type, [SchemaWarning.invalidTriggerProperties live])
    (⟨fields.nonemptyString? "eventHandler", properties⟩, warnings)

end Trigger

namespace LiveDefinition

def beforeBrackets? : List Char → Option (List Char)
  | [] => none
  | '[' :: ']' :: _ => some []
  | c :: rest => (beforeBrackets? rest).map (c :: ·)

def kindOf (declared : String) : LiveKind × String :=
  match beforeBrackets? declared.toList with
  | some name => (.array, String.ofList name)
  | none => (.object, declared)

def typeProperties? (types : TypeTable) (kind : LiveKind) (typeName : String) : Option Properties :=
  match types.get? typeName, kind with
  | some properties, _ => some properties
  | none, .array => (Binding.ofName? typeName).map fun _ => .empty
  | none, .object => none

def initialData (name : String) (kind : LiveKind) (data : Option Json) :
    Json × List SchemaWarning :=
  match kind, data with
  | .array, some (.array items) => (.array items, [])
  | .object, some (.object fields) => (.object fields, [])
  | kind, data =>
    let warnings := match data with
      | none | some .null => []
      | some _ => [SchemaWarning.invalidInitialData name kind]
    match kind with
    | .array => (.array [], warnings)
    | .object => (.object [], warnings)

/-- The triggers for additions, updates and removals. A `set` block takes the place of an `update`
block. -/
def triggers (live : String) (type : Properties) (events : Object) :
    (Trigger × Trigger × Trigger) × List SchemaWarning :=
  let add := Trigger.read? live type events "add"
  let update := Trigger.read? live type events "update"
  let set := Trigger.read? live type events "set"
  let remove := Trigger.read? live type events "remove"
  let trigger := fun (t : Option (Trigger × List SchemaWarning)) => (t.map (·.1)).getD .empty
  let warnings := fun (t : Option (Trigger × List SchemaWarning)) => (t.map (·.2)).getD []
  ((trigger add, trigger (set.or update), trigger remove),
    warnings add ++ warnings update ++ warnings set ++ warnings remove)

def readEntry (types : TypeTable) : EntryReader (InsertionMap String LiveDefinition) :=
  fun liveData entry =>
    match entry.fields.nonemptyString? "name" with
    | none => (liveData, [.invalidEntry .liveData .unnamedLiveData])
    | some name =>
      match entry.fields.string? "type" with
      | none => (liveData, [.invalidEntry .liveData (.untypedLiveData name)])
      | some declared =>
        if liveData.contains name then (liveData, [.duplicate .liveData name])
        else
          let (kind, typeName) := kindOf declared
          match typeProperties? types kind typeName with
          | none => (liveData, [.invalidLiveDataType name typeName])
          | some type =>
            let (initial, badData) := initialData name kind (entry.fields.get? "data")
            let events := ((entry.fields.get? "events").bind Json.asObject?).getD .empty
            let ((onAdd, onUpdate, onRemove), badTriggers) := triggers name type events
            (liveData.insert name { name, kind, typeName, initial, onAdd, onUpdate, onRemove },
              badData ++ badTriggers)

end LiveDefinition

end ExtensionHost
