import ExtensionHost.Schema.Warning

namespace ExtensionHost

namespace Property

def declared (binding : Binding) (default : Json) (required : Bool) : Property :=
  ⟨binding, binding.coerce default, required⟩

/-- A property is a binding's name, which makes it required, or an object that has a `type`. An
unknown binding counts as `any`. -/
def read? : Json → Option Property
  | .string s => some (declared ((Binding.ofName? s).getD .any) .null true)
  | v =>
    let fields := v.fields
    if fields.contains "type" then
      some (declared (((fields.string? "type").bind Binding.ofName?).getD .any)
        ((fields.get? "default").getD .null) (fields.flag "required" false))
    else none

def readAll (owner : String) :
    List (String × Json) → List (String × Property) × List SchemaWarning
  | [] => ([], [])
  | (name, definition) :: rest =>
    let (properties, warnings) := readAll owner rest
    match read? definition with
    | some p => ((name, p) :: properties, warnings)
    | none => (properties, .invalidProperty owner name :: warnings)

end Property

abbrev TypeTable := InsertionMap String Properties

namespace TypeTable

/-- The properties of a type before its own ones: those of the type it extends, as they are at
this point of the list. -/
def inherited (types : TypeTable) (name : String) :
    Option String → Properties × List SchemaWarning
  | none => (.empty, [])
  | some parent =>
    match types.get? parent with
    | some properties => (properties, [])
    | none => (.empty, [.unknownParentType name parent])

def override (inherited : Properties) (own : List (String × Property)) : Properties :=
  own.foldl (fun properties p => properties.insert p.1 p.2) inherited

def readEntry : EntryReader TypeTable := fun types entry =>
  let properties := (entry.fields.get? "properties").bind Json.asObject?
  match entry.fields.nonemptyString? "name", properties with
  | some name, some definitions =>
    if types.contains name then (types, [.duplicate .types name])
    else
      let (inherited, unknown) := types.inherited name (entry.fields.string? "extends")
      let (own, invalid) := Property.readAll name definitions.entries
      (types.insert name (override inherited own), unknown ++ invalid)
  | _, _ => (types, [.invalidEntry .types .incompleteType])

end TypeTable

end ExtensionHost
