import ExtensionHost.Live.Fault

namespace ExtensionHost

inductive MapChange where
  | set (key : String)
  | remove (key : String)
  deriving DecidableEq

def MapChange.key : MapChange → String
  | set key | remove key => key

/-- A map that records its changes until they are taken. -/
structure LiveMap where
  contents : Object
  changes : List MapChange
  deriving DecidableEq

namespace LiveMap

def ofObject (contents : Object) : LiveMap := ⟨contents, []⟩

def get? (m : LiveMap) (key : String) : Option Json := m.contents.get? key

def set (m : LiveMap) (key : String) (value : Json) : LiveMap :=
  ⟨m.contents.insert key value, m.changes ++ [.set key]⟩

def remove (m : LiveMap) (key : String) : Except LiveFault (Json × LiveMap) :=
  match m.get? key with
  | none => .error (.absentKey key)
  | some value => .ok (value, ⟨m.contents.erase key, m.changes ++ [.remove key]⟩)

def forgetChanges (m : LiveMap) : LiveMap := { m with changes := [] }

/-- Applies an inbound operation; an absent item is null. -/
def apply (m : LiveMap) (op : Operation) : Except LiveFault LiveMap :=
  match op.key, op.kind with
  | none, _ => .error .missingKey
  | some key, .set => .ok (m.set key (op.item.getD .null))
  | some key, .remove => (m.remove key).map (·.2)
  | some _, kind => .error (.unsupported kind .object)

end LiveMap

end ExtensionHost
