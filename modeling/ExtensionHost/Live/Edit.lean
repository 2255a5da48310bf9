import ExtensionHost.Live.Replica

namespace ExtensionHost

/-- The changes that the host itself makes to live data. -/
inductive Edit where
  | insert (index : Int) (items : List Json)
  | update (index : Int) (items : List Json)
  | remove (index count : Int)
  | push (item : Json)
  | clear
  | set (key : String) (value : Json)
  | erase (key : String)
  deriving DecidableEq

namespace LiveArray

/-- Edits of maps do nothing to an array. -/
def edit (a : LiveArray) : Edit → Except LiveFault LiveArray
  | .insert index items => a.insert index items
  | .update index items => a.update index items
  | .remove index count => a.remove index count
  | .push item => .ok (a.push item)
  | .clear => .ok a.clear
  | .set _ _ | .erase _ => .ok a

end LiveArray

namespace LiveMap

/-- Edits of arrays do nothing to a map. -/
def edit (m : LiveMap) : Edit → Except LiveFault LiveMap
  | .set key value => .ok (m.set key value)
  | .erase key => (m.remove key).map (·.2)
  | .insert _ _ | .update _ _ | .remove _ _ | .push _ | .clear => .ok m

end LiveMap

namespace Replica

def edit : Replica → Edit → Except LiveFault Replica
  | array a, e => (a.edit e).map .array
  | map m, e => (m.edit e).map .map

def edited (r : Replica) (e : Edit) : Replica := (r.edit e).toOption.getD r

@[simp] theorem kind_edited (r : Replica) (e : Edit) : (r.edited e).kind = r.kind := by
  cases r with
  | array a => cases ha : a.edit e <;> simp [edited, edit, ha, Except.map, Except.toOption, kind]
  | map m => cases hm : m.edit e <;> simp [edited, edit, hm, Except.map, Except.toOption, kind]

end Replica

end ExtensionHost
