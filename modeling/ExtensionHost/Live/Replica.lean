import ExtensionHost.Live.Array
import ExtensionHost.Live.Map

namespace ExtensionHost

/-- The host's copy of live data. -/
inductive Replica where
  | array (contents : LiveArray)
  | map (contents : LiveMap)
  deriving DecidableEq

namespace Replica

/-- A copy of the given kind; initial data of another shape counts as none. -/
def ofInitial : LiveKind → Json → Replica
  | .array, .array items => .array (.ofItems items)
  | .array, _ => .array (.ofItems [])
  | .object, v => .map (.ofObject v.fields)

def kind : Replica → LiveKind
  | array _ => .array
  | map _ => .object

def snapshot : Replica → Json
  | array a => .array a.items
  | map m => .ofObject m.contents

def hasChanges : Replica → Bool
  | array a => !a.changes.isEmpty
  | map m => !m.changes.isEmpty

def forgetChanges : Replica → Replica
  | array a => .array a.forgetChanges
  | map m => .map m.forgetChanges

@[simp] theorem snapshot_forgetChanges (r : Replica) : r.forgetChanges.snapshot = r.snapshot := by
  cases r <;> rfl

theorem hasChanges_forgetChanges (r : Replica) : r.forgetChanges.hasChanges = false := by
  cases r <;> rfl

def apply : Replica → Operation → Except LiveFault Replica
  | array a, op => (a.apply op).map .array
  | map m, op => (m.apply op).map .map

end Replica

end ExtensionHost
