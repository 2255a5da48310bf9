import ExtensionHost.Live.Replica

namespace ExtensionHost

/-- A report about live data: all of its contents, and for maps the keys that changed with their
values. Without a handler there is nobody to report to. -/
structure Notice where
  handler : Option String
  current : Json
  changed : Option Object
  deriving DecidableEq

def Notice.payload (n : Notice) : Object :=
  .ofList <| ("current", n.current) :: (n.changed.map fun c => ("changed", .ofObject c)).toList

/-- Live data as declared, with the host's copy of it and what has still to be reported:
`pending` stands for inbound changes, `owesSnapshot` for changes that are in no change log. -/
structure Feed where
  name : String
  typeName : String
  onAdd : Trigger
  onUpdate : Trigger
  onRemove : Trigger
  replica : Replica
  pending : Bool
  owesSnapshot : Bool
  deriving DecidableEq

namespace Feed

def ofDefinition (d : LiveDefinition) : Feed where
  name := d.name
  typeName := d.typeName
  onAdd := d.onAdd
  onUpdate := d.onUpdate
  onRemove := d.onRemove
  replica := .ofInitial d.kind d.initial
  pending := false
  owesSnapshot := false

def apply (f : Feed) (op : Operation) : Except LiveFault Feed :=
  (f.replica.apply op).map fun r => { f with replica := r, pending := true }

/-- Applies an inbound operation while there is nobody to report to. No change log is kept; the
next report covers all contents. -/
def applyUnheard (f : Feed) (op : Operation) : Except LiveFault Feed :=
  (f.apply op).map fun f => { f with replica := f.replica.forgetChanges, owesSnapshot := true }

/-- The entries of `changed` for some keys; a key that is gone has null. -/
def valuesOf (contents : Object) (keys : List String) : Object :=
  .ofList (keys.map fun key => (key, (contents.get? key).getD .null))

def mapTrigger (f : Feed) : MapChange → Trigger
  | .set _ => f.onUpdate
  | .remove _ => f.onRemove

def collectedKeys (trigger : Trigger) (keys : List String) : List String :=
  keys.filter fun key => trigger.collapses? key = some true

/-- First a notice for each change that is not collected, in order, then one for the collected
updates and one for the collected removals. -/
def mapNotices (f : Feed) (contents : Object) (changes : List MapChange) : List Notice :=
  let current := Json.ofObject contents
  let notice := fun (t : Trigger) (keys : List String) =>
    (⟨t.handler?, current, some (valuesOf contents keys)⟩ : Notice)
  let single := changes.filterMap fun c =>
    if (f.mapTrigger c).collapses? c.key = some false then
      some (notice (f.mapTrigger c) [c.key])
    else none
  let set := collectedKeys f.onUpdate
    (changes.filterMap fun | .set key => some key | .remove _ => none)
  let removed := collectedKeys f.onRemove
    (changes.filterMap fun | .remove key => some key | .set _ => none)
  single ++ (if set = [] then [] else [notice f.onUpdate set]) ++
    (if removed = [] then [] else [notice f.onRemove removed])

/-- One notice for all additions, one for all updates and one for all removals. -/
def arrayNotices (f : Feed) (items : List Json) (changes : List ArrayChange) : List Notice :=
  let notice := fun (t : Trigger) => (⟨t.handler?, .array items, none⟩ : Notice)
  (if changes.any fun | .insert _ _ => true | _ => false then [notice f.onAdd] else []) ++
    (if changes.any fun | .update _ _ => true | _ => false then [notice f.onUpdate] else []) ++
    (if changes.any fun | .remove _ _ => true | _ => false then [notice f.onRemove] else [])

def reported (f : Feed) : Feed :=
  { f with replica := f.replica.forgetChanges, pending := false, owesSnapshot := false }

/-- What there is to say if all contents had just arrived: one insertion for an array, a change of
every key for a map. -/
def snapshotNotices (f : Feed) : List Notice :=
  match f.replica with
  | .array a => f.arrayNotices a.items [.insert 0 a.length]
  | .map m => f.mapNotices m.contents (m.contents.keys.map .set)

def changeNotices (f : Feed) : List Notice :=
  if f.owesSnapshot then f.snapshotNotices
  else
    match f.replica with
    | .array a => f.arrayNotices a.items a.changes
    | .map m => f.mapNotices m.contents m.changes

end Feed

end ExtensionHost
