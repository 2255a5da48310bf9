import ExtensionHost.Live.Fault

namespace ExtensionHost

/-- A recorded change to a live array: `count` items from `position` on, as positions were when it
was made. -/
inductive ArrayChange where
  | insert (position count : Nat)
  | update (position count : Nat)
  | remove (position count : Nat)
  deriving DecidableEq

/-- A list that records its changes until they are taken. -/
structure LiveArray where
  items : List Json
  changes : List ArrayChange
  deriving DecidableEq

namespace LiveArray

def ofItems (items : List Json) : LiveArray := ⟨items, []⟩

def length (a : LiveArray) : Nat := a.items.length

def record (a : LiveArray) (items : List Json) (change : ArrayChange) : LiveArray :=
  ⟨items, a.changes ++ [change]⟩

/-- Inserts in front of an index; the length is an index, too. Inserting nothing is no change. -/
def insert (a : LiveArray) (index : Int) (items : List Json) : Except LiveFault LiveArray :=
  if 0 ≤ index ∧ index ≤ a.length then
    let p := index.toNat
    if items = [] then .ok a
    else .ok (a.record (a.items.take p ++ items ++ a.items.drop p) (.insert p items.length))
  else .error (.outOfRange index a.length)

def push (a : LiveArray) (item : Json) : LiveArray :=
  a.record (a.items ++ [item]) (.insert a.length 1)

def update (a : LiveArray) (index : Int) (items : List Json) : Except LiveFault LiveArray :=
  if 0 ≤ index ∧ index < a.length ∧ index + items.length ≤ a.length then
    let p := index.toNat
    if items = [] then .ok a
    else
      .ok (a.record (a.items.take p ++ items ++ a.items.drop (p + items.length))
        (.update p items.length))
  else .error (.outOfRange index a.length)

def remove (a : LiveArray) (index count : Int) : Except LiveFault LiveArray :=
  if count < 1 then .error (.invalidCount count)
  else if 0 ≤ index ∧ index < a.length then
    let p := index.toNat
    let n := min count.toNat (a.length - p)
    .ok (a.record (a.items.take p ++ a.items.drop (p + n)) (.remove p n))
  else .error (.outOfRange index a.length)

def clear (a : LiveArray) : LiveArray :=
  if a.items = [] then a else a.record [] (.remove 0 a.length)

def forgetChanges (a : LiveArray) : LiveArray := { a with changes := [] }

/-- Applies an inbound operation. An item that is an array stands for its items. -/
def apply (a : LiveArray) (op : Operation) : Except LiveFault LiveArray :=
  let items := match op.item with
    | some (.array items) => some items
    | some item => some [item]
    | none => none
  match op.kind, items, op.index with
  | .clear, _, _ => .ok a.clear
  | .set, _, _ => .error (.unsupported .set .array)
  | .remove, _, some index => a.remove index (op.count.getD 1)
  | .remove, _, none => .error .missingIndex
  | _, none, _ => .error .missingItem
  | _, some _, none => .error .missingIndex
  | .insert, some items, some index => a.insert index items
  | .update, some items, some index => a.update index items

end LiveArray

end ExtensionHost
