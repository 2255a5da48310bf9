import ExtensionHost.Collection.SortedMap

namespace ExtensionHost

/-- A registry of keys as its handles share it: a table for each direction, and the key that the
next new name gets. `PropertyKeys` has the same in one list, with keys that do not run out. -/
structure KeyRegistry where
  byName : SortedMap String UInt32
  byKey : SortedMap UInt32 String
  next : UInt32
  deriving DecidableEq

namespace KeyRegistry

def startingAt (base : UInt32) : KeyRegistry := ⟨.empty, .empty, base⟩

def key? (r : KeyRegistry) (name : String) : Option UInt32 := r.byName.get? name

def name? (r : KeyRegistry) (key : UInt32) : Option String := r.byKey.get? key

def size (r : KeyRegistry) : Nat := r.byKey.size

/-- What is done under the write lock. The name is looked for again, as another caller may have
added it in the meantime. -/
def allot (r : KeyRegistry) (name : String) : KeyRegistry × UInt32 :=
  match r.key? name with
  | some key => (r, key)
  | none => (⟨r.byName.insert name r.next, r.byKey.insert r.next name, r.next + 1⟩, r.next)

/-- The key of a name, which gets the next one if it is new. The read lock is enough for a name that
is there. -/
def append (r : KeyRegistry) (name : String) : KeyRegistry × UInt32 :=
  match r.key? name with
  | some key => (r, key)
  | none => r.allot name

end KeyRegistry

end ExtensionHost
