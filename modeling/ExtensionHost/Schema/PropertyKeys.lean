namespace ExtensionHost

abbrev PropertyKey := Nat

/-- The names that have been given a key, in the order in which they came: the first has the base
as its key, each further one the next key. Names are only ever added. -/
structure PropertyKeys where
  base : PropertyKey
  names : List String
  nodup : names.Nodup
  deriving DecidableEq

namespace PropertyKeys

def defaultBase : PropertyKey := 1

def startingAt (base : PropertyKey) : PropertyKeys := ⟨base, [], .nil⟩

instance : Inhabited PropertyKeys := ⟨startingAt defaultBase⟩

def key? (t : PropertyKeys) (name : String) : Option PropertyKey :=
  (t.names.idxOf? name).map (t.base + ·)

def name? (t : PropertyKeys) (key : PropertyKey) : Option String :=
  if key < t.base then none else t.names[key - t.base]?

def size (t : PropertyKeys) : Nat := t.names.length

def add (t : PropertyKeys) (name : String) : PropertyKeys :=
  if h : name ∈ t.names then t
  else { t with
    names := t.names ++ [name]
    nodup := List.nodup_append.2 ⟨t.nodup, by simp, by grind⟩ }

def append (t : PropertyKeys) (name : String) : PropertyKeys × PropertyKey :=
  (t.add name, t.base + t.names.idxOf name)

def entries (t : PropertyKeys) : List (PropertyKey × String) :=
  t.names.zipIdx.map fun (name, i) => (t.base + i, name)

end PropertyKeys

end ExtensionHost
