namespace ExtensionHost

/-- The source of command ids, which clients may share. Ids are words of 64 bits and start over
after the largest. -/
structure CommandIds where
  next : UInt64
  deriving DecidableEq

namespace CommandIds

def firstId : UInt64 := 1000

def startingAt (first : UInt64) : CommandIds := ⟨first⟩

instance : Inhabited CommandIds := ⟨startingAt firstId⟩

def issue (ids : CommandIds) : CommandIds × UInt64 := (⟨ids.next + 1⟩, ids.next)

/-- The id issued last; before the first, the one below it, and never less than zero. -/
def lastIssued (ids : CommandIds) : UInt64 := if ids.next = 0 then 0 else ids.next - 1

end CommandIds

end ExtensionHost
