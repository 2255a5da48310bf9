import ExtensionHost.Json.Basic

namespace ExtensionHost

/-- Where a document's action stands that waits for the answer to a command. -/
inductive ActionState where
  | pending
  | resolved (result : Option Json)
  | terminated
  deriving DecidableEq

/-- An action with what is to be done when its owner terminates it. -/
structure Action (κ : Type) where
  state : ActionState
  callbacks : List κ
  deriving DecidableEq

namespace Action

variable {κ : Type}

def fresh : Action κ := ⟨.pending, []⟩

def isPending (a : Action κ) : Bool := a.state = .pending

def isResolved (a : Action κ) : Bool :=
  match a.state with
  | .resolved _ => true
  | _ => false

def isTerminated (a : Action κ) : Bool := a.state = .terminated

def result? (a : Action κ) : Option Json :=
  match a.state with
  | .resolved result => result
  | _ => none

/-- Resolves a pending action; its callbacks will never run. -/
def resolve (a : Action κ) (result : Option Json) : Action κ × Bool :=
  if a.isPending then (⟨.resolved result, []⟩, true) else (a, false)

/-- Terminates a pending action. The callbacks that are now due are handed over, so the action
holds none while they run. -/
def terminate (a : Action κ) : Action κ × List κ × Bool :=
  if a.isPending then (⟨.terminated, []⟩, a.callbacks, true) else (a, [], false)

def onTerminate (a : Action κ) (callback : κ) : Action κ :=
  if a.isPending then { a with callbacks := a.callbacks ++ [callback] } else a

end Action

end ExtensionHost
