import ExtensionHost.Message.Vocabulary

namespace ExtensionHost

structure Event where
  uri : String
  name : String
  payload : Object
  fast : Bool
  resourceId : Option String
  deriving DecidableEq

/-- What a component of a document tells of itself at some time. `dirty` names the properties that
have changed since the extension was told. -/
structure Component where
  uri : String
  resourceId : String
  state : ResourceState
  viewport : Option Json
  properties : List (String × Json)
  dirty : List String
  deriving DecidableEq

/-- What a document that uses extensions tells of itself at some time: the components that it lists,
the one that it finds for a resource id, and a message with the data bindings resolved. All of this
is up to the document. Components are numbered, the listed ones by their positions. -/
structure Document where
  components : List Component
  find? : String → Option Nat
  evaluate : Json → Json

inductive DocumentCall where
  | handle (event : Event)
  | fail (component : Nat) (code : Int) (message : String)
  | setCalculated (component : Nat) (property : String) (value : Json)
  deriving DecidableEq

end ExtensionHost
