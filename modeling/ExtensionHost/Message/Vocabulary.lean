import ExtensionHost.Json.Basic

namespace ExtensionHost

def interfaceVersion : String := "1.0"

def maxSchemaVersion : String := "1.1"

/-- The token by which an extension leaves the choice of the token to the host. -/
def autoToken : String := "<AUTO_TOKEN>"

/-- A name written as JSON: a string, or an object whose only field has that name and holds
null. -/
def Json.asName? : Json → Option String
  | .string s => some s
  | .object [(name, .null)] => some name
  | _ => none

inductive Method where
  | register
  | registerSuccess
  | registerFailure
  | command
  | commandSuccess
  | commandFailure
  | event
  | liveDataUpdate
  | component
  | componentSuccess
  | componentFailure
  | componentUpdate
  deriving DecidableEq

namespace Method

def all : List Method :=
  [register, registerSuccess, registerFailure, command, commandSuccess, commandFailure, event,
    liveDataUpdate, component, componentSuccess, componentFailure, componentUpdate]

def name : Method → String
  | register => "Register"
  | registerSuccess => "RegisterSuccess"
  | registerFailure => "RegisterFailure"
  | command => "Command"
  | commandSuccess => "CommandSuccess"
  | commandFailure => "CommandFailure"
  | event => "Event"
  | liveDataUpdate => "LiveDataUpdate"
  | component => "Component"
  | componentSuccess => "ComponentSuccess"
  | componentFailure => "ComponentFailure"
  | componentUpdate => "ComponentUpdate"

def ofName? (s : String) : Option Method := all.find? (·.name == s)

def answersRegistration : Method → Bool
  | registerSuccess | registerFailure => true
  | _ => false

theorem ofName?_name (m : Method) : ofName? m.name = some m := by cases m <;> decide

end Method

inductive ResourceState where
  | pending
  | ready
  | error
  | released
  deriving DecidableEq

namespace ResourceState

def all : List ResourceState := [pending, ready, error, released]

def name : ResourceState → String
  | pending => "Pending"
  | ready => "Ready"
  | error => "Error"
  | released => "Released"

def ofName? (s : String) : Option ResourceState := all.find? (·.name == s)

end ResourceState

/-- The kinds of changes that an update of live data may ask for. -/
inductive OperationKind where
  | insert
  | update
  | set
  | remove
  | clear
  deriving DecidableEq

namespace OperationKind

def all : List OperationKind := [insert, update, set, remove, clear]

def name : OperationKind → String
  | insert => "Insert"
  | update => "Update"
  | set => "Set"
  | remove => "Remove"
  | clear => "Clear"

def ofName? (s : String) : Option OperationKind := all.find? (·.name == s)

end OperationKind

end ExtensionHost
