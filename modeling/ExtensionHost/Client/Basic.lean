import ExtensionHost.Client.CommandIds
import ExtensionHost.Client.Config
import ExtensionHost.Client.Log
import ExtensionHost.Document.Basic
import ExtensionHost.Live.Feed

namespace ExtensionHost

abbrev DocumentId := Nat
abbrev ActionId := Nat
abbrev ServicesId := Nat

/-- What clients share: the source of command ids and the table of property keys. -/
structure Services where
  commandIds : CommandIds
  keys : PropertyKeys
  deriving Inhabited

/-- What a successful registration establishes. -/
structure Connection where
  token : String
  schema : Schema
  warnings : List SchemaWarning
  feeds : SortedMap String Feed

inductive Registration where
  | unregistered
  | awaiting
  | registered (connection : Connection)
  | failed

/-- The host's side of the connection to one extension. `pending` holds the actions that wait for
the answer to a command, `held` the events that found no document. A document that has been dropped
stays on record here but can no longer be found. -/
structure Client where
  requestedUri : String
  config : Config
  services : ServicesId
  registration : Registration
  pending : SortedMap UInt64 ActionId
  document : Option DocumentId
  held : List Event

/-- What a client does to its surroundings. -/
inductive Effect where
  | log (record : LogRecord)
  | call (document : DocumentId) (call : DocumentCall)
  | resolve (action : ActionId) (result : Option Json)

namespace Client

def create (uri : String) (config : Config) (services : ServicesId) : Client where
  requestedUri := uri
  config
  services
  registration := .unregistered
  pending := .empty
  document := none
  held := []

def connection? (c : Client) : Option Connection :=
  match c.registration with
  | .registered connection => some connection
  | _ => none

def schema (c : Client) : Schema :=
  match c.connection? with
  | some connection => connection.schema
  | none => .bare c.requestedUri

def uri (c : Client) : String := c.schema.uri

/-- Empty until registration succeeds. -/
def token (c : Client) : String := (c.connection?.map (·.token)).getD ""

def warnings (c : Client) : List SchemaWarning := (c.connection?.map (·.warnings)).getD []

def feeds (c : Client) : SortedMap String Feed := (c.connection?.map (·.feeds)).getD .empty

def pendingCommands (c : Client) : Nat := c.pending.size

def commandPending (c : Client) (command : UInt64) : Bool := c.pending.contains command

def withFeeds (c : Client) (feeds : SortedMap String Feed) : Client :=
  match c.registration with
  | .registered connection => { c with registration := .registered { connection with feeds } }
  | _ => c

@[simp] theorem withFeeds_connection? (c : Client) (feeds : SortedMap String Feed) :
    (c.withFeeds feeds).connection? = c.connection?.map fun conn => { conn with feeds } := by
  cases h : c.registration <;> simp [withFeeds, connection?, h]

theorem withFeeds_eq (c : Client) (feeds : SortedMap String Feed) :
    c.withFeeds feeds = { c with registration := (c.withFeeds feeds).registration } := by
  unfold withFeeds
  split <;> rfl

@[simp] theorem withFeeds_document (c : Client) (feeds : SortedMap String Feed) :
    (c.withFeeds feeds).document = c.document := by
  rw [withFeeds_eq]

@[simp] theorem withFeeds_held (c : Client) (feeds : SortedMap String Feed) :
    (c.withFeeds feeds).held = c.held := by
  rw [withFeeds_eq]

@[simp] theorem withFeeds_pending (c : Client) (feeds : SortedMap String Feed) :
    (c.withFeeds feeds).pending = c.pending := by
  rw [withFeeds_eq]

@[simp] theorem withFeeds_services (c : Client) (feeds : SortedMap String Feed) :
    (c.withFeeds feeds).services = c.services := by
  rw [withFeeds_eq]

@[simp] theorem withFeeds_requestedUri (c : Client) (feeds : SortedMap String Feed) :
    (c.withFeeds feeds).requestedUri = c.requestedUri := by
  rw [withFeeds_eq]

@[simp] theorem withFeeds_uri (c : Client) (feeds : SortedMap String Feed) :
    (c.withFeeds feeds).uri = c.uri := by
  unfold uri schema
  rw [withFeeds_connection?, withFeeds_requestedUri]
  cases c.connection? <;> rfl

theorem withFeeds_insert_insert (c : Client) (m : SortedMap String Feed) (name : String)
    (a b : Feed) :
    (c.withFeeds (m.insert name a)).withFeeds
        ((c.withFeeds (m.insert name a)).feeds.insert name b) =
      c.withFeeds (m.insert name b) := by
  cases h : c.registration <;>
    simp [withFeeds, feeds, connection?, h, SortedMap.insert_insert]

def environment (c : Client) : Json := c.schema.environment.toJson

def checkTarget (c : Client) (target : String) : Except ClientFault Unit :=
  if target = c.uri then .ok () else .error (.wrongTarget c.uri target)

def trace (c : Client) (record : LogRecord) : List Effect :=
  if c.config.logMessages then [.log record] else []

end Client

end ExtensionHost
