import ExtensionHost.Action.Basic
import ExtensionHost.Client.Receive
import ExtensionHost.Client.Send

namespace ExtensionHost

abbrev ClientId := Nat

/-- What terminating an action has to undo: a client no longer waits for an answer. -/
structure Waiting where
  client : ClientId
  command : UInt64
  deriving DecidableEq

/-- All that a host program works with. Numbers are given out once only, so what has been dropped
is never confused with something newer. -/
structure Host where
  next : Nat
  services : SortedMap ServicesId Services
  clients : SortedMap ClientId Client
  documents : SortedMap DocumentId Document
  actions : SortedMap ActionId (Action Waiting)

namespace Host

def start : Host := ⟨0, .empty, .empty, .empty, .empty⟩

def servicesOf (h : Host) (c : Client) : Services := (h.services.get? c.services).getD default

/-- The document that a client is bound to, unless it has been dropped. -/
def boundDocument (h : Host) (c : Client) : Option (DocumentId × Document) :=
  c.document.bind fun id => (h.documents.get? id).map fun d => (id, d)

/-- The place of an effect in the host: actions are resolved. What a document makes of a call is its
own affair, and log records do not matter. -/
def settle (h : Host) : Effect → Host
  | .log _ | .call _ _ => h
  | .resolve id result => { h with actions := h.actions.modify id fun a => (a.resolve result).1 }

def settleAll (h : Host) (effects : List Effect) : Host := effects.foldl settle h

def commit (h : Host) (id : ClientId) (c : Client) (effects : List Effect) : Host :=
  { h with clients := h.clients.insert id c }.settleAll effects

def createServices (h : Host) (commandIds : CommandIds) (keys : PropertyKeys) :
    Host × ServicesId :=
  ({ h with
      next := h.next + 1
      services := h.services.insert h.next ⟨commandIds, keys⟩ }, h.next)

def createClient (h : Host) (uri : String) (config : Config) (services : ServicesId) :
    Host × ClientId :=
  ({ h with
      next := h.next + 1
      clients := h.clients.insert h.next (.create uri config services) }, h.next)

def dropClient (h : Host) (id : ClientId) : Host := { h with clients := h.clients.erase id }

def openDocument (h : Host) (d : Document) : Host × DocumentId :=
  ({ h with next := h.next + 1, documents := h.documents.insert h.next d }, h.next)

/-- A document changes as it likes, on its own or when it has been called. -/
def changeDocument (h : Host) (id : DocumentId) (now : Document) : Host :=
  { h with documents := h.documents.modify id fun _ => now }

/-- Clients do not keep a document alive: the ones bound to it are unbound. -/
def dropDocument (h : Host) (id : DocumentId) : Host := { h with documents := h.documents.erase id }

def createAction (h : Host) : Host × ActionId :=
  ({ h with next := h.next + 1, actions := h.actions.insert h.next .fresh }, h.next)

/-- What a step makes of the host, its effects in order, and its answer. The answer to a step of a
client that does not exist is none. -/
structure Outcome (α : Type) where
  host : Host
  effects : List Effect
  result : Option α

namespace Outcome

variable {α β : Type}

def nothing (h : Host) : Outcome α := ⟨h, [], none⟩

def quiet (r : Host × α) : Outcome α := ⟨r.1, [], some r.2⟩

def map (f : α → β) (o : Outcome α) : Outcome β := ⟨o.host, o.effects, o.result.map f⟩

end Outcome

def withClient {α : Type} (h : Host) (id : ClientId)
    (act : Client → Client × List Effect × α) : Outcome α :=
  match h.clients.get? id with
  | none => .nothing h
  | some c =>
    let (c, effects, result) := act c
    ⟨h.commit id c effects, effects, some result⟩

def requestRegistration (h : Host) (id : ClientId) (settings : Json) : Outcome Json :=
  h.withClient id fun c => c.requestRegistration settings

def accept (h : Host) (id : ClientId) (services : ServicesId) (r : Client.Receipt) :
    Outcome (Except ClientFault Unit) :=
  let h := { h with services := h.services.modify services fun s => { s with keys := r.keys } }
  ⟨h.commit id r.client r.effects, r.effects, some r.result⟩

def receive (h : Host) (id : ClientId) (fresh : String) (message : Json) :
    Outcome (Except ClientFault Unit) :=
  match h.clients.get? id with
  | none => .nothing h
  | some c =>
    h.accept id c.services (c.receive (h.servicesOf c) (h.boundDocument c) fresh message)

def receiveText (h : Host) (id : ClientId) (fresh text : String) :
    Outcome (Except ClientFault Unit) :=
  match h.clients.get? id with
  | none => .nothing h
  | some c =>
    h.accept id c.services (c.receiveText (h.servicesOf c) (h.boundDocument c) fresh text)

def bind (h : Host) (id : ClientId) (document : DocumentId) : Outcome Unit :=
  if h.documents.contains document then
    h.withClient id fun c =>
      let (c, effects) := c.bind document
      (c, effects, ())
  else .nothing h

/-- A pending action that waits for the answer to a command, to be forgotten when it is
terminated. -/
def track (h : Host) (id : ClientId) (c : Client) (command : UInt64) (action : ActionId) : Host :=
  match h.actions.get? action with
  | none => h
  | some a =>
    if a.isPending then
      { h with
        actions := h.actions.insert action (a.onTerminate ⟨id, command⟩)
        clients := h.clients.insert id { c with pending := c.pending.insert command action } }
    else h

def issue (h : Host) (id : ClientId) (i : Invocation) (action : Option ActionId) :
    Outcome (Except ClientFault Json) :=
  match h.clients.get? id with
  | none => .nothing h
  | some c =>
    let services := h.servicesOf c
    match c.issue services.commandIds i with
    | .error fault => ⟨h, [], some (.error fault)⟩
    | .ok (ids, command, message) =>
      let h := { h with
        services := h.services.insert c.services { services with commandIds := ids } }
      let h := match action with
        | none => h
        | some action => h.track id c command action
      ⟨h, c.trace (.outbound c.uri message), some (.ok message)⟩

def resolve (h : Host) (action : ActionId) (result : Option Json) : Host × Bool :=
  match h.actions.get? action with
  | none => (h, false)
  | some a =>
    let (a, done) := a.resolve result
    ({ h with actions := h.actions.insert action a }, done)

def forget (h : Host) (w : Waiting) : Host :=
  { h with clients := h.clients.modify w.client fun c =>
      { c with pending := c.pending.erase w.command } }

def terminate (h : Host) (action : ActionId) : Host × Bool :=
  match h.actions.get? action with
  | none => (h, false)
  | some a =>
    let (a, callbacks, done) := a.terminate
    (callbacks.foldl forget { h with actions := h.actions.insert action a }, done)

def editLiveData (h : Host) (id : ClientId) (name : String) (change : Replica → Replica) : Host :=
  match h.clients.get? id with
  | none => h
  | some c =>
    let feeds := c.feeds.modify name fun f => { f with replica := change f.replica }
    { h with clients := h.clients.insert id (c.withFeeds feeds) }

def flush (h : Host) (id : ClientId) (name : String) : Outcome (Except ClientFault Unit) :=
  h.withClient id fun c => c.flush ((h.boundDocument c).map (·.1)) name

def flushAll (h : Host) (id : ClientId) : Outcome Nat :=
  h.withClient id fun c => c.flushAll ((h.boundDocument c).map (·.1))

def componentChange (h : Host) (id : ClientId) (component : Component) :
    Outcome (Except ClientFault Json) :=
  h.withClient id fun c =>
    let result := c.componentChange component
    let traced := match result with
      | .ok message => c.trace (.outbound c.uri message)
      | .error _ => []
    (c, traced, result)

def disconnect (h : Host) (id : ClientId) (code : Int) (message : String) : Outcome Unit :=
  h.withClient id fun c => (c, c.disconnect (h.boundDocument c) code message, ())

end Host

end ExtensionHost
