import ExtensionHost.Client.Delivery
import ExtensionHost.Client.Handling
import ExtensionHost.Message.Command
import ExtensionHost.Message.Component
import ExtensionHost.Message.Envelope
import ExtensionHost.Message.Event
import ExtensionHost.Message.Registration
import ExtensionHost.Schema.Read

namespace ExtensionHost.Client

open Handling

def liftMessage {α : Type} : Except MessageFault α → Except ClientFault α :=
  Except.mapError .message

/-- The token that the extension sent, unless it leaves the choice to the host. -/
def chooseToken (uri fresh sent : String) : String :=
  if sent = autoToken then s!"{uri}-{fresh}" else sent

def connect (fresh : String) (success : RegisterSuccess) (schema : Schema)
    (warnings : List SchemaWarning) : Connection where
  token := chooseToken schema.uri fresh success.token
  schema := { schema with
    environment := (success.environment.map Environment.map).getD .available }
  warnings
  feeds := .ofList (schema.liveData.values.map fun d => (d.name, Feed.ofDefinition d))

def register (fresh : String) (message : Json) : Handling Unit := do
  let success ← liftMessage (RegisterSuccess.decode message)
  let c ← client
  let (schema, warnings) ← onKeys (Schema.load c.config.maxSchemaVersion success.schema)
  let connection := connect fresh success schema warnings
  act fun c => ({ c with registration := .registered connection },
    warnings.map (fun w => .log (.schemaWarning schema.uri w)) ++
      [.log (.registered schema.uri connection.token)])

/-- Settles the action that waits for the answer. An answer that nobody waits for is accepted, an
id that has not been issued is not. -/
def receiveResponse (ids : CommandIds) (method : Method) (message : Json) : Handling Unit := do
  let response ← liftMessage (CommandResponse.decode method message)
  if ids.lastIssued < response.id then throw (.unissuedId response.id ids.lastIssued)
  else
    act fun c =>
      match c.pending.get? response.id with
      | some action =>
        ({ c with pending := c.pending.erase response.id }, [.resolve action response.result])
      | none => (c, [.log (.nothingPending c.uri response.id)])

def receiveEvent (bound : Option DocumentId) (message : Json) : Handling Unit := do
  let event ← liftMessage (EventMessage.decode message)
  let c ← client
  match c.schema.eventMode? event.name with
  | none => throw (.unknownEvent event.name)
  | some mode =>
    c.checkTarget event.target
    act fun c =>
      c.deliver bound [⟨c.uri, event.name, event.payload, mode == .fast, event.resourceId⟩]

def applyOperation (heard : Bool) (feed : Feed) (operation : Json) : Except LiveFault Feed := do
  let op ← (Operation.decode operation).mapError .undecodable
  if heard then feed.apply op else feed.applyUnheard op

def applyOperations (heard : Bool) : Feed → List Json → Feed × List LiveFault
  | feed, [] => (feed, [])
  | feed, operation :: rest =>
    match applyOperation heard feed operation with
    | .ok next => applyOperations heard next rest
    | .error fault =>
      let (final, faults) := applyOperations heard feed rest
      (final, fault :: faults)

/-- Applies a batch of operations and then reports it. Without a document the report has to wait
until one is bound. -/
def receiveLiveUpdate (bound : Option DocumentId) (message : Json) : Handling Unit := do
  let update ← liftMessage (LiveUpdate.decode message)
  let c ← client
  match c.feeds.get? update.name with
  | none => throw (.unknownLiveData update.name)
  | some feed =>
    c.checkTarget update.target
    let (feed, faults) := applyOperations bound.isSome feed update.operations
    act fun c => (c.withFeeds (c.feeds.insert update.name feed),
      faults.map fun f => .log (.operationSkipped c.uri update.name f))
    if bound.isSome && feed.pending then
      act fun c => (c.withFeeds (c.feeds.insert update.name feed.reported)).announce bound
        feed.changeNotices

def receiveComponent (bound : Option (DocumentId × Document)) (method : Method)
    (message : Json) : Handling Unit := do
  let response ← liftMessage (ComponentResponse.decode method message)
  match bound.bind fun (id, d) => (d.find? response.resourceId).map fun i => (id, i) with
  | none => act fun c => (c, [.log (.unknownComponent c.uri response.resourceId)])
  | some (id, i) =>
    match method with
    | .componentFailure => act fun c => (c, [.call id (.fail i response.code response.message)])
    | .componentUpdate =>
      let payload := response.payload.getD .empty
      act fun c => (c, payload.entries.map fun (name, v) => .call id (.setCalculated i name v))
    | _ => return

def receiveRegistered (ids : CommandIds) (bound : Option (DocumentId × Document))
    (method : Method) (message : Json) : Handling Unit :=
  match method with
  | .registerSuccess | .registerFailure => throw .alreadyRegistered
  | .commandSuccess | .commandFailure => receiveResponse ids method message
  | .event => receiveEvent (bound.map (·.1)) message
  | .liveDataUpdate => receiveLiveUpdate (bound.map (·.1)) message
  | .componentSuccess | .componentFailure | .componentUpdate =>
    receiveComponent bound method message
  | .register | .command | .component => throw (.unexpectedMethod method)

def giveUp : Handling Unit := act fun c => ({ c with registration := .failed }, [])

/-- Tries to register. What cannot be used makes registration fail. -/
def tryRegister (fresh : String) (message : Json) : Handling Unit :=
  tryCatch (register fresh message) fun fault => do
    giveUp
    throw fault

def methodOf (c : Client) (message : Json) : Except MessageFault Method := do
  let envelope ← Envelope.read message
  envelope.checkVersion c.config.interfaceVersion
  envelope.requireMethod

def process (ids : CommandIds) (bound : Option (DocumentId × Document)) (fresh : String)
    (message : Json) : Handling Unit := do
  let c ← client
  let method ← liftMessage (c.methodOf message)
  match c.registration, method with
  | .registered _, method => receiveRegistered ids bound method message
  | .failed, _ => throw .registrationFailed
  | _, .registerSuccess => tryRegister fresh message
  | _, .registerFailure => giveUp
  | _, _ => throw .notRegistered

def handle (c : Client) (services : Services) (bound : Option (DocumentId × Document))
    (fresh : String) (message : Json) : Receipt :=
  (process services.commandIds bound fresh message).receipt ⟨c, services.keys, []⟩

/-- Handles an inbound message. A bound document resolves the bindings in it first. `fresh` is used
for the token if the extension asks for one. -/
def receive (c : Client) (services : Services) (bound : Option (DocumentId × Document))
    (fresh : String) (message : Json) : Receipt :=
  let message := match bound with
    | some (_, d) => d.evaluate message
    | none => message
  let receipt := c.handle services bound fresh message
  let refusal := match receipt.result with
    | .ok _ => []
    | .error fault => [Effect.log (.refused receipt.client.uri receipt.client.token fault)]
  { receipt with effects := c.trace (.inbound c.uri message) ++ receipt.effects ++ refusal }

def receiveText (c : Client) (services : Services) (bound : Option (DocumentId × Document))
    (fresh text : String) : Receipt :=
  match readMessage text with
  | .ok message => c.receive services bound fresh message
  | .error fault => ⟨c, services.keys, [.log (.unreadable c.uri)], .error (.message fault)⟩

end ExtensionHost.Client
