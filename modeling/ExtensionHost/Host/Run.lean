import ExtensionHost.Host.Basic
import ExtensionHost.Live.Edit

namespace ExtensionHost.Host

inductive Step where
  | createServices (commandIds : CommandIds) (keys : PropertyKeys)
  | createClient (uri : String) (config : Config) (services : ServicesId)
  | dropClient (client : ClientId)
  | openDocument (document : Document)
  | changeDocument (document : DocumentId) (now : Document)
  | dropDocument (document : DocumentId)
  | createAction
  | requestRegistration (client : ClientId) (settings : Json)
  | receive (client : ClientId) (fresh : String) (message : Json)
  | receiveText (client : ClientId) (fresh text : String)
  | bind (client : ClientId) (document : DocumentId)
  | issue (client : ClientId) (invocation : Invocation) (action : Option ActionId)
  | resolve (action : ActionId) (result : Option Json)
  | terminate (action : ActionId)
  | edit (client : ClientId) (name : String) (edit : Edit)
  | discard (client : ClientId) (name : String)
  | flush (client : ClientId) (name : String)
  | flushAll (client : ClientId)
  | componentChange (client : ClientId) (component : Component)
  | disconnect (client : ClientId) (code : Int) (message : String)

inductive Answer where
  | done
  | created (id : Nat)
  | settled (done : Bool)
  | accepted (result : Except ClientFault Unit)
  | message (result : Except ClientFault Json)
  | reported (count : Nat)

open Outcome in
/-- Carries out one operation. An edit that fails changes nothing. Discarding throws the recorded
changes of live data away. -/
def perform (h : Host) : Step → Outcome Answer
  | .createServices commandIds keys => (quiet (h.createServices commandIds keys)).map .created
  | .createClient uri config services => (quiet (h.createClient uri config services)).map .created
  | .dropClient client => quiet (h.dropClient client, .done)
  | .openDocument document => (quiet (h.openDocument document)).map .created
  | .changeDocument document now => quiet (h.changeDocument document now, .done)
  | .dropDocument document => quiet (h.dropDocument document, .done)
  | .createAction => (quiet h.createAction).map .created
  | .requestRegistration client settings =>
    (h.requestRegistration client settings).map fun m => .message (.ok m)
  | .receive client fresh message => (h.receive client fresh message).map .accepted
  | .receiveText client fresh text => (h.receiveText client fresh text).map .accepted
  | .bind client document => (h.bind client document).map fun _ => .done
  | .issue client invocation action => (h.issue client invocation action).map .message
  | .resolve action result => (quiet (h.resolve action result)).map .settled
  | .terminate action => (quiet (h.terminate action)).map .settled
  | .edit client name edit => quiet (h.editLiveData client name (·.edited edit), .done)
  | .discard client name => quiet (h.editLiveData client name (·.forgetChanges), .done)
  | .flush client name => (h.flush client name).map .accepted
  | .flushAll client => (h.flushAll client).map .reported
  | .componentChange client component => (h.componentChange client component).map .message
  | .disconnect client code message => (h.disconnect client code message).map fun _ => .done

def after (h : Host) (steps : List Step) : Host := steps.foldl (fun h s => (h.perform s).host) h

theorem after_append (h : Host) (a b : List Step) : h.after (a ++ b) = (h.after a).after b := by
  simp [after]

/-- The states that a host program can bring about. -/
def Reachable (h : Host) : Prop := ∃ steps, h = start.after steps

end ExtensionHost.Host
