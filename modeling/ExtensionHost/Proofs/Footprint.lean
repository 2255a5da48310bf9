import ExtensionHost.Proofs.Binding
import ExtensionHost.Proofs.Ownership

namespace ExtensionHost

namespace SortedMap

variable {κ ν : Type} [Ord κ] [Std.LawfulEqOrd κ]

theorem insert_eq_self [Std.TransOrd κ] {m : SortedMap κ ν} {key : κ} {v : ν}
    (h : m.get? key = some v) : m.insert key v = m := by
  refine eq_of_get? fun a => ?_
  rw [get?_insert]
  split
  · rename_i heq
    rw [Std.LawfulEqOrd.eq_of_compare heq, h]
  · rfl

end SortedMap

theorem documentCalls_append (es fs : List Effect) :
    documentCalls (es ++ fs) = documentCalls es ++ documentCalls fs :=
  List.filterMap_append ..

theorem documentCalls_of_logs {es : List Effect} (h : ∀ e ∈ es, e.isLog) :
    documentCalls es = [] := by
  rw [documentCalls_of_deliveries fun e he => Effect.isDelivery_of_isLog (h e he),
    handled_of_logs h]
  rfl

theorem documentCalls_calls (d : DocumentId) (requests : List DocumentCall) :
    documentCalls (requests.map (.call d)) = requests.map (d, ·) := by
  rw [documentCalls, List.filterMap_map, ← List.filterMap_eq_map]
  rfl

namespace Feed

structure SameDeclaration (f f' : Feed) : Prop where
  name : f'.name = f.name
  typeName : f'.typeName = f.typeName
  onAdd : f'.onAdd = f.onAdd
  onUpdate : f'.onUpdate = f.onUpdate
  onRemove : f'.onRemove = f.onRemove

theorem current_of_mem_changeNotices {f : Feed} {n : Notice} (hn : n ∈ f.changeNotices) :
    n.current = f.replica.snapshot := by
  unfold changeNotices at hn
  split at hn
  · exact current_of_mem_snapshotNotices hn
  · split at hn
    · rename_i a ha
      rw [current_of_mem_arrayNotices hn, ha]
      rfl
    · rename_i m hm
      rw [current_of_mem_mapNotices hn, hm]
      rfl

end Feed

namespace Host

theorem settleAll_append (h : Host) (es fs : List Effect) :
    h.settleAll (es ++ fs) = (h.settleAll es).settleAll fs :=
  List.foldl_append ..

theorem settleAll_calls (h : Host) (d : DocumentId) (requests : List DocumentCall) :
    h.settleAll (requests.map (.call d)) = h := by
  induction requests with
  | nil => rfl
  | cons request rest ih => exact ih

end Host

namespace Client

variable {c c' : Client} {bound : Option (DocumentId × Document)} {method : Method}
  {message : Json} {es : List Effect}

theorem announce_bound (c : Client) (d : DocumentId) (notices : List Notice) :
    ∃ dropped : List Effect, (∀ e ∈ dropped, e.isLog) ∧ c.announce (some d) notices =
      (c, dropped ++ (c.eventsOf notices).map fun e => .call d (.handle e)) := by
  obtain ⟨dropped, hlog, heffects⟩ := c.announce_effects (some d) notices
  exact ⟨dropped, hlog, Prod.ext rfl heffects⟩

theorem reacted_isDelivery {ids : CommandIds} (h : Reacted c ids bound method message c' es)
    (hmethod : method = .event ∨ method = .liveDataUpdate) : ∀ e ∈ es, e.isDelivery := by
  cases h with
  | answered hanswer | unawaited hanswer =>
    rcases hmethod with rfl | rfl <;> rcases hanswer with hanswer | hanswer <;> cases hanswer
  | event => exact c.deliver_isDelivery _ _
  | updated =>
    intro e he
    obtain ⟨f, -, rfl⟩ := List.mem_map.1 he
    rfl
  | reported =>
    intro e he
    rcases List.mem_append.1 he with he | he
    · obtain ⟨f, -, rfl⟩ := List.mem_map.1 he
      rfl
    · exact announce_isDelivery _ _ _ e he
  | component hother =>
    rcases hmethod with rfl | rfl
    · exact absurd rfl hother.1
    · exact absurd rfl hother.2.1

theorem reaction_of_accepted {services : Services} {fresh : String} (hphase : c.phase = .registered)
    (hok : (c.receive services bound fresh message).result = .ok ()) :
    ∃ method q, c.methodOf (evaluated bound message) = .ok method ∧
      (receiveRegistered services.commandIds bound method (evaluated bound message)).runFrom
        ⟨c, services.keys, []⟩ = (.ok (), q) ∧
      c.receive services bound fresh message = ⟨q.client, q.keys,
        c.trace (.inbound c.uri (evaluated bound message)) ++ q.effects, .ok ()⟩ := by
  obtain ⟨conn, hconn⟩ := phase_eq_registered.1 hphase
  have hregistered := connection?_eq_some.1 hconn
  rw [receive_result, handle_result_eq_ok] at hok
  obtain ⟨q, hprocess⟩ := hok
  cases hm : c.methodOf (evaluated bound message) with
  | error fault =>
    rw [runFrom_process, hm] at hprocess
    cases hprocess
  | ok method =>
    refine ⟨method, q, rfl, ?_, ?_⟩
    · rw [← runFrom_process_registered _ _ _ _ _ fresh hregistered hm]
      exact hprocess
    · have hreceipt := handle_eq c services bound fresh (evaluated bound message) hprocess
      rcases bound with _ | ⟨id, d⟩ <;>
      · simp only [evaluated] at hreceipt ⊢
        simp only [receive, hreceipt, List.append_nil]

theorem applyOperation_declaration {heard : Bool} {f f' : Feed} {operation : Json}
    (h : applyOperation heard f operation = .ok f') : f.SameDeclaration f' := by
  obtain ⟨op, -, happ⟩ := bind_eq_ok.1 h
  cases hr : f.replica.apply op with
  | error fault => cases heard <;> simp [Feed.apply, Feed.applyUnheard, hr, Except.map] at happ
  | ok replica =>
    cases heard <;>
    · simp only [Feed.apply, Feed.applyUnheard, hr, Except.map, if_true, Bool.false_eq_true,
        if_false, Except.ok.injEq] at happ
      subst happ
      constructor <;> rfl

theorem applyOperations_declaration (heard : Bool) (operations : List Json) (f : Feed) :
    f.SameDeclaration (applyOperations heard f operations).1 := by
  induction operations generalizing f with
  | nil => constructor <;> rfl
  | cons operation rest ih =>
    unfold applyOperations
    split
    · rename_i next happ
      obtain ⟨hname, htype, hadd, hupdate, hremove⟩ := applyOperation_declaration happ
      obtain ⟨hname', htype', hadd', hupdate', hremove'⟩ := ih next
      exact ⟨hname'.trans hname, htype'.trans htype, hadd'.trans hadd, hupdate'.trans hupdate,
        hremove'.trans hremove⟩
    · exact ih f

/-- What no message changes that a registered client accepts. -/
structure Keeps (c c' : Client) : Prop where
  uri : c'.uri = c.uri
  token : c'.token = c.token
  schema : c'.schema = c.schema
  warnings : c'.warnings = c.warnings
  phase : c'.phase = c.phase
  document : c'.document = c.document
  services : c'.services = c.services
  config : c'.config = c.config

theorem keeps_queues (c : Client) (pending : SortedMap UInt64 ActionId) (held : List Event) :
    c.Keeps { c with pending, held } :=
  ⟨rfl, rfl, rfl, rfl, rfl, rfl, rfl, rfl⟩

theorem keeps_refl (c : Client) : c.Keeps c := c.keeps_queues c.pending c.held

theorem keeps_withFeeds (c : Client) (feeds : SortedMap String Feed) :
    c.Keeps (c.withFeeds feeds) := by
  cases hreg : c.registration <;> constructor <;>
    simp [withFeeds, hreg, Client.uri, Client.schema, Client.token, Client.warnings, connection?,
      Client.phase, Registration.phase]

end Client

namespace Host

variable {h h' : Host} {k : ClientId} {c : Client} {method : Method} {message : Json}
  {es : List Effect}

/-- What a message that client `k` accepts makes of the host, and the effects. There is a case for
each way in which a registered client reacts. Whatever a case does not mention stays as it is. -/
inductive Footprint (h : Host) (k : ClientId) (c : Client) (message : Json) :
    Method → Host → List Effect → Prop
  | answered {method : Method} {r : CommandResponse} {a : ActionId} {es : List Effect}
      (hmethod : method = .commandSuccess ∨ method = .commandFailure)
      (hr : CommandResponse.decode method message = .ok r) (ha : c.pending.get? r.id = some a)
      (hcalls : documentCalls es = []) :
      Footprint h k c message method
        { h with
          clients := h.clients.insert k { c with pending := c.pending.erase r.id }
          actions := h.actions.modify a fun x => (x.resolve r.result).1 } es
  | unawaited {method : Method} {r : CommandResponse} {es : List Effect}
      (hmethod : method = .commandSuccess ∨ method = .commandFailure)
      (hr : CommandResponse.decode method message = .ok r) (ha : c.pending.get? r.id = none)
      (hcalls : documentCalls es = []) : Footprint h k c message method h es
  | event {e : EventMessage} {mode : EventMode} {d : DocumentId} {document : Document}
      {es : List Effect} (he : EventMessage.decode message = .ok e)
      (hmode : c.schema.eventMode? e.name = some mode)
      (hd : h.boundDocument c = some (d, document))
      (hcalls : documentCalls es =
        [(d, .handle ⟨c.uri, e.name, e.payload, mode == .fast, e.resourceId⟩)]) :
      Footprint h k c message .event h es
  | held {e : EventMessage} {mode : EventMode} {es : List Effect}
      (he : EventMessage.decode message = .ok e)
      (hmode : c.schema.eventMode? e.name = some mode) (hd : h.boundDocument c = none)
      (hcalls : documentCalls es = []) :
      Footprint h k c message .event
        { h with
          clients := h.clients.insert k { c with
            held := c.held ++ [⟨c.uri, e.name, e.payload, mode == .fast, e.resourceId⟩] } } es
  | updated {u : LiveUpdate} {feed next : Feed} {es : List Effect}
      (hu : LiveUpdate.decode message = .ok u) (hf : c.feeds.get? u.name = some feed)
      (hnext : (Client.applyOperations (h.boundDocument c).isSome feed u.operations).1 = next)
      (hsame : feed.SameDeclaration next) (hquiet : (h.boundDocument c).isSome → ¬ next.pending)
      (hcalls : documentCalls es = []) :
      Footprint h k c message .liveDataUpdate
        { h with
          clients := h.clients.insert k (c.withFeeds (c.feeds.insert u.name next)) } es
  | reported {u : LiveUpdate} {feed next : Feed} {d : DocumentId} {document : Document}
      {logs : List Effect} (hu : LiveUpdate.decode message = .ok u)
      (hf : c.feeds.get? u.name = some feed) (hd : h.boundDocument c = some (d, document))
      (hnext : (Client.applyOperations true feed u.operations).1 = next)
      (hsame : feed.SameDeclaration next) (hlogs : ∀ e ∈ logs, e.isLog)
      (hevents : ∀ e ∈ c.eventsOf next.changeNotices, e.uri = c.uri ∧ e.fast = true ∧
        e.resourceId = none ∧ e.payload.get? "current" = some next.replica.snapshot) :
      Footprint h k c message .liveDataUpdate
        { h with
          clients := h.clients.insert k (c.withFeeds (c.feeds.insert u.name next.reported)) }
        (logs ++ (c.eventsOf next.changeNotices).map fun e => .call d (.handle e))
  | component {method : Method} {r : ComponentResponse} {d : DocumentId} {document : Document}
      {i : Nat} {es : List Effect}
      (hmethod : method = .componentSuccess ∨ method = .componentFailure ∨
        method = .componentUpdate)
      (hr : ComponentResponse.decode method message = .ok r)
      (hd : h.boundDocument c = some (d, document)) (hi : document.find? r.resourceId = some i)
      (hcalls : documentCalls es = (r.requests method i).map (d, ·)) :
      Footprint h k c message method h es
  | unknown {method : Method} {r : ComponentResponse} {es : List Effect}
      (hmethod : method = .componentSuccess ∨ method = .componentFailure ∨
        method = .componentUpdate)
      (hr : ComponentResponse.decode method message = .ok r)
      (hd : ∀ d document, h.boundDocument c = some (d, document) →
        document.find? r.resourceId = none)
      (hcalls : documentCalls es = []) : Footprint h k c message method h es

theorem footprint_reported {u : LiveUpdate} {feed next : Feed} {faults : List LiveFault}
    {d : DocumentId} {document : Document} {logs : List Effect} (hlogs : ∀ e ∈ logs, e.isLog)
    (hu : LiveUpdate.decode message = .ok u) (hf : c.feeds.get? u.name = some feed)
    (hd : h.boundDocument c = some (d, document))
    (happ : Client.applyOperations true feed u.operations = (next, faults)) :
    Footprint h k c message .liveDataUpdate
      { h with
        clients := h.clients.insert k ((c.withFeeds (c.feeds.insert u.name next.reported)).announce
          (some d) next.changeNotices).1 }
      (logs ++ ((faults.map fun f => .log (.operationSkipped c.uri u.name f)) ++
        ((c.withFeeds (c.feeds.insert u.name next.reported)).announce (some d)
          next.changeNotices).2)) := by
  obtain ⟨dropped, hdropped, hannounce⟩ :=
    (c.withFeeds (c.feeds.insert u.name next.reported)).announce_bound d next.changeNotices
  obtain rfl := congrArg Prod.fst happ
  rw [hannounce, Client.eventsOf_congr (c.withFeeds_uri _), ← List.append_assoc,
    ← List.append_assoc]
  refine .reported hu hf hd rfl (Client.applyOperations_declaration ..) (fun e he => ?_)
    fun e he => Client.of_mem_eventsOf_notices (fun _ => Feed.current_of_mem_changeNotices) he
  simp only [List.mem_append, List.mem_map] at he
  rcases he with (he | ⟨f, -, rfl⟩) | he
  · exact hlogs e he
  · rfl
  · exact hdropped e he

/-- The footprint of a reaction, whatever has been put on record before. -/
theorem footprint_reacted {ids : CommandIds} {c' : Client} {logs : List Effect}
    (hc : h.clients.get? k = some c) (hlogs : ∀ e ∈ logs, e.isLog)
    (hmethod : method = .event ∨ method = .liveDataUpdate ∨ method = .commandSuccess ∨
      method = .commandFailure)
    (hr : Client.Reacted c ids (h.boundDocument c) method message c' es) :
    Footprint h k c message method
      ({ h with clients := h.clients.insert k c' }.settleAll (logs ++ es)) (logs ++ es) := by
  have hsame : ({ h with clients := h.clients.insert k c } : Host) = h := by
    rw [SortedMap.insert_eq_self hc]
  have hcalls : documentCalls (logs ++ es) = documentCalls es := by
    rw [documentCalls_append, documentCalls_of_logs hlogs, List.nil_append]
  have hdelivered : method = .event ∨ method = .liveDataUpdate →
      ∀ h' : Host, h'.settleAll es = h' := fun hm h' =>
    settleAll_of_deliveries h' (Client.reacted_isDelivery hr hm)
  rw [settleAll_append, settleAll_of_logs _ hlogs]
  cases hr with
  | answered hmethod hr _ ha => exact .answered hmethod hr ha hcalls
  | unawaited hmethod hr _ ha =>
    rw [settleAll_of_logs _ (by simp [Effect.isLog]), hsame]
    exact .unawaited hmethod hr ha hcalls
  | event hmethod he hmode _ =>
    subst hmethod
    rw [hdelivered (.inl rfl)]
    cases hd : h.boundDocument c with
    | none =>
      rw [hd] at hcalls
      exact .held he hmode hd hcalls
    | some b =>
      rw [hd] at hcalls
      simp only [Option.map_some, Client.deliver, hsame]
      exact .event he hmode hd hcalls
  | @updated u feed next faults hmethod hu hf _ happ hsilent =>
    subst hmethod
    obtain rfl := congrArg Prod.fst happ
    rw [hdelivered (.inr rfl)]
    refine .updated hu hf rfl (Client.applyOperations_declaration ..) (fun hbound => ?_)
      (hcalls.trans (documentCalls_of_logs (by simp [Effect.isLog])))
    simpa [hbound] using hsilent
  | @reported u feed next faults hmethod hu hf _ happ hloud =>
    subst hmethod
    rw [hdelivered (.inr rfl)]
    obtain ⟨hbound, -⟩ := Bool.and_eq_true_iff.1 hloud
    obtain ⟨⟨d, document⟩, hd⟩ := Option.isSome_iff_exists.1 hbound
    rw [hd] at happ ⊢
    exact footprint_reported hlogs hu hf hd happ
  | component hnone =>
    obtain ⟨h₁, h₂, h₃, h₄⟩ := hnone
    rcases hmethod with h | h | h | h <;> contradiction

theorem footprint_component {keys : PropertyKeys} {q : Progress}
    {logs : List Effect} (hc : h.clients.get? k = some c) (hlogs : ∀ e ∈ logs, e.isLog)
    (hmethod : method = .componentSuccess ∨ method = .componentFailure ∨
      method = .componentUpdate)
    (hok : (Client.receiveComponent (h.boundDocument c) method message).runFrom ⟨c, keys, []⟩ =
      (.ok (), q)) :
    Footprint h k c message method
      ({ h with clients := h.clients.insert k q.client }.settleAll (logs ++ q.effects))
      (logs ++ q.effects) := by
  rw [Client.runFrom_receiveComponent] at hok
  split at hok
  · cases hok
  · rename_i r hr
    split at hok
    · rename_i hnone
      cases hok
      rw [SortedMap.insert_eq_self hc, settleAll_append, settleAll_of_logs _ hlogs]
      refine .unknown hmethod hr (fun d document hd => ?_) ?_
      · simpa [hd] using hnone
      · rw [documentCalls_append, documentCalls_of_logs hlogs]
        rfl
    · rename_i d i hfound
      cases hok
      obtain ⟨⟨_, document⟩, hd, hi⟩ := Option.bind_eq_some_iff.1 hfound
      obtain ⟨_, hi, hpair⟩ := Option.map_eq_some_iff.1 hi
      cases hpair
      rw [SortedMap.insert_eq_self hc, settleAll_append, settleAll_of_logs _ hlogs]
      rw [List.nil_append, settleAll_calls]
      refine .component hmethod hr hd hi ?_
      rw [documentCalls_append, documentCalls_of_logs hlogs, List.nil_append,
        documentCalls_calls]

/-- What stays of a host whenever registered client `k` accepts a message: the ids and keys of all
services, all other clients, and of the client all but its table, its live data and what it holds.
-/
structure Retains (h h' : Host) (k : ClientId) (c : Client) : Prop where
  next : h'.next = h.next
  services : h'.services = h.services
  others : ∀ j, j ≠ k → h'.clients.get? j = h.clients.get? j
  client : ∃ c', h'.clients.get? k = some c' ∧ c.Keeps c' ∧
    h'.boundDocument c' = h.boundDocument c

theorem retains_of_client {c' : Client} (hkeeps : c.Keeps c') (hnext : h'.next = h.next)
    (hservices : h'.services = h.services) (hclients : h'.clients = h.clients.insert k c')
    (hdocuments : h'.documents = h.documents) :
    Retains h h' k c where
  next := hnext
  services := hservices
  others j hj := by simp [hclients, hj]
  client := ⟨c', by simp [hclients], hkeeps, by
    simp only [boundDocument, hkeeps.document, hdocuments]⟩

theorem Footprint.retains (hc : h.clients.get? k = some c)
    (hf : Footprint h k c message method h' es) : Retains h h' k c := by
  have hsame : h.clients = h.clients.insert k c := (SortedMap.insert_eq_self hc).symm
  cases hf with
  | unawaited | event | component | unknown =>
    exact retains_of_client c.keeps_refl rfl rfl hsame rfl
  | answered | held => exact retains_of_client (c.keeps_queues _ _) rfl rfl rfl rfl
  | updated | reported => exact retains_of_client (c.keeps_withFeeds _) rfl rfl rfl rfl

theorem footprint_receiveRegistered {ids : CommandIds} {keys : PropertyKeys} {q : Progress}
    {logs : List Effect} (hc : h.clients.get? k = some c) (hlogs : ∀ e ∈ logs, e.isLog)
    (hok : (Client.receiveRegistered ids (h.boundDocument c) method message).runFrom ⟨c, keys, []⟩ =
      (.ok (), q)) :
    Footprint h k c message method
      ({ h with clients := h.clients.insert k q.client }.settleAll (logs ++ q.effects))
      (logs ++ q.effects) := by
  cases method with
  | registerSuccess | registerFailure | register | command | component => cases hok
  | componentSuccess => exact footprint_component hc hlogs (.inl rfl) hok
  | componentFailure => exact footprint_component hc hlogs (.inr (.inl rfl)) hok
  | componentUpdate => exact footprint_component hc hlogs (.inr (.inr rfl)) hok
  | event | liveDataUpdate | commandSuccess | commandFailure =>
    exact footprint_reacted hc hlogs (by simp) (Client.reacts_receiveRegistered hok).2

/-- A message that a registered client accepts changes what its method owns and nothing else. An
answer takes at most one entry out of the table and resolves its action. An event is handled by the
document that the client is bound to, in the declared mode, or held if there is none. An update
changes one live data, and when all of its operations have been applied, a bound document is shown
the contents by handlers in fast mode. A report is passed on to the component that the document
finds for it, and changes nothing of the client. -/
theorem accepted_footprint {s : Step} {message : Json} (hc : h.clients.get? k = some c)
    (hphase : c.phase = .registered) (hs : s.delivery? = some (k, some message))
    (hok : (h.perform s).result = some (.accepted (.ok ()))) :
    Retains h (h.perform s).host k c ∧
      ∃ method, c.methodOf (Client.evaluated (h.boundDocument c) message) = .ok method ∧
        Footprint h k c (Client.evaluated (h.boundDocument c) message) method (h.perform s).host
          (h.perform s).effects := by
  obtain ⟨fresh, hperform⟩ := perform_of_delivery hc hs
  rw [hperform] at hok
  simp only [accept, Outcome.map, Option.map_some, Option.some.injEq,
    Answer.accepted.injEq] at hok
  obtain ⟨method, q, hmethod, hreact, hreceipt⟩ := Client.reaction_of_accepted hphase hok
  have hfootprint := footprint_receiveRegistered hc (c.trace_isLog
    (.inbound c.uri (Client.evaluated (h.boundDocument c) message))) hreact
  have hhost : (h.perform s).host = { h with clients := h.clients.insert k q.client }.settleAll
      (c.trace (.inbound c.uri (Client.evaluated (h.boundDocument c) message)) ++ q.effects) := by
    rw [hperform, hreceipt]
    exact accept_host (Client.reacts_receiveRegistered hreact).1
  have heffects : (h.perform s).effects =
      c.trace (.inbound c.uri (Client.evaluated (h.boundDocument c) message)) ++ q.effects := by
    rw [hperform, hreceipt]
    rfl
  rw [← hhost, ← heffects] at hfootprint
  exact ⟨hfootprint.retains hc, method, hmethod, hfootprint⟩

def opening : Step :=
  .receive 1 "" (messageOf .event [("name", .string "opened"), ("target", .string "notes")])

/-- It changes nothing when the client is bound to a document: the document is called. -/
theorem accepted_footprint_opening :
    ((start.after visiting).perform opening).host = start.after visiting ∧
      ∃ e, documentCalls ((start.after visiting).perform opening).effects = [(2, .handle e)] := by
  have hclient : ∃ c d, (start.after visiting).clients.get? 1 = some c ∧ c.phase = .registered ∧
      (start.after visiting).boundDocument c = some (2, d) ∧
      c.methodOf (Client.evaluated ((start.after visiting).boundDocument c) (messageOf .event
        [("name", .string "opened"), ("target", .string "notes")])) = .ok .event :=
    ⟨_, _, rfl, by decide +kernel, rfl, rfl⟩
  obtain ⟨c, d, hc, hphase, hbound, hmethod⟩ := hclient
  obtain ⟨-, method, hmethod', hfootprint⟩ :=
    accepted_footprint (s := opening) hc hphase rfl rfl
  obtain rfl : Method.event = method := Except.ok.inj (hmethod.symm.trans hmethod')
  generalize (start.after visiting).perform opening = outcome at hfootprint ⊢
  obtain ⟨host, effects, result⟩ := outcome
  cases hfootprint with
  | event _ _ hd hcalls =>
    obtain ⟨rfl, rfl⟩ := Prod.mk.inj (Option.some.inj (hbound.symm.trans hd))
    exact ⟨rfl, _, hcalls⟩
  | held _ _ hnone => simp [hbound] at hnone
  | answered hother | unawaited hother | component hother | unknown hother => simp at hother

end Host

end ExtensionHost
