import ExtensionHost.Proofs.Refusal

namespace ExtensionHost

def Effect.component? : Effect → Option (DocumentId × Nat)
  | .call d (.fail i _ _) | .call d (.setCalculated i _ _) => some (d, i)
  | _ => none

def calledComponents (es : List Effect) : List (DocumentId × Nat) := es.filterMap Effect.component?

@[simp] theorem calledComponents_nil : calledComponents [] = [] := rfl

@[simp] theorem calledComponents_append (es fs : List Effect) :
    calledComponents (es ++ fs) = calledComponents es ++ calledComponents fs :=
  List.filterMap_append ..

theorem calledComponents_deliveries {es : List Effect} (h : ∀ e ∈ es, e.isDelivery) :
    calledComponents es = [] := by
  refine List.filterMap_eq_nil_iff.2 fun e he => ?_
  have hd := h e he
  cases e with
  | log | resolve => rfl
  | call d call =>
    cases call with
    | handle => rfl
    | fail | setCalculated => cases hd

theorem calledComponents_logs {es : List Effect} (h : ∀ e ∈ es, e.isLog) :
    calledComponents es = [] :=
  calledComponents_deliveries fun e he => Effect.isDelivery_of_isLog (h e he)

namespace ComponentResponse

/-- A report by which a component fails or changes. Success is not passed on, and an update may
have nothing to set. -/
def Matters (r : ComponentResponse) (method : Method) : Prop :=
  method = .componentFailure ∨
    method = .componentUpdate ∧ ∃ payload, r.payload = some payload ∧ payload.entries ≠ []

end ComponentResponse

namespace Client

variable {c c' : Client} {ids : CommandIds} {bound : Option (DocumentId × Document)}
  {method : Method} {message : Json} {es : List Effect} {id : DocumentId} {i : Nat}

@[simp] theorem calledComponents_trace (c : Client) (record : LogRecord) :
    calledComponents (c.trace record) = [] :=
  calledComponents_logs (c.trace_isLog record)

@[simp] theorem calledComponents_deliver (c : Client) (bound : Option DocumentId)
    (events : List Event) : calledComponents (c.deliver bound events).2 = [] :=
  calledComponents_deliveries (c.deliver_isDelivery bound events)

@[simp] theorem calledComponents_announce (c : Client) (bound : Option DocumentId)
    (notices : List Notice) : calledComponents (c.announce bound notices).2 = [] :=
  calledComponents_deliveries (c.announce_isDelivery bound notices)

@[simp] theorem calledComponents_reportFeeds (c : Client) (bound : Option DocumentId)
    (due : Feed → Bool) (notices : Feed → List Notice) :
    calledComponents (c.reportFeeds bound due notices).2 = [] :=
  calledComponents_deliveries (announceAll_isDelivery _ _ _)

@[simp] theorem calledComponents_bind (c : Client) (d : DocumentId) :
    calledComponents (c.bind d).2 = [] := by
  simp only [bind, calledComponents_append, calledComponents_reportFeeds, calledComponents_deliver,
    List.append_nil]
  split <;> rfl

@[simp] theorem calledComponents_flush (c : Client) (bound : Option DocumentId) (name : String) :
    calledComponents (c.flush bound name).2.1 = [] := by
  unfold flush
  split
  · rfl
  · exact calledComponents_announce ..

theorem calledComponents_reacted (h : Reacted c ids bound method message c' es)
    (hmethod : method = .event ∨ method = .liveDataUpdate ∨ method = .commandSuccess ∨
      method = .commandFailure) : calledComponents es = [] := by
  have hskipped : ∀ (name : String) (faults : List LiveFault),
      calledComponents (faults.map fun f => .log (.operationSkipped c.uri name f)) = [] :=
    fun name faults => calledComponents_logs (by simp [Effect.isLog])
  cases h with
  | answered | unawaited => rfl
  | event => exact calledComponents_deliver ..
  | updated => exact hskipped ..
  | reported => simp [hskipped]
  | component hother =>
    obtain ⟨h₁, h₂, h₃, h₄⟩ := hother
    rcases hmethod with h | h | h | h <;> contradiction

theorem mem_calledComponents_requests {r : ComponentResponse} {d : DocumentId} {j : Nat} :
    (id, i) ∈ calledComponents ((r.requests method j).map (.call d)) ↔
      (id = d ∧ i = j) ∧ r.Matters method := by
  cases method with
  | componentFailure =>
    simp [ComponentResponse.requests, calledComponents, Effect.component?,
      ComponentResponse.Matters]
  | componentUpdate =>
    cases hp : r.payload with
    | none => simp [ComponentResponse.requests, hp, ComponentResponse.Matters, SortedMap.empty]
    | some payload =>
      have hcalls : calledComponents ((r.requests .componentUpdate j).map (.call d)) =
          List.replicate payload.entries.length (d, j) := by
        simp only [ComponentResponse.requests, hp, Option.getD_some, calledComponents,
          List.map_map, List.filterMap_map]
        rw [← List.map_const', ← List.filterMap_eq_map']
        rfl
      rw [hcalls, List.mem_replicate]
      simp [hp, ComponentResponse.Matters, and_comm]
  | _ => simp [ComponentResponse.requests, ComponentResponse.Matters]

variable {keys : PropertyKeys} {result : Except ClientFault Unit} {q : Progress}

/-- A report is about the component that the document finds. Nobody asks who owns that. -/
theorem mem_calledComponents_receiveComponent
    (h : (receiveComponent bound method message).runFrom ⟨c, keys, []⟩ = (result, q)) :
    (id, i) ∈ calledComponents q.effects ↔
      ∃ d r, bound = some (id, d) ∧ ComponentResponse.decode method message = .ok r ∧
        d.find? r.resourceId = some i ∧ r.Matters method := by
  rw [runFrom_receiveComponent] at h
  cases hr : ComponentResponse.decode method message with
  | error fault =>
    rw [hr] at h
    cases h
    simp
  | ok r =>
    rw [hr] at h
    cases bound with
    | none =>
      cases h
      simp [calledComponents, Effect.component?]
    | some b =>
      obtain ⟨d, document⟩ := b
      cases hfound : document.find? r.resourceId with
      | none =>
        simp only [Option.bind_some, hfound, Option.map_none] at h
        cases h
        simp [hfound, calledComponents, Effect.component?]
      | some j =>
        simp only [Option.bind_some, hfound, Option.map_some] at h
        cases h
        simp [hfound, mem_calledComponents_requests, eq_comm (a := d), eq_comm (a := j), and_assoc]

theorem mem_calledComponents_receiveRegistered
    (h : (receiveRegistered ids bound method message).runFrom ⟨c, keys, []⟩ = (result, q)) :
    (id, i) ∈ calledComponents q.effects ↔
      ∃ d r, bound = some (id, d) ∧ ComponentResponse.decode method message = .ok r ∧
        d.find? r.resourceId = some i ∧ r.Matters method := by
  -- Messages of these methods are accepted, too, but lead elsewhere.
  have hquiet : method = .event ∨ method = .liveDataUpdate ∨ method = .commandSuccess ∨
      method = .commandFailure → calledComponents q.effects = [] := by
    intro hmethod
    cases result with
    | error fault =>
      obtain rfl := atomic_receiveRegistered _ _ _ _ _ _ _ h
      rfl
    | ok => exact calledComponents_reacted (reacts_receiveRegistered h).2 hmethod
  cases method with
  | componentSuccess | componentFailure | componentUpdate =>
    exact mem_calledComponents_receiveComponent h
  | registerSuccess | registerFailure | register | command | component =>
    cases h
    simp [ComponentResponse.Matters]
  | event | liveDataUpdate | commandSuccess | commandFailure =>
    simp [hquiet, ComponentResponse.Matters]

/-- A registered client takes the message for a report about the component at the position, by
which that fails or changes. -/
def Reports (c : Client) (d : Document) (message : Json) (i : Nat) : Prop :=
  c.phase = .registered ∧ ∃ method r, c.methodOf message = .ok method ∧
    ComponentResponse.decode method message = .ok r ∧ d.find? r.resourceId = some i ∧
    r.Matters method

theorem mem_calledComponents_handle (c : Client) (services : Services)
    (bound : Option (DocumentId × Document)) (fresh : String) (message : Json) :
    (id, i) ∈ calledComponents (c.handle services bound fresh message).effects ↔
      ∃ d, bound = some (id, d) ∧ c.Reports d message i := by
  cases hm : c.methodOf message with
  | error fault => simp [handle, Handling.receipt, runFrom_process, hm, Reports]
  | ok method =>
    by_cases hphase : c.phase = .registered
    · obtain ⟨conn, hconn⟩ := phase_eq_registered.1 hphase
      cases h : (receiveRegistered services.commandIds bound method message).runFrom
        ⟨c, services.keys, []⟩ with
      | mk result q =>
      have hprocess := (runFrom_process_registered services.commandIds bound method message
        ⟨c, services.keys, []⟩ fresh (connection?_eq_some.1 hconn) hm).trans h
      rw [handle_eq c services bound fresh message hprocess,
        mem_calledComponents_receiveRegistered h]
      simp [Reports, hm, hphase]
    · -- What leads to a registration, or ends the attempt, leaves log records only.
      have hhandle : calledComponents (c.handle services bound fresh message).effects = [] := by
        have hconn := connection?_eq_none_iff.2 hphase
        have hhandled := c.handled_handle services bound fresh message
        generalize c.handle services bound fresh message = receipt at hhandled ⊢
        cases hhandled with
        | refused | unregistrable | declined => rfl
        | registered _ _ _ hes => exact calledComponents_logs hes
        | accepted hsome => simp [hconn] at hsome
      simp [hhandle, Reports, hphase]

@[simp] theorem calledComponents_receive (c : Client) (services : Services)
    (bound : Option (DocumentId × Document)) (fresh : String) (message : Json) :
    calledComponents (c.receive services bound fresh message).effects =
      calledComponents (c.handle services bound fresh (evaluated bound message)).effects := by
  obtain ⟨refusal, hlog, he⟩ := c.receive_effects services bound fresh message
  simp [he, calledComponents_logs hlog]

theorem mem_calledComponents_receive (c : Client) (services : Services)
    (bound : Option (DocumentId × Document)) (fresh : String) (message : Json) :
    (id, i) ∈ calledComponents (c.receive services bound fresh message).effects ↔
      ∃ d, bound = some (id, d) ∧ c.Reports d (d.evaluate message) i := by
  rw [calledComponents_receive, mem_calledComponents_handle]
  constructor <;>
  · rintro ⟨d, rfl, hreports⟩
    exact ⟨d, rfl, hreports⟩

theorem mem_calledComponents_disconnect (c : Client) (bound : Option (DocumentId × Document))
    (code : Int) (text : String) :
    (id, i) ∈ calledComponents (c.disconnect bound code text) ↔
      ∃ d component, bound = some (id, d) ∧ code ≠ 0 ∧ d.components[i]? = some component ∧
        component.uri = c.uri := by
  unfold disconnect
  split
  · simp [*]
  · rename_i hcode
    cases bound with
    | none => simp [calledComponents, Effect.component?]
    | some b =>
      obtain ⟨d, document⟩ := b
      simpa [calledComponents, Effect.component?, hcode, List.mk_mem_zipIdx_iff_getElem?]
        using and_comm

end Client

namespace Host

variable {h : Host} {s : Step} {k : ClientId} {c : Client} {id : DocumentId} {i : Nat}

/-- The ways in which a step of a client leads to the component at the position. -/
inductive Leads (c : Client) (d : Document) (i : Nat) : Step → Prop
  | reported {k : ClientId} {s : Step} {m : Json} (hs : s.delivery? = some (k, some m))
      (h : c.Reports d (d.evaluate m) i) : Leads c d i s
  | disconnected {k : ClientId} {code : Int} {text : String} {component : Component}
      (hcode : code ≠ 0) (hcomponent : d.components[i]? = some component)
      (hown : component.uri = c.uri) : Leads c d i (.disconnect k code text)

theorem calledComponents_act_of_quiet (h : Host) (c : Client)
    (hs : ∀ k m, s.delivery? ≠ some (k, some m))
    (hs' : ∀ k code text, s ≠ .disconnect k code text) : calledComponents (h.act c s).2 = [] := by
  cases s with
  | receive k fresh m => exact (hs k m rfl).elim
  | disconnect k code text => exact (hs' k code text rfl).elim
  | receiveText k fresh text =>
    cases hr : readMessage text with
    | ok m => exact (hs k m (by simp [Step.delivery?, hr, Except.toOption])).elim
    | error fault => simp [act, Client.receiveText, hr, calledComponents, Effect.component?]
  | requestRegistration => simp [act, Client.requestRegistration]
  | bind client d =>
    simp only [act]
    split <;> simp
  | flush => exact Client.calledComponents_flush ..
  | flushAll => exact Client.calledComponents_reportFeeds ..
  | componentChange client component =>
    simp only [act]
    split <;> simp
  | _ => rfl

theorem act_of_delivery {m : Json} (h : Host) (c : Client)
    (hs : s.delivery? = some (k, some m)) : ∃ fresh, (h.act c s).2 =
      (c.receive (h.servicesOf c) (h.boundDocument c) fresh m).effects := by
  cases s with
  | receive k fresh m =>
    cases hs
    exact ⟨fresh, rfl⟩
  | receiveText k fresh text =>
    cases hr : readMessage text with
    | ok m' =>
      have hm : some m' = some m := by
        simpa [Step.delivery?, hr, Except.toOption] using congrArg (·.bind (·.2)) hs
      cases hm
      exact ⟨fresh, by simp [act, Client.receiveText, hr]⟩
    | error fault => simp [Step.delivery?, hr, Except.toOption] at hs
  | _ => cases hs

theorem mem_calledComponents_act :
    (id, i) ∈ calledComponents (h.act c s).2 ↔
      ∃ d, h.boundDocument c = some (id, d) ∧ Leads c d i s := by
  constructor
  · intro hmem
    by_cases hdelivery : ∃ k m, s.delivery? = some (k, some m)
    · obtain ⟨k, m, hs⟩ := hdelivery
      obtain ⟨fresh, hact⟩ := h.act_of_delivery c hs
      rw [hact, Client.mem_calledComponents_receive] at hmem
      obtain ⟨d, hd, hreports⟩ := hmem
      exact ⟨d, hd, .reported hs hreports⟩
    · -- Without a message only the end of the connection is left.
      by_cases hdisconnect : ∃ k code text, s = .disconnect k code text
      · obtain ⟨k, code, text, rfl⟩ := hdisconnect
        obtain ⟨d, component, hd, hcode, hcomponent, hown⟩ :=
          (c.mem_calledComponents_disconnect ..).1 hmem
        exact ⟨d, hd, .disconnected hcode hcomponent hown⟩
      · rw [h.calledComponents_act_of_quiet c (fun k m hs => hdelivery ⟨k, m, hs⟩)
          fun k code text hs => hdisconnect ⟨k, code, text, hs⟩] at hmem
        cases hmem
  · rintro ⟨d, hd, hleads⟩
    cases hleads with
    | reported hs hreports =>
      obtain ⟨fresh, hact⟩ := h.act_of_delivery c hs
      rw [hact, Client.mem_calledComponents_receive]
      exact ⟨d, hd, hreports⟩
    | disconnected hcode hcomponent hown =>
      exact (c.mem_calledComponents_disconnect ..).2 ⟨d, _, hd, hcode, hcomponent, hown⟩

theorem calledComponents_of_no_actor (hs : s.actor? = none) :
    calledComponents (h.perform s).effects = [] := by
  cases s with
  | issue client invocation action =>
    simp only [perform, issue]
    split
    · rfl
    · split
      · rfl
      · exact Client.calledComponents_trace ..
  | createServices | createClient | dropClient | openDocument | changeDocument | dropDocument
  | createAction | resolve | terminate => rfl
  | _ => cases hs

/-- The components that a step fails or changes, and all of them. When a connection ends with an
error, those are the extension's own ones. A report of an extension leads to whatever component it
names, also to one that belongs to another extension. Nothing else leads to a component. -/
theorem component_called_iff (h : Host) (s : Step) (id : DocumentId) (i : Nat) :
    (∃ e ∈ (h.perform s).effects, e.component? = some (id, i)) ↔
      ∃ k c d, s.actor? = some k ∧ h.clients.get? k = some c ∧
        h.boundDocument c = some (id, d) ∧ Leads c d i s := by
  have hmem : (∃ e ∈ (h.perform s).effects, e.component? = some (id, i)) ↔
      (id, i) ∈ calledComponents (h.perform s).effects := by
    simp only [calledComponents, List.mem_filterMap]
  rw [hmem]
  cases hs : s.actor? with
  | none => simp [calledComponents_of_no_actor hs]
  | some k =>
    cases hc : h.clients.get? k with
    | none => simp [(perform_of_absent hs hc).2, hc]
    | some c =>
      rw [(acted_perform hs hc).2, mem_calledComponents_act]
      simp [hc]

def playerPage : Document :=
  ⟨[⟨"player", "bar", .ready, none, [], []⟩], fun r => if r = "bar" then some 0 else none,
    fun m => m⟩

/-- The extension `notes` is bound to a document that has a component of another one. -/
def visiting : List Step :=
  [.createServices (.startingAt 1000) (.startingAt 1), .createClient "notes" .standard 0,
    .openDocument playerPage, .receive 1 "" notesConsent, .bind 1 2]

/-- It can make that component fail. -/
theorem component_called_foreign : ∃ c d component e,
    (start.after visiting).clients.get? 1 = some c ∧
      (start.after visiting).boundDocument c = some (2, d) ∧
      d.components[0]? = some component ∧ component.uri ≠ c.uri ∧
      e ∈ ((start.after visiting).perform (.receive 1 ""
        (messageOf .componentFailure [("resourceId", .string "bar")]))).effects ∧
      e.component? = some (2, 0) := by
  refine ⟨_, _, _, .call 2 (.fail 0 (-1) ""), rfl, rfl, rfl, by decide +kernel, .head _, rfl⟩

end Host

end ExtensionHost
