import ExtensionHost.Proofs.Messages
import ExtensionHost.Proofs.Ownership

namespace ExtensionHost

namespace Client

variable {c : Client} {ids : CommandIds} {method : Method} {message : Json} {body : Object}

/-- What a message of the method has to say to be accepted, as the client stands. -/
inductive Admits (c : Client) (lastIssued : UInt64) (body : Object) : Method → Prop
  | consent {token uri version : String} {fields : List (String × Json)} (hopen : c.phase.IsOpen)
      (htoken : body.nonemptyString? "token" = some token)
      (hschema : body.get? "schema" = some (.object fields))
      (hheaded : Schema.Headed c.config.maxSchemaVersion (.ofList fields) uri version) :
      Admits c lastIssued body .registerSuccess
  | refusal (hopen : c.phase.IsOpen) : Admits c lastIssued body .registerFailure
  | answer {method : Method} {n : Number} {id : UInt64} (hregistered : c.phase = .registered)
      (hmethod : method = .commandSuccess ∨ method = .commandFailure)
      (hid : body.get? "id" = some (.number n)) (hn : CommandResponse.idOfNumber? n = some id)
      (hissued : id ≤ lastIssued) : Admits c lastIssued body method
  | event {name : String} (hregistered : c.phase = .registered)
      (hname : body.nonemptyString? "name" = some name)
      (htarget : body.nonemptyString? "target" = some c.uri)
      (hpayload : ∀ v, body.present? "payload" = some v → (v.asObject?).isSome)
      (hdeclared : (c.schema.eventMode? name).isSome) : Admits c lastIssued body .event
  | update {name : String} {operations : List Json} (hregistered : c.phase = .registered)
      (hname : body.nonemptyString? "name" = some name)
      (htarget : body.nonemptyString? "target" = some c.uri)
      (hoperations : body.get? "operations" = some (.array operations))
      (hdeclared : (c.schema.liveData? name).isSome) : Admits c lastIssued body .liveDataUpdate
  | component {method : Method} (hregistered : c.phase = .registered)
      (hmethod : method = .componentSuccess ∨ method = .componentFailure ∨
        method = .componentUpdate)
      (hstate : ∀ s, body.string? "state" = some s → ∃ state : ResourceState, state.name = s) :
      Admits c lastIssued body method

theorem Admits.phase {lastIssued : UInt64} (h : c.Admits lastIssued body method) :
    if method.answersRegistration then c.phase.IsOpen else c.phase = .registered := by
  cases h with
  | consent hopen | refusal hopen => exact hopen
  | event hregistered | update hregistered => exact hregistered
  | answer hregistered hmethod =>
    rcases hmethod with rfl | rfl <;> exact hregistered
  | component hregistered hmethod =>
    rcases hmethod with rfl | rfl | rfl <;> exact hregistered

section Receiving

variable (hbody : message.asObject? = some body)

include hbody

theorem connects_iff :
    c.Connects message ↔ ∃ token uri version fields, body.nonemptyString? "token" = some token ∧
      body.get? "schema" = some (.object fields) ∧
      Schema.Headed c.config.maxSchemaVersion (.ofList fields) uri version := by
  simp only [Connects, RegisterSuccess.decode_eq_ok hbody, SortedMap.present?_eq_some]
  constructor
  · rintro ⟨success, fields, uri, version, ⟨htoken, ⟨hschema, -⟩, -⟩, hfields, hheaded⟩
    cases hs : success.schema with
    | object own =>
      rw [hs] at hfields hschema
      cases hfields
      exact ⟨_, uri, version, own, htoken, hschema, hheaded⟩
    | _ => simp [hs, Json.asObject?] at hfields
  · rintro ⟨token, uri, version, fields, htoken, hschema, hheaded⟩
    exact ⟨⟨token, .object fields, _⟩, .ofList fields, uri, version,
      ⟨htoken, ⟨hschema, by simp⟩, rfl⟩, rfl, hheaded⟩

variable {keys : PropertyKeys}

theorem isOk_receiveResponse :
    (∃ q, (receiveResponse ids method message).runFrom ⟨c, keys, []⟩ = (.ok (), q)) ↔
      ∃ n id, body.get? "id" = some (.number n) ∧ CommandResponse.idOfNumber? n = some id ∧
        id ≤ ids.lastIssued := by
  constructor
  · rintro ⟨q, h⟩
    rw [runFrom_receiveResponse] at h
    split at h
    · cases h
    · rename_i r hr
      obtain ⟨n, hid, hn⟩ :=
        CommandResponse.decodeId_eq_ok.1 ((CommandResponse.decode_eq_ok hbody).1 hr).1
      split at h
      · cases h
      · rename_i hissued
        exact ⟨n, r.id, hid, hn, UInt64.not_lt.1 hissued⟩
  · rintro ⟨n, id, hid, hn, hissued⟩
    have hr : CommandResponse.decode method message =
        .ok ⟨id, method == .commandSuccess, body.present? "result"⟩ :=
      (CommandResponse.decode_eq_ok hbody).2
        ⟨CommandResponse.decodeId_eq_ok.2 ⟨n, hid, hn⟩, rfl, rfl⟩
    rw [runFrom_receiveResponse, hr]
    dsimp only
    rw [if_neg (UInt64.not_lt.2 hissued)]
    split <;> exact ⟨_, rfl⟩

theorem isOk_receiveEvent {bound : Option DocumentId} :
    (∃ q, (receiveEvent bound message).runFrom ⟨c, keys, []⟩ = (.ok (), q)) ↔
      ∃ name, body.nonemptyString? "name" = some name ∧
        body.nonemptyString? "target" = some c.uri ∧
        (∀ v, body.present? "payload" = some v → (v.asObject?).isSome) ∧
        (c.schema.eventMode? name).isSome := by
  simp only [← EventMessage.isOk_decodePayload]
  constructor
  · rintro ⟨q, h⟩
    rw [runFrom_receiveEvent] at h
    split at h
    · cases h
    · rename_i e he
      obtain ⟨hname, htarget, hpayload, -⟩ := (EventMessage.decode_eq_ok hbody).1 he
      split at h
      · cases h
      · rename_i mode hmode
        split at h
        · cases h
        · rename_i ht
          rw [checkTarget_eq_ok.1 ht] at htarget
          exact ⟨_, hname, htarget, ⟨_, hpayload⟩, Option.isSome_iff_exists.2 ⟨mode, hmode⟩⟩
  · rintro ⟨name, hname, htarget, ⟨payload, hpayload⟩, hmode⟩
    obtain ⟨mode, hmode⟩ := Option.isSome_iff_exists.1 hmode
    have he : EventMessage.decode message =
        .ok ⟨name, c.uri, payload, body.string? "resourceId"⟩ :=
      (EventMessage.decode_eq_ok hbody).2 ⟨hname, htarget, hpayload, rfl⟩
    rw [runFrom_receiveEvent, he]
    simp only [hmode, checkTarget_eq_ok.2]
    exact ⟨_, rfl⟩

theorem isOk_receiveLiveUpdate {bound : Option DocumentId} :
    (∃ q, (receiveLiveUpdate bound message).runFrom ⟨c, keys, []⟩ = (.ok (), q)) ↔
      ∃ name operations, body.nonemptyString? "name" = some name ∧
        body.nonemptyString? "target" = some c.uri ∧
        body.get? "operations" = some (.array operations) ∧
        (c.feeds.get? name).isSome := by
  constructor
  · rintro ⟨q, h⟩
    rw [runFrom_receiveLiveUpdate] at h
    split at h
    · cases h
    · rename_i u hu
      obtain ⟨hname, htarget, hoperations⟩ := (LiveUpdate.decode_eq_ok hbody).1 hu
      split at h
      · cases h
      · rename_i feed hfeed
        split at h
        · cases h
        · rename_i ht
          rw [checkTarget_eq_ok.1 ht] at htarget
          exact ⟨_, _, hname, htarget, hoperations, Option.isSome_iff_exists.2 ⟨feed, hfeed⟩⟩
  · rintro ⟨name, operations, hname, htarget, hoperations, hfeed⟩
    obtain ⟨feed, hfeed⟩ := Option.isSome_iff_exists.1 hfeed
    have hu : LiveUpdate.decode message = .ok ⟨name, c.uri, operations⟩ :=
      (LiveUpdate.decode_eq_ok hbody).2 ⟨hname, htarget, hoperations⟩
    rw [runFrom_receiveLiveUpdate, hu]
    simp only [hfeed, checkTarget_eq_ok.2]
    -- The report may have to wait, but the batch is taken in any case.
    split <;> exact ⟨_, rfl⟩

theorem isOk_receiveComponent {bound : Option (DocumentId × Document)} :
    (∃ q, (receiveComponent bound method message).runFrom ⟨c, keys, []⟩ = (.ok (), q)) ↔
      ∀ s, body.string? "state" = some s → ∃ state : ResourceState, state.name = s := by
  rw [← ComponentResponse.isOk_decode hbody, runFrom_receiveComponent]
  cases hr : ComponentResponse.decode method message with
  | error fault => simp
  | ok r =>
    refine iff_of_true ?_ ⟨r, rfl⟩
    dsimp only
    split <;> exact ⟨_, rfl⟩

theorem isOk_receiveRegistered (bound : Option (DocumentId × Document))
    (hregistered : c.phase = .registered)
    (hfeeds : ∀ name, (c.feeds.get? name).isSome = (c.schema.liveData? name).isSome) :
    (∃ q, (receiveRegistered ids bound method message).runFrom ⟨c, keys, []⟩ = (.ok (), q)) ↔
      c.Admits ids.lastIssued body method := by
  cases method with
  | registerSuccess | registerFailure =>
    -- The answer to the registration has been given.
    refine iff_of_false (by simp [receiveRegistered]) fun hadmits => ?_
    exact Phase.not_isOpen_registered (hregistered ▸ hadmits.phase)
  | register | command | component =>
    -- These go the other way.
    refine iff_of_false (by simp [receiveRegistered]) fun hadmits => ?_
    cases hadmits with
    | answer _ hmethod | component _ hmethod => simp at hmethod
  | commandSuccess | commandFailure =>
    rw [receiveRegistered, isOk_receiveResponse hbody]
    constructor
    · rintro ⟨n, id, hid, hn, hissued⟩
      exact .answer hregistered (by simp) hid hn hissued
    · intro hadmits
      cases hadmits with
      | answer _ _ hid hn hissued => exact ⟨_, _, hid, hn, hissued⟩
      | component _ hmethod => simp at hmethod
  | event =>
    rw [receiveRegistered, isOk_receiveEvent hbody]
    constructor
    · rintro ⟨name, hname, htarget, hpayload, hdeclared⟩
      exact .event hregistered hname htarget hpayload hdeclared
    · intro hadmits
      cases hadmits with
      | event _ hname htarget hpayload hdeclared => exact ⟨_, hname, htarget, hpayload, hdeclared⟩
      | answer _ hmethod | component _ hmethod => simp at hmethod
  | liveDataUpdate =>
    rw [receiveRegistered, isOk_receiveLiveUpdate hbody]
    constructor
    · rintro ⟨name, operations, hname, htarget, hoperations, hdeclared⟩
      exact .update hregistered hname htarget hoperations (hfeeds name ▸ hdeclared)
    · intro hadmits
      cases hadmits with
      | update _ hname htarget hoperations hdeclared =>
        exact ⟨_, _, hname, htarget, hoperations, (hfeeds _).trans hdeclared⟩
      | answer _ hmethod | component _ hmethod => simp at hmethod
  | componentSuccess | componentFailure | componentUpdate =>
    rw [receiveRegistered, isOk_receiveComponent hbody]
    constructor
    · exact .component hregistered (by simp)
    · intro hadmits
      cases hadmits with
      | component _ _ hstate => exact hstate
      | answer _ hmethod => simp at hmethod

end Receiving

theorem isOk_process_consent {services : Services} {bound : Option (DocumentId × Document)}
    {fresh : String} (hm : c.methodOf message = .ok .registerSuccess) (hopen : c.phase.IsOpen) :
    (∃ q, (process services.commandIds bound fresh message).runFrom ⟨c, services.keys, []⟩ =
      (.ok (), q)) ↔ c.Connects message := by
  -- The schema is read as far as its header; what is wrong further down are warnings.
  have hconnects : (∃ q, (register fresh message).runFrom ⟨c, services.keys, []⟩ = (.ok (), q)) ↔
      c.Connects message := register_eq_ok_iff
  rw [← hconnects, runFrom_process, hm]
  rw [phase] at hopen
  cases hreg : c.registration with
  | registered conn =>
    rw [hreg] at hopen
    exact (Phase.not_isOpen_registered hopen).elim
  | failed =>
    rw [hreg] at hopen
    exact (Phase.not_isOpen_failed hopen).elim
  | unregistered | awaiting =>
    simp only [runFrom_tryRegister]
    rcases (register fresh message).runFrom ⟨c, services.keys, []⟩ with ⟨_ | _, q⟩ <;> simp

theorem handle_eq_ok {services : Services} {bound : Option (DocumentId × Document)} {fresh : String}
    (hbody : message.asObject? = some body) (hm : c.methodOf message = .ok method)
    (hfeeds : c.phase = .registered →
      ∀ name, (c.feeds.get? name).isSome = (c.schema.liveData? name).isSome) :
    (c.handle services bound fresh message).result = .ok () ↔
      c.Admits services.commandIds.lastIssued body method := by
  rw [handle_result_eq_ok]
  cases hreg : c.registration with
  | registered conn =>
    have hphase : c.phase = .registered := by
      rw [phase, hreg]
      rfl
    rw [← isOk_receiveRegistered hbody bound hphase (hfeeds hphase),
      runFrom_process_registered _ _ _ _ _ fresh hreg hm]
  | failed =>
    -- Nothing counts any more, whatever the method.
    refine iff_of_false (by simp [runFrom_process, hm, hreg]) fun hadmits => ?_
    have hphase := hadmits.phase
    rw [phase, hreg] at hphase
    split at hphase
    · exact Phase.not_isOpen_failed hphase
    · cases hphase
  | unregistered | awaiting =>
    have hopen : c.phase.IsOpen := by
      rw [phase, hreg]
      decide
    cases method with
    | registerSuccess =>
      rw [isOk_process_consent hm hopen, connects_iff hbody]
      constructor
      · rintro ⟨token, uri, version, fields, htoken, hschema, hheaded⟩
        exact .consent hopen htoken hschema hheaded
      · intro hadmits
        cases hadmits with
        | consent _ htoken hschema hheaded => exact ⟨_, _, _, _, htoken, hschema, hheaded⟩
        | answer _ hmethod | component _ hmethod => simp at hmethod
    | registerFailure =>
      exact iff_of_true (by simp [runFrom_process, hm, hreg]) (.refusal hopen)
    | _ =>
      refine iff_of_false (by simp [runFrom_process, hm, hreg]) fun hadmits => ?_
      exact Phase.not_isOpen_registered ((show c.phase = _ from hadmits.phase) ▸ hopen)

/-- What a client takes: an object of its version, with a method and with what that asks for. -/
def Accepts (c : Client) (lastIssued : UInt64) (message : Json) : Prop :=
  ∃ body method, message.asObject? = some body ∧
    body.string? "version" = some c.config.interfaceVersion ∧
    body.string? "method" = some method.name ∧ c.Admits lastIssued body method

theorem receive_eq_ok {services : Services} {bound : Option (DocumentId × Document)}
    {fresh : String} (hfeeds : c.phase = .registered →
      ∀ name, (c.feeds.get? name).isSome = (c.schema.liveData? name).isSome) :
    (c.receive services bound fresh message).result = .ok () ↔
      c.Accepts services.commandIds.lastIssued (evaluated bound message) := by
  rw [receive_result]
  constructor
  · intro h
    cases hm : c.methodOf (evaluated bound message) with
    | error fault => simp [handle_result_eq_ok, runFrom_process, hm] at h
    | ok method =>
      obtain ⟨body, hbody⟩ := asObject?_of_methodOf hm
      obtain ⟨hversion, hname⟩ := (methodOf_eq_ok hbody).1 hm
      exact ⟨body, method, hbody, hversion, hname, (handle_eq_ok hbody hm hfeeds).1 h⟩
  · rintro ⟨body, method, hbody, hversion, hname, hadmits⟩
    exact (handle_eq_ok hbody ((methodOf_eq_ok hbody).2 ⟨hversion, hname⟩) hfeeds).2 hadmits

end Client

namespace Host

variable {h : Host} {s : Step} {k : ClientId} {c : Client} {message : Option Json}

/-- In every state that can be reached the feeds of a client are those that its schema declares. -/
theorem feeds_of_reachable (hr : h.Reachable) (hc : h.clients.get? k = some c)
    (hphase : c.phase = .registered) (name : String) :
    (c.feeds.get? name).isSome = (c.schema.liveData? name).isSome := by
  obtain ⟨steps, rfl⟩ := hr
  obtain ⟨before, uri, config, services, after, rfl, rfl⟩ := exists_create steps hc
  obtain ⟨conn, hconn⟩ := Client.phase_eq_registered.1 hphase
  have hfeeds := (Client.connected_of_standing (standing_after hc) hconn).feeds name
  simpa using congrArg Option.isSome hfeeds

/-- A message is accepted if it says what its method asks for, and refused otherwise, whatever state
the client has reached. The individual operations of an update do not matter. -/
theorem accepted_iff (hr : h.Reachable) (hc : h.clients.get? k = some c)
    (hs : s.delivery? = some (k, message)) :
    ∃ result, (h.perform s).result = some (.accepted result) ∧
      (result = .ok () ↔ ∃ m, message = some m ∧
        c.Accepts (h.servicesOf c).commandIds.lastIssued
          (Client.evaluated (h.boundDocument c) m)) := by
  have hfeeds := feeds_of_reachable hr hc
  cases s with
  | receive client fresh m =>
    cases hs
    refine ⟨(c.receive (h.servicesOf c) (h.boundDocument c) fresh m).result, ?_, ?_⟩
    · simp [perform, receive, hc, accept, Outcome.map]
    · rw [Client.receive_eq_ok hfeeds]
      simp
  | receiveText client fresh text =>
    cases hs
    refine ⟨(c.receiveText (h.servicesOf c) (h.boundDocument c) fresh text).result, ?_, ?_⟩
    · simp [perform, receiveText, hc, accept, Outcome.map]
    · unfold Client.receiveText
      cases readMessage text with
      | ok m =>
        rw [Client.receive_eq_ok hfeeds]
        simp [Except.toOption]
      | error fault => simp [Except.toOption]
  | _ => cases hs

/-- A registered client takes a bare report about a component. One with a state that there is not is
refused, and so is an answer to a command that nobody has issued. -/
theorem accepted_iff_visiting : ∃ c, (start.after visiting).clients.get? 1 = some c ∧
    c.Accepts 999 (messageOf .componentSuccess []) ∧
    ¬ c.Accepts 999 (messageOf .componentSuccess [("state", .string "ready")]) ∧
    ¬ c.Accepts 999 (messageOf .commandSuccess [("id", .number (.ofUInt64 1000))]) := by
  have hclient : ∃ c, (start.after visiting).clients.get? 1 = some c ∧
      ((start.after visiting).servicesOf c).commandIds.lastIssued = 999 ∧
      ∃ d, (start.after visiting).boundDocument c = some (2, d) ∧ ∀ m, d.evaluate m = m :=
    ⟨_, rfl, by decide +kernel, _, rfl, fun _ => rfl⟩
  obtain ⟨c, hc, hissued, d, hd, hevaluate⟩ := hclient
  have haccepted : ∀ m result, ((start.after visiting).perform (.receive 1 "" m)).result =
      some (.accepted result) → (result = .ok () ↔ c.Accepts 999 m) := by
    intro m result hresult
    obtain ⟨result', hresult', haccepts⟩ := accepted_iff ⟨visiting, rfl⟩ hc
      (s := .receive 1 "" m) rfl
    rw [hresult'] at hresult
    cases hresult
    simpa [hissued, hd, Client.evaluated, hevaluate] using haccepts
  refine ⟨c, hc, (haccepted _ (.ok ()) rfl).1 rfl, fun h => ?_, fun h => ?_⟩
  · cases (haccepted _ (.error _) rfl).2 h
  · cases (haccepted _ (.error _) rfl).2 h

end Host

end ExtensionHost
