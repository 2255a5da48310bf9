import ExtensionHost.Proofs.Frame
import ExtensionHost.Proofs.Schema.LiveData

namespace ExtensionHost

theorem get?_feeds {l : List (String × LiveDefinition)} (hl : (l.map (·.1)).Nodup)
    (hn : ∀ e ∈ l, e.2.name = e.1) (name : String) :
    (SortedMap.ofList ((l.map (·.2)).map fun d => (d.name, Feed.ofDefinition d))).get? name =
      (InsertionMap.lookup name l).map Feed.ofDefinition := by
  induction l with
  | nil => rfl
  | cons e rest ih =>
    have hrest := ih (List.nodup_cons.1 hl).2 fun a ha => hn a (List.mem_cons_of_mem _ ha)
    have he := hn e (List.mem_cons_self ..)
    simp only [List.map_cons, SortedMap.get?_ofList_cons, hrest, InsertionMap.lookup, he,
      Std.compare_eq_iff_eq]
    by_cases hname : name = e.1
    · -- Names of definitions differ, so the one that is kept is the only one.
      have hnone : InsertionMap.lookup name rest = none := by
        rw [InsertionMap.lookup_eq_none_iff, hname]
        exact (List.nodup_cons.1 hl).1
      simp [hname, hname ▸ hnone]
    · simp [hname]

def ComponentResponse.requests (r : ComponentResponse) (method : Method) (i : Nat) :
    List DocumentCall :=
  match method with
  | .componentFailure => [.fail i r.code r.message]
  | .componentUpdate =>
    (r.payload.getD .empty).entries.map fun (name, v) => .setCalculated i name v
  | _ => []

theorem SortedMap.requiredString_ne_empty {o : Object} {field s : String}
    (h : o.requiredString field = .ok s) : s ≠ "" := by
  unfold requiredString at h
  split at h
  · cases h
  · split at h
    · cases h
    · rename_i hne
      cases h
      simpa using hne
  · cases h

namespace Client

/-- A message as it is handled: a bound document has resolved the bindings in it. -/
def evaluated (bound : Option (DocumentId × Document)) (message : Json) : Json :=
  match bound with
  | some (_, d) => d.evaluate message
  | none => message

/-- What an accepted message makes of a registered client, one case for each way to react. -/
inductive Reacted (c : Client) (ids : CommandIds) (bound : Option (DocumentId × Document))
    (method : Method) (message : Json) : Client → List Effect → Prop
  | answered {r : CommandResponse} {action : ActionId}
      (hmethod : method = .commandSuccess ∨ method = .commandFailure)
      (hr : CommandResponse.decode method message = .ok r) (hid : ¬ ids.lastIssued < r.id)
      (ha : c.pending.get? r.id = some action) :
      Reacted c ids bound method message { c with pending := c.pending.erase r.id }
        [.resolve action r.result]
  | unawaited {r : CommandResponse}
      (hmethod : method = .commandSuccess ∨ method = .commandFailure)
      (hr : CommandResponse.decode method message = .ok r) (hid : ¬ ids.lastIssued < r.id)
      (ha : c.pending.get? r.id = none) :
      Reacted c ids bound method message c [.log (.nothingPending c.uri r.id)]
  | event {e : EventMessage} {mode : EventMode} (hmethod : method = .event)
      (he : EventMessage.decode message = .ok e) (hmode : c.schema.eventMode? e.name = some mode)
      (ht : e.target = c.uri) :
      Reacted c ids bound method message
        (c.deliver (bound.map (·.1)) [⟨c.uri, e.name, e.payload, mode == .fast, e.resourceId⟩]).1
        (c.deliver (bound.map (·.1)) [⟨c.uri, e.name, e.payload, mode == .fast, e.resourceId⟩]).2
  | updated {u : LiveUpdate} {feed next : Feed} {faults : List LiveFault}
      (hmethod : method = .liveDataUpdate) (hu : LiveUpdate.decode message = .ok u)
      (hf : c.feeds.get? u.name = some feed) (ht : u.target = c.uri)
      (happ : applyOperations bound.isSome feed u.operations = (next, faults))
      (hsilent : (bound.isSome && next.pending) = false) :
      Reacted c ids bound method message (c.withFeeds (c.feeds.insert u.name next))
        (faults.map fun f => .log (.operationSkipped c.uri u.name f))
  | reported {u : LiveUpdate} {feed next : Feed} {faults : List LiveFault}
      (hmethod : method = .liveDataUpdate) (hu : LiveUpdate.decode message = .ok u)
      (hf : c.feeds.get? u.name = some feed) (ht : u.target = c.uri)
      (happ : applyOperations bound.isSome feed u.operations = (next, faults))
      (hloud : (bound.isSome && next.pending) = true) :
      Reacted c ids bound method message
        ((c.withFeeds (c.feeds.insert u.name next.reported)).announce (bound.map (·.1))
          next.changeNotices).1
        ((faults.map fun f => .log (.operationSkipped c.uri u.name f)) ++
          ((c.withFeeds (c.feeds.insert u.name next.reported)).announce (bound.map (·.1))
            next.changeNotices).2)
  | component {es : List Effect}
      (hmethod : method ≠ .event ∧ method ≠ .liveDataUpdate ∧ method ≠ .commandSuccess ∧
        method ≠ .commandFailure)
      (hes : es.filterMap Effect.handled? = [] ∧ es.filterMap Effect.resolution? = []) :
      Reacted c ids bound method message c es

theorem checkTarget_eq_ok {c : Client} {target : String} :
    c.checkTarget target = .ok () ↔ target = c.uri := by
  unfold checkTarget
  split <;> simp [*]

variable {ids : CommandIds} {bound : Option (DocumentId × Document)} {method : Method}
  {message : Json}

section Handlers

open Handling

variable (ids bound method message) (p : Progress)

theorem runFrom_receiveResponse : (receiveResponse ids method message).runFrom p =
    match CommandResponse.decode method message with
    | .error fault => (.error (.message fault), p)
    | .ok r =>
      if ids.lastIssued < r.id then (.error (.unissuedId r.id ids.lastIssued), p)
      else match p.client.pending.get? r.id with
        | some action =>
          (.ok (), { p with
            client := { p.client with pending := p.client.pending.erase r.id }
            effects := p.effects ++ [.resolve action r.result] })
        | none => (.ok (), { p with
            effects := p.effects ++ [.log (.nothingPending p.client.uri r.id)] }) := by
  unfold receiveResponse liftMessage
  rw [runFrom_bind, runFrom_lift]
  cases CommandResponse.decode method message with
  | error fault => rfl
  | ok r =>
    dsimp only [mapError_ok]
    split
    · rfl
    · rw [runFrom_act]
      cases p.client.pending.get? r.id <;> rfl

theorem runFrom_receiveEvent (bound : Option DocumentId) :
    (receiveEvent bound message).runFrom p =
      match EventMessage.decode message with
      | .error fault => (.error (.message fault), p)
      | .ok e =>
        match p.client.schema.eventMode? e.name with
        | none => (.error (.unknownEvent e.name), p)
        | some mode =>
          match p.client.checkTarget e.target with
          | .error fault => (.error fault, p)
          | .ok _ =>
            let r := p.client.deliver bound
              [⟨p.client.uri, e.name, e.payload, mode == .fast, e.resourceId⟩]
            (.ok (), ⟨r.1, p.keys, p.effects ++ r.2⟩) := by
  unfold receiveEvent liftMessage
  rw [runFrom_bind, runFrom_lift]
  cases EventMessage.decode message with
  | error fault => rfl
  | ok e =>
    dsimp only [mapError_ok]
    rw [runFrom_bind, runFrom_client]
    dsimp only
    cases p.client.schema.eventMode? e.name with
    | none => rfl
    | some mode =>
      dsimp only
      rw [runFrom_bind, runFrom_lift]
      cases p.client.checkTarget e.target <;> rfl

theorem runFrom_receiveLiveUpdate (bound : Option DocumentId) :
    (receiveLiveUpdate bound message).runFrom p =
      match LiveUpdate.decode message with
      | .error fault => (.error (.message fault), p)
      | .ok u =>
        match p.client.feeds.get? u.name with
        | none => (.error (.unknownLiveData u.name), p)
        | some feed =>
          match p.client.checkTarget u.target with
          | .error fault => (.error fault, p)
          | .ok _ =>
            let r := applyOperations bound.isSome feed u.operations
            let skipped := r.2.map fun f => .log (.operationSkipped p.client.uri u.name f)
            if bound.isSome && r.1.pending then
              let told := (p.client.withFeeds (p.client.feeds.insert u.name r.1.reported)).announce
                bound r.1.changeNotices
              (.ok (), ⟨told.1, p.keys, p.effects ++ skipped ++ told.2⟩)
            else
              (.ok (), ⟨p.client.withFeeds (p.client.feeds.insert u.name r.1), p.keys,
                p.effects ++ skipped⟩) := by
  unfold receiveLiveUpdate liftMessage
  rw [runFrom_bind, runFrom_lift]
  cases LiveUpdate.decode message with
  | error fault => rfl
  | ok u =>
    dsimp only [mapError_ok]
    rw [runFrom_bind, runFrom_client]
    dsimp only
    cases p.client.feeds.get? u.name with
    | none => rfl
    | some feed =>
      dsimp only
      rw [runFrom_bind, runFrom_lift]
      cases p.client.checkTarget u.target with
      | error fault => rfl
      | ok =>
        dsimp only
        rw [runFrom_bind, runFrom_act]
        dsimp only
        split
        · rw [runFrom_act, withFeeds_insert_insert]
        · rfl

theorem runFrom_receiveComponent : (receiveComponent bound method message).runFrom p =
    match ComponentResponse.decode method message with
    | .error fault => (.error (.message fault), p)
    | .ok r =>
      match bound.bind fun (id, d) => (d.find? r.resourceId).map fun i => (id, i) with
      | none => (.ok (), { p with
          effects := p.effects ++ [.log (.unknownComponent p.client.uri r.resourceId)] })
      | some (id, i) => (.ok (), { p with
          effects := p.effects ++ (r.requests method i).map (.call id) }) := by
  unfold receiveComponent liftMessage
  rw [runFrom_bind, runFrom_lift]
  cases ComponentResponse.decode method message with
  | error fault => rfl
  | ok r =>
    dsimp only [mapError_ok]
    cases bound.bind fun x => (x.2.find? r.resourceId).map fun i => (x.1, i) with
    | none => rfl
    | some found =>
      cases method with
      | componentFailure => rfl
      | componentUpdate =>
        simp only [ComponentResponse.requests, List.map_map]
        rfl
      | _ => simp [ComponentResponse.requests]

theorem runFrom_register (fresh : String) : (register fresh message).runFrom p =
    match RegisterSuccess.decode message with
    | .error fault => (.error (.message fault), p)
    | .ok success =>
      match Schema.read p.client.config.maxSchemaVersion p.keys success.schema with
      | .error fault => (.error (.schema fault), p)
      | .ok r =>
        let connection := connect fresh success r.schema r.warnings
        (.ok (), ⟨{ p.client with registration := .registered connection }, r.keys, p.effects ++
          (r.warnings.map (fun w => .log (.schemaWarning r.schema.uri w)) ++
            [.log (.registered r.schema.uri connection.token)])⟩) := by
  unfold register liftMessage
  rw [runFrom_bind, runFrom_lift]
  cases RegisterSuccess.decode message with
  | error fault => rfl
  | ok success =>
    dsimp only [mapError_ok]
    rw [runFrom_bind, runFrom_client]
    dsimp only
    rw [runFrom_bind, runFrom_onKeys, Schema.load_eq_read]
    cases Schema.read p.client.config.maxSchemaVersion p.keys success.schema <;> rfl

/-- Only a consent that no use can be made of ends in a refusal that leaves a trace. -/
theorem runFrom_tryRegister (fresh : String) : (tryRegister fresh message).runFrom p =
    match (register fresh message).runFrom p with
    | (.ok _, q) => (.ok (), q)
    | (.error fault, q) =>
      (.error fault, { q with client := { q.client with registration := .failed } }) := by
  unfold tryRegister
  rw [runFrom_tryCatch]
  rcases (register fresh message).runFrom p with ⟨_ | _, q⟩
  · simp [giveUp, runFrom_bind]
  · rfl

theorem runFrom_process (fresh : String) : (process ids bound fresh message).runFrom p =
    match p.client.methodOf message with
    | .error fault => (.error (.message fault), p)
    | .ok method =>
      match p.client.registration, method with
      | .registered _, method => (receiveRegistered ids bound method message).runFrom p
      | .failed, _ => (.error .registrationFailed, p)
      | _, .registerSuccess => (tryRegister fresh message).runFrom p
      | _, .registerFailure =>
        (.ok (), { p with client := { p.client with registration := .failed } })
      | _, _ => (.error .notRegistered, p) := by
  unfold process liftMessage
  rw [runFrom_bind, runFrom_client]
  dsimp only
  rw [runFrom_bind, runFrom_lift]
  cases p.client.methodOf message with
  | error fault => rfl
  | ok method =>
    dsimp only [mapError_ok]
    cases p.client.registration with
    | registered | failed => rfl
    | unregistered | awaiting => cases method <;> simp [giveUp]

theorem runFrom_process_registered (fresh : String) {conn : Connection}
    (hreg : p.client.registration = .registered conn)
    (hm : p.client.methodOf message = .ok method) :
    (process ids bound fresh message).runFrom p =
      (receiveRegistered ids bound method message).runFrom p := by
  rw [runFrom_process, hm]
  simp only [hreg]

end Handlers

section Reactions

variable {c : Client} {keys : PropertyKeys} {q : Progress}

/-- The client has reacted to the message, and nothing has become of the property keys. -/
def Reacts (c : Client) (keys : PropertyKeys) (ids : CommandIds)
    (bound : Option (DocumentId × Document)) (method : Method) (message : Json) (q : Progress) :
    Prop :=
  q.keys = keys ∧ Reacted c ids bound method message q.client q.effects

theorem reacts_response (hmethod : method = .commandSuccess ∨ method = .commandFailure)
    (h : (receiveResponse ids method message).runFrom ⟨c, keys, []⟩ = (.ok (), q)) :
    Reacts c keys ids bound method message q := by
  rw [runFrom_receiveResponse] at h
  split at h
  · cases h
  · rename_i r hr
    split at h
    · cases h
    · rename_i hid
      split at h <;> cases h
      · rename_i action ha
        exact ⟨rfl, .answered hmethod hr hid ha⟩
      · rename_i ha
        exact ⟨rfl, .unawaited hmethod hr hid ha⟩

theorem reacts_event
    (h : (receiveEvent (bound.map (·.1)) message).runFrom ⟨c, keys, []⟩ = (.ok (), q)) :
    Reacts c keys ids bound .event message q := by
  rw [runFrom_receiveEvent] at h
  split at h
  · cases h
  · rename_i e he
    split at h
    · cases h
    · rename_i mode hmode
      split at h <;> cases h
      rename_i ht
      exact ⟨rfl, .event rfl he hmode (checkTarget_eq_ok.1 ht)⟩

theorem reacts_liveUpdate
    (h : (receiveLiveUpdate (bound.map (·.1)) message).runFrom ⟨c, keys, []⟩ = (.ok (), q)) :
    Reacts c keys ids bound .liveDataUpdate message q := by
  rw [runFrom_receiveLiveUpdate] at h
  simp only [Option.isSome_map] at h
  split at h
  · cases h
  · rename_i u hu
    split at h
    · cases h
    · rename_i feed hf
      split at h
      · cases h
      · rename_i ht
        split at h <;> cases h
        · rename_i hloud
          exact ⟨rfl, .reported rfl hu hf (checkTarget_eq_ok.1 ht) rfl hloud⟩
        · rename_i hsilent
          exact ⟨rfl, .updated rfl hu hf (checkTarget_eq_ok.1 ht) rfl (by simpa using hsilent)⟩

theorem reacts_component (hmethod : method = .componentSuccess ∨ method = .componentFailure ∨
      method = .componentUpdate)
    (h : (receiveComponent bound method message).runFrom ⟨c, keys, []⟩ = (.ok (), q)) :
    Reacts c keys ids bound method message q := by
  have hm : method ≠ .event ∧ method ≠ .liveDataUpdate ∧ method ≠ .commandSuccess ∧
      method ≠ .commandFailure := by
    rcases hmethod with rfl | rfl | rfl <;> decide
  rw [runFrom_receiveComponent] at h
  split at h
  · cases h
  · rename_i r hr
    split at h <;> cases h
    · exact ⟨rfl, .component hm ⟨rfl, rfl⟩⟩
    · -- A report asks for no event and resolves nothing.
      refine ⟨rfl, .component hm ?_⟩
      rcases hmethod with rfl | rfl | rfl <;>
        simp [ComponentResponse.requests, Effect.handled?, Effect.resolution?, Function.comp_def]

theorem reacts_receiveRegistered
    (h : (receiveRegistered ids bound method message).runFrom ⟨c, keys, []⟩ = (.ok (), q)) :
    Reacts c keys ids bound method message q := by
  cases method with
  | registerSuccess | registerFailure | register | command | component => cases h
  | commandSuccess => exact reacts_response (.inl rfl) h
  | commandFailure => exact reacts_response (.inr rfl) h
  | event => exact reacts_event h
  | liveDataUpdate => exact reacts_liveUpdate h
  | componentSuccess => exact reacts_component (.inl rfl) h
  | componentFailure => exact reacts_component (.inr (.inl rfl)) h
  | componentUpdate => exact reacts_component (.inr (.inr rfl)) h

end Reactions

section Atomicity

open Handling

variable {α β : Type}

/-- Whatever is found wrong, nothing has been done before. -/
def Atomic (x : Handling α) : Prop :=
  ∀ p fault q, x.runFrom p = (.error fault, q) → q = p

/-- Nothing can be found wrong. -/
def Safe (x : Handling α) : Prop := ∀ p, ∃ a q, x.runFrom p = (.ok a, q)

theorem Safe.atomic {x : Handling α} (h : Safe x) : Atomic x := by
  intro p fault q hr
  obtain ⟨a, r, hok⟩ := h p
  rw [hok] at hr
  cases hr

theorem safe_pure (a : α) : Safe (pure a) := fun p => ⟨a, p, rfl⟩

theorem safe_act (f : Client → Client × List Effect) : Safe (act f) := fun _ => ⟨(), _, rfl⟩

theorem Safe.bind {x : Handling α} {f : α → Handling β} (hx : Safe x) (hf : ∀ a, Safe (f a)) :
    Safe (x >>= f) := by
  intro p
  obtain ⟨a, r, hr⟩ := hx p
  obtain ⟨b, q, hq⟩ := hf a r
  exact ⟨b, q, by simpa only [runFrom_bind, hr] using hq⟩

theorem atomic_throw (fault : ClientFault) : Atomic (throw fault : Handling α) := by
  intro p fault' q h
  cases h
  rfl

theorem atomic_lift_bind {x : Except ClientFault α} {f : α → Handling β}
    (hf : ∀ a, Atomic (f a)) : Atomic (liftM x >>= f) := by
  intro p fault q h
  rw [runFrom_bind, runFrom_lift] at h
  cases x with
  | error => exact atomic_throw _ p fault q h
  | ok a => exact hf a p fault q h

theorem atomic_client_bind {f : Client → Handling β} (hf : ∀ c, Atomic (f c)) :
    Atomic (client >>= f) := fun p fault q h => hf p.client p fault q h

theorem Atomic.bind {x : Handling α} {f : α → Handling β} (hx : Atomic x)
    (hf : ∀ a, Safe (f a)) : Atomic (x >>= f) := by
  intro p fault q h
  rw [runFrom_bind] at h
  split at h
  · rename_i a r hr
    obtain ⟨b, q', hok⟩ := hf a r
    rw [hok] at h
    cases h
  · rename_i fault' r hr
    cases h
    exact hx p _ _ hr

theorem atomic_receiveResponse (ids : CommandIds) (method : Method) (message : Json) :
    Atomic (receiveResponse ids method message) := by
  refine atomic_lift_bind fun r => ?_
  split
  · exact atomic_throw _
  · exact (safe_act _).atomic

theorem atomic_receiveEvent (bound : Option DocumentId) (message : Json) :
    Atomic (receiveEvent bound message) := by
  refine atomic_lift_bind fun e => atomic_client_bind fun c => ?_
  split
  · exact atomic_throw _
  · exact atomic_lift_bind fun _ => (safe_act _).atomic

theorem atomic_receiveLiveUpdate (bound : Option DocumentId) (message : Json) :
    Atomic (receiveLiveUpdate bound message) := by
  refine atomic_lift_bind fun u => atomic_client_bind fun c => ?_
  split
  · exact atomic_throw _
  · refine atomic_lift_bind fun _ => ((safe_act _).bind fun _ => ?_).atomic
    split
    · exact safe_act _
    · exact safe_pure _

theorem atomic_receiveComponent (bound : Option (DocumentId × Document)) (method : Method)
    (message : Json) : Atomic (receiveComponent bound method message) := by
  refine atomic_lift_bind fun r => Safe.atomic ?_
  split
  · exact safe_act _
  · split
    · exact safe_act _
    · exact safe_act _
    · exact safe_pure _

theorem atomic_receiveRegistered (ids : CommandIds) (bound : Option (DocumentId × Document))
    (method : Method) (message : Json) : Atomic (receiveRegistered ids bound method message) := by
  cases method with
  | registerSuccess | registerFailure | register | command | component => exact atomic_throw _
  | commandSuccess | commandFailure => exact atomic_receiveResponse ids _ message
  | event => exact atomic_receiveEvent _ message
  | liveDataUpdate => exact atomic_receiveLiveUpdate _ message
  | componentSuccess | componentFailure | componentUpdate =>
    exact atomic_receiveComponent bound _ message

/-- No name of a refused schema is filed. -/
theorem atomic_onKeys_load (maxVersion : String) (document : Json) :
    Atomic (onKeys (Schema.load maxVersion document)) := by
  intro p fault q h
  rw [runFrom_onKeys] at h
  cases hload : (Schema.load maxVersion document).run.run p.keys with
  | mk result keys =>
    rw [hload] at h
    cases result with
    | ok loaded => cases h
    | error refused =>
      cases h
      rw [Schema.keys_of_load_error hload]

theorem atomic_register (fresh : String) (message : Json) : Atomic (register fresh message) :=
  atomic_lift_bind fun _ => atomic_client_bind fun _ =>
    (atomic_onKeys_load _ _).bind fun _ => safe_act _

end Atomicity

theorem chooseToken_ne_empty (uri fresh : String) {sent : String} (hsent : sent ≠ "") :
    chooseToken uri fresh sent ≠ "" := by
  unfold chooseToken
  split
  · intro h
    have hdash : uri ++ "-" ++ fresh = "" := h
    simp at hdash
  · exact hsent

theorem token_ne_empty {success : RegisterSuccess}
    (h : RegisterSuccess.decode message = .ok success) : success.token ≠ "" := by
  unfold RegisterSuccess.decode at h
  simp only [bind_eq_ok] at h
  obtain ⟨body, -, token, htoken, h⟩ := h
  split at h
  · exact (throw_ne_ok h).elim
  · cases h
    exact SortedMap.requiredString_ne_empty htoken

/-- A connection as registration makes it: every declared name has its feed, as declared. -/
structure Connection.IsNew (conn : Connection) : Prop where
  feeds : ∀ name, conn.feeds.get? name = (conn.schema.liveData? name).map Feed.ofDefinition
  contents : ∀ name d, conn.schema.liveData? name = some d → ∃ v, d.Begins v

theorem connect_isNew {maxVersion : String} {keys : PropertyKeys} {document : Json}
    {r : Schema.Reading} (hread : Schema.read maxVersion keys document = .ok r) (fresh : String)
    (success : RegisterSuccess) :
    Connection.IsNew (connect fresh success r.schema r.warnings) where
  feeds := get?_feeds r.schema.liveData.nodup
    (fun e he => Schema.selfNamed_of_read hread e.1 e.2
      (InsertionMap.lookup_eq_some_of_mem r.schema.liveData.nodup he))
  contents name d hd :=
    Schema.exists_begins_of_read hread d (InsertionMap.mem_values_iff.2 ⟨name, hd⟩)

theorem register_eq_ok {c : Client} {keys : PropertyKeys} {fresh : String} {q : Progress}
    (h : (register fresh message).runFrom ⟨c, keys, []⟩ = (.ok (), q)) :
    ∃ conn : Connection, Connection.IsNew conn ∧ conn.token ≠ "" ∧
      q.client = { c with registration := .registered conn } ∧ ∀ e ∈ q.effects, e.isLog := by
  rw [runFrom_register] at h
  split at h
  · cases h
  · rename_i success hsuccess
    split at h <;> cases h
    rename_i r hread
    refine ⟨_, connect_isNew hread fresh success,
      chooseToken_ne_empty _ _ (token_ne_empty hsuccess), rfl, ?_⟩
    simp only [List.nil_append, List.mem_append, List.mem_map, List.mem_singleton]
    rintro e (⟨w, -, rfl⟩ | rfl) <;> rfl

/-- What becomes of a message and of the client, one case for each way it can go. -/
inductive Handled (c : Client) (services : Services) (bound : Option (DocumentId × Document))
    (message : Json) : Receipt → Prop
  | refused (fault : ClientFault) :
      Handled c services bound message ⟨c, services.keys, [], .error fault⟩
  | unregistrable (fault : ClientFault) (hc : c.connection? = none)
      (hstill : c.registration ≠ .failed) :
      Handled c services bound message
        ⟨{ c with registration := .failed }, services.keys, [], .error fault⟩
  | declined (hc : c.connection? = none) (hm : c.methodOf message = .ok .registerFailure)
      (hstill : c.registration ≠ .failed) :
      Handled c services bound message
        ⟨{ c with registration := .failed }, services.keys, [], .ok ()⟩
  | registered {keys : PropertyKeys} {conn : Connection} {es : List Effect}
      (hc : c.connection? = none) (hm : c.methodOf message = .ok .registerSuccess)
      (hnew : Connection.IsNew conn) (hes : ∀ e ∈ es, e.isLog)
      (hstill : c.registration ≠ .failed) (htoken : conn.token ≠ "") :
      Handled c services bound message
        ⟨{ c with registration := .registered conn }, keys, es, .ok ()⟩
  | accepted {conn : Connection} {method : Method} {c' : Client} {es : List Effect}
      (hc : c.connection? = some conn) (hm : c.methodOf message = .ok method)
      (hr : Reacted c services.commandIds bound method message c' es) :
      Handled c services bound message ⟨c', services.keys, es, .ok ()⟩

theorem connection?_eq_none {c : Client} (h : ∀ conn, c.registration = .registered conn → False) :
    c.connection? = none := by
  unfold connection?
  split
  · rename_i conn hreg
    exact (h conn hreg).elim
  · rfl

theorem handle_eq (c : Client) (services : Services) (bound : Option (DocumentId × Document))
    (fresh : String) (message : Json) {result : Except ClientFault Unit} {q : Progress}
    (h : (process services.commandIds bound fresh message).runFrom ⟨c, services.keys, []⟩ =
      (result, q)) :
    c.handle services bound fresh message = ⟨q.client, q.keys, q.effects, result⟩ := by
  rw [handle, Handling.receipt, h]

theorem handle_result_eq_ok {c : Client} {services : Services}
    {bound : Option (DocumentId × Document)} {fresh : String} {message : Json} :
    (c.handle services bound fresh message).result = .ok () ↔
      ∃ q, (process services.commandIds bound fresh message).runFrom ⟨c, services.keys, []⟩ =
        (.ok (), q) := by
  cases h : (process services.commandIds bound fresh message).runFrom ⟨c, services.keys, []⟩ with
  | mk result q =>
  rw [handle_eq c services bound fresh message h]
  simp

theorem handled_handle (c : Client) (services : Services)
    (bound : Option (DocumentId × Document)) (fresh : String) (message : Json) :
    Handled c services bound message (c.handle services bound fresh message) := by
  cases h : (process services.commandIds bound fresh message).runFrom ⟨c, services.keys, []⟩ with
  | mk result q =>
  rw [handle_eq c services bound fresh message h]
  rw [runFrom_process] at h
  split at h
  · cases h
    exact .refused _
  · rename_i method hm
    split at h
    · rename_i conn hreg
      have hreg : c.registration = .registered conn := hreg
      have hc : c.connection? = some conn := by simp [connection?, hreg]
      cases result with
      | error fault =>
        obtain rfl := atomic_receiveRegistered _ _ _ _ _ _ _ h
        exact .refused _
      | ok =>
        obtain ⟨hkeys, hreacted⟩ := reacts_receiveRegistered h
        rw [hkeys]
        exact .accepted hc hm hreacted
    · cases h
      exact .refused _
    · rename_i hfree hstill
      have hc := connection?_eq_none hfree
      rw [runFrom_tryRegister] at h
      split at h
      · rename_i q' hr
        cases h
        obtain ⟨conn, hnew, htoken, hclient, hes⟩ := register_eq_ok hr
        rw [hclient]
        exact .registered hc hm hnew hes hstill htoken
      · rename_i fault q' hr
        cases h
        obtain rfl := atomic_register _ _ _ _ _ hr
        exact .unregistrable _ hc hstill
    · rename_i hfree hstill
      cases h
      exact .declined (connection?_eq_none hfree) hm hstill
    · cases h
      exact .refused _

variable {c : Client} {services : Services} {fresh : String}

@[simp] theorem receive_client :
    (c.receive services bound fresh message).client =
      (c.handle services bound fresh (evaluated bound message)).client := rfl

@[simp] theorem receive_result :
    (c.receive services bound fresh message).result =
      (c.handle services bound fresh (evaluated bound message)).result := rfl

theorem receive_effects (c : Client) (services : Services)
    (bound : Option (DocumentId × Document)) (fresh : String) (message : Json) :
    ∃ refusal : List Effect, (∀ e ∈ refusal, e.isLog) ∧
      (c.receive services bound fresh message).effects =
        c.trace (.inbound c.uri (evaluated bound message)) ++
          (c.handle services bound fresh (evaluated bound message)).effects ++ refusal := by
  refine ⟨_, ?_, rfl⟩
  split <;> simp [Effect.isLog]

@[simp] theorem receive_handled :
    (c.receive services bound fresh message).effects.filterMap Effect.handled? =
      (c.handle services bound fresh (evaluated bound message)).effects.filterMap
        Effect.handled? := by
  obtain ⟨refusal, hlog, he⟩ := c.receive_effects services bound fresh message
  simp [he, handled_of_logs hlog]

@[simp] theorem receive_resolutions :
    (c.receive services bound fresh message).effects.filterMap Effect.resolution? =
      (c.handle services bound fresh (evaluated bound message)).effects.filterMap
        Effect.resolution? := by
  obtain ⟨refusal, hlog, he⟩ := c.receive_effects services bound fresh message
  simp [he, resolutions_of_logs hlog]

end Client

end ExtensionHost
