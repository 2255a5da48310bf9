import ExtensionHost.Proofs.Registration

namespace ExtensionHost

theorem SortedMap.modify_eq_self {κ ν : Type} [Ord κ] [Std.LawfulEqOrd κ] {m : SortedMap κ ν}
    {key : κ} {f : ν → ν} (h : ∀ v, m.get? key = some v → f v = v) : m.modify key f = m := by
  apply ext_entries
  have hsame : ∀ e ∈ m.entries, (e.1, if compare key e.1 = .eq then f e.2 else e.2) = id e := by
    intro e he
    split
    · rename_i heq
      obtain rfl := Std.LawfulEqOrd.eq_of_compare heq
      rw [h e.2 (get?_eq_some_iff_mem.2 he)]
      rfl
    · rfl
  exact (List.map_congr_left hsame).trans (List.map_id _)

namespace Client

/-- A consent to a registration that a connection can be made of: it decodes, and the header of its
schema is accepted. -/
def Connects (c : Client) (message : Json) : Prop :=
  ∃ success fields uri version, RegisterSuccess.decode message = .ok success ∧
    success.schema.asObject? = some fields ∧
    Schema.Headed c.config.maxSchemaVersion fields uri version

/-- The message ends an attempt to register, as no connection can be made of the consent. -/
structure GivesUp (c : Client) (message : Json) : Prop where
  isOpen : c.phase.IsOpen
  method : c.methodOf message = .ok .registerSuccess
  unusable : ¬ c.Connects message

inductive Refused (c : Client) (message : Option Json) : Client → Prop
  | kept (h : ∀ m, message = some m → ¬ c.GivesUp m) : Refused c message c
  | failed {m : Json} (hm : message = some m) (h : c.GivesUp m) :
      Refused c message { c with registration := .failed }

/-- What a client has to show, apart from where its registration stands. -/
structure Unchanged (c c' : Client) : Prop where
  uri : c'.uri = c.uri
  token : c'.token = c.token
  schema : c'.schema = c.schema
  warnings : c'.warnings = c.warnings
  feeds : c'.feeds = c.feeds
  pending : c'.pending = c.pending
  held : c'.held = c.held
  document : c'.document = c.document

variable {c c' : Client} {services : Services} {bound : Option (DocumentId × Document)}
  {fresh : String} {message : Json} {fault : ClientFault}

theorem unchanged_of_refused {message : Option Json} (h : Refused c message c') :
    c.Unchanged c' := by
  cases h with
  | kept => exact ⟨rfl, rfl, rfl, rfl, rfl, rfl, rfl, rfl⟩
  | failed hm hgives =>
    have hconn : c.connection? = none := by
      refine connection?_eq_none_iff.2 fun hphase => ?_
      exact Phase.not_isOpen_registered (hphase ▸ hgives.isOpen)
    have hconn' : ({ c with registration := .failed } : Client).connection? = none := rfl
    constructor <;> simp [Client.uri, Client.token, Client.schema, Client.warnings, Client.feeds,
      hconn, hconn']

theorem register_eq_ok_iff {keys : PropertyKeys} :
    (∃ q, (register fresh message).runFrom ⟨c, keys, []⟩ = (.ok (), q)) ↔ c.Connects message := by
  constructor
  · rintro ⟨q, h⟩
    rw [runFrom_register] at h
    split at h
    · cases h
    · rename_i success hdecode
      split at h
      · cases h
      · rename_i r hread
        obtain ⟨fields, uri, version, hfields, hheaded, -⟩ := Schema.read_eq_ok_iff.1 hread
        exact ⟨success, fields, uri, version, hdecode, hfields, hheaded⟩
  · rintro ⟨success, fields, uri, version, hdecode, hfields, hheaded⟩
    have hread : Schema.read c.config.maxSchemaVersion keys success.schema =
        .ok (Schema.readBody keys uri version fields) :=
      Schema.read_eq_ok_iff.2 ⟨fields, uri, version, hfields, hheaded, rfl⟩
    rw [runFrom_register, hdecode]
    dsimp only
    rw [hread]
    exact ⟨_, rfl⟩

/-- What is known of a receipt for a message that has been refused. -/
structure Refusal (c : Client) (services : Services) (message : Option Json) (r : Receipt) :
    Prop where
  keys : r.keys = services.keys
  effects : ∀ e ∈ r.effects, e.isLog
  client : Refused c message r.client

theorem refusal_of_kept (fault : ClientFault) (h : ¬ c.GivesUp message) :
    Refusal c services (some message) ⟨c, services.keys, [], .error fault⟩ where
  keys := rfl
  effects := by simp
  client := .kept fun m hm => Option.some.inj hm ▸ h

/-- Every refusal comes before the first effect. -/
theorem accepted_or_refused (c : Client) (services : Services)
    (bound : Option (DocumentId × Document)) (fresh : String) (message : Json) :
    (c.handle services bound fresh message).result = .ok () ∨
      Refusal c services (some message) (c.handle services bound fresh message) := by
  -- Only a consent can make a client give up, and only as long as the answer is awaited.
  have hother : c.methodOf message ≠ .ok .registerSuccess → ¬ c.GivesUp message :=
    fun hne hgives => hne hgives.method
  have hclosed : ¬ c.phase.IsOpen → ¬ c.GivesUp message := fun hnot hgives => hnot hgives.isOpen
  cases h : (process services.commandIds bound fresh message).runFrom ⟨c, services.keys, []⟩ with
  | mk result q =>
  rw [handle_eq c services bound fresh message h]
  cases result with
  | ok => exact .inl rfl
  | error fault =>
    right
    rw [runFrom_process] at h
    split at h
    · rename_i fault hm
      cases h
      exact refusal_of_kept _ (hother (by simp [hm]))
    · rename_i method hm
      split at h
      · rename_i conn hreg
        obtain rfl := atomic_receiveRegistered _ _ _ _ _ _ _ h
        refine refusal_of_kept _ (hclosed ?_)
        rw [phase, hreg]
        exact Phase.not_isOpen_registered
      · rename_i hreg
        cases h
        refine refusal_of_kept _ (hclosed ?_)
        rw [phase, hreg]
        exact Phase.not_isOpen_failed
      · rename_i hfree hstill
        rw [runFrom_tryRegister] at h
        split at h
        · cases h
        · rename_i fault q' hr
          cases h
          have hgives : c.GivesUp message := by
            refine ⟨Registration.isOpen hfree hstill, hm, fun hconnects => ?_⟩
            obtain ⟨q, hok⟩ := register_eq_ok_iff.2 hconnects
            rw [hr] at hok
            cases hok
          obtain rfl := atomic_register _ _ _ _ _ hr
          exact ⟨rfl, by simp, .failed rfl hgives⟩
      · cases h
      · rename_i hne _ _ _
        cases h
        exact refusal_of_kept _ (hother fun hsuccess => hne (by simpa [hm] using hsuccess))

theorem refusal_receive
    (h : (c.receive services bound fresh message).result = .error fault) :
    Refusal c services (some (evaluated bound message))
      (c.receive services bound fresh message) := by
  rw [receive_result] at h
  rcases c.accepted_or_refused services bound fresh (evaluated bound message) with hok | hrefusal
  · rw [hok] at h
    cases h
  · obtain ⟨refusal, hlog, heffects⟩ := c.receive_effects services bound fresh message
    refine ⟨hrefusal.keys, fun e he => ?_, hrefusal.client⟩
    simp only [heffects, List.mem_append] at he
    rcases he with (he | he) | he
    · exact c.trace_isLog _ e he
    · exact hrefusal.effects e he
    · exact hlog e he

theorem refusal_receiveText {text : String}
    (h : (c.receiveText services bound fresh text).result = .error fault) :
    Refusal c services ((readMessage text).toOption.map (evaluated bound))
      (c.receiveText services bound fresh text) := by
  unfold receiveText at h ⊢
  cases hr : readMessage text with
  | ok message =>
    rw [hr] at h
    exact refusal_receive h
  | error unreadable =>
    refine ⟨rfl, by simp [Effect.isLog], .kept fun m hm => ?_⟩
    simp [Except.toOption] at hm

end Client

namespace Host

theorem settleAll_of_deliveries {es : List Effect} (h : Host) (hes : ∀ e ∈ es, e.isDelivery) :
    h.settleAll es = h := by
  induction es with
  | nil => rfl
  | cons e rest ih =>
    have hrest := ih fun e' he' => hes e' (List.mem_cons_of_mem _ he')
    have he := hes e (List.mem_cons_self ..)
    cases e with
    | log | call => exact hrest
    | resolve => cases he

theorem settleAll_of_logs {es : List Effect} (h : Host) (hes : ∀ e ∈ es, e.isLog) :
    h.settleAll es = h :=
  settleAll_of_deliveries h fun e he => Effect.isDelivery_of_isLog (hes e he)

variable {h : Host} {k : ClientId} {c : Client}

theorem accept_host {r : Client.Receipt} (hkeys : r.keys = (h.servicesOf c).keys) :
    (h.accept k c.services r).host =
      { h with clients := h.clients.insert k r.client }.settleAll r.effects := by
  have hservices : h.services.modify c.services (fun s => { s with keys := r.keys }) =
      h.services := by
    refine SortedMap.modify_eq_self fun s hs => ?_
    simp [hkeys, servicesOf, hs]
  simp only [accept, commit, hservices]

theorem accept_refused {message : Option Json} {r : Client.Receipt}
    (hr : Client.Refusal c (h.servicesOf c) message r) :
    (h.accept k c.services r).host = { h with clients := h.clients.insert k r.client } := by
  rw [accept_host hr.keys]
  exact settleAll_of_logs _ hr.effects

/-- The client that a step brings a message to, and the message, unless its text is unreadable. -/
def Step.delivery? : Step → Option (ClientId × Option Json)
  | .receive client _ message => some (client, some message)
  | .receiveText client _ text => some (client, (readMessage text).toOption)
  | _ => none

theorem perform_of_delivery {s : Step} {message : Json} (hc : h.clients.get? k = some c)
    (hs : s.delivery? = some (k, some message)) : ∃ fresh, h.perform s =
      (h.accept k c.services
        (c.receive (h.servicesOf c) (h.boundDocument c) fresh message)).map .accepted := by
  cases s with
  | receive client fresh m =>
    cases hs
    exact ⟨fresh, by simp only [perform, receive, hc]⟩
  | receiveText client fresh text =>
    simp only [Step.delivery?, Option.some.injEq, Prod.mk.injEq] at hs
    obtain ⟨rfl, hm⟩ := hs
    cases hr : readMessage text with
    | error fault => simp [hr, Except.toOption] at hm
    | ok m =>
      obtain rfl : m = message := by simpa [hr, Except.toOption] using hm
      exact ⟨fresh, by simp only [perform, receiveText, hc, Client.receiveText, hr]⟩
  | _ => cases hs

/-- A refusal is atomic: all that comes of a refused message are log records. The host keeps its
documents, actions and services, ids and property keys included, and all other clients. The client
itself keeps everything as well. Only a consent that no connection can be made of has a consequence:
a client that awaits the answer, or might still ask for it, gives up. -/
theorem refusal_atomic {s : Step} {message : Option Json} {fault : ClientFault}
    (hs : s.delivery? = some (k, message))
    (hr : (h.perform s).result = some (.accepted (.error fault))) :
    (∀ e ∈ (h.perform s).effects, e.isLog) ∧
      ∃ c c', h.clients.get? k = some c ∧
        (h.perform s).host = { h with clients := h.clients.insert k c' } ∧
        c.Unchanged c' ∧
        Client.Refused c (message.map (Client.evaluated (h.boundDocument c))) c' := by
  cases hc : h.clients.get? k with
  | none =>
    cases s with
    | receive | receiveText =>
      cases hs
      simp [perform, receive, receiveText, hc, Outcome.map, Outcome.nothing] at hr
    | _ => simp [Step.delivery?] at hs
  | some c =>
    -- A message and a text end alike: the client's receipt is taken over.
    have hrefusal : ∃ r, Client.Refusal c (h.servicesOf c)
        (message.map (Client.evaluated (h.boundDocument c))) r ∧
        (h.perform s).host = (h.accept k c.services r).host ∧
        (h.perform s).effects = r.effects := by
      cases s with
      | receive client fresh m =>
        cases hs
        simp only [perform, receive, hc, accept, Outcome.map, Option.map_some, Option.some.injEq,
          Answer.accepted.injEq] at hr ⊢
        exact ⟨_, Client.refusal_receive hr, rfl, rfl⟩
      | receiveText client fresh text =>
        cases hs
        simp only [perform, receiveText, hc, accept, Outcome.map, Option.map_some,
          Option.some.injEq, Answer.accepted.injEq] at hr ⊢
        exact ⟨_, Client.refusal_receiveText hr, rfl, rfl⟩
      | _ => simp [Step.delivery?] at hs
    obtain ⟨r, hrefusal, hhost, heffects⟩ := hrefusal
    refine ⟨fun e he => hrefusal.effects e (heffects ▸ he), c, r.client, rfl, ?_,
      Client.unchanged_of_refused hrefusal.client, hrefusal.client⟩
    rw [hhost, accept_refused hrefusal]

/-- A client asks to register and is bound to a document before the answer comes. -/
def asking : List Step :=
  [.createServices (.startingAt 1000) (.startingAt 1), .createClient "draft" .standard 0,
    .openDocument blankPage, .bind 1 2, .requestRegistration 1 .null]

/-- A consent without a token makes the client give up. Once it is registered, an event that the
extension has not declared changes nothing. -/
theorem refusal_atomic_asking :
    (∃ c, ((start.after asking).perform
      (.receive 1 "" (messageOf .registerSuccess []))).host.clients.get? 1 = some c ∧
        c.phase = .failed ∧ c.uri = "draft") ∧
    ∃ c, ((start.after (asking ++ [.receive 1 "" notesConsent])).perform
      (.receive 1 "" (messageOf .event
        [("name", .string "closed"), ("target", .string "notes")]))).host.clients.get? 1 = some c ∧
        c.phase = .registered ∧ c.token = "secret" := by
  constructor
  · have hclient : ∃ c, (start.after asking).clients.get? 1 = some c ∧ c.uri = "draft" ∧
        c.GivesUp (Client.evaluated ((start.after asking).boundDocument c)
          (messageOf .registerSuccess [])) :=
      ⟨_, rfl, by decide +kernel, .inr rfl, rfl, fun ⟨_, _, _, _, hdecode, _⟩ => by cases hdecode⟩
    have hresult : ∃ fault, ((start.after asking).perform
        (.receive 1 "" (messageOf .registerSuccess []))).result =
          some (.accepted (.error fault)) := ⟨_, rfl⟩
    obtain ⟨c, hc, huri, hgives⟩ := hclient
    obtain ⟨fault, hr⟩ := hresult
    obtain ⟨-, c₀, c', hc₀, hhost, hsame, hrefused⟩ := refusal_atomic rfl hr
    obtain rfl : c = c₀ := Option.some.inj (hc.symm.trans hc₀)
    refine ⟨c', by simp [hhost], ?_, hsame.uri.trans huri⟩
    cases hrefused with
    | failed => rfl
    | kept hnot => exact (hnot _ rfl hgives).elim
  · have hclient : ∃ c, (start.after (asking ++ [.receive 1 "" notesConsent])).clients.get? 1 =
        some c ∧ c.phase = .registered ∧ c.token = "secret" :=
      ⟨_, rfl, by decide +kernel, by decide +kernel⟩
    have hresult : ∃ fault, ((start.after (asking ++ [.receive 1 "" notesConsent])).perform
        (.receive 1 "" (messageOf .event
          [("name", .string "closed"), ("target", .string "notes")]))).result =
          some (.accepted (.error fault)) := ⟨_, rfl⟩
    obtain ⟨c, hc, hphase, htoken⟩ := hclient
    obtain ⟨fault, hr⟩ := hresult
    obtain ⟨-, c₀, c', hc₀, hhost, hsame, hrefused⟩ := refusal_atomic rfl hr
    obtain rfl : c = c₀ := Option.some.inj (hc.symm.trans hc₀)
    refine ⟨c', by simp [hhost], ?_, hsame.token.trans htoken⟩
    cases hrefused with
    | kept => exact hphase
    | failed _ hgives => exact absurd (hphase ▸ hgives.isOpen) Phase.not_isOpen_registered

end Host

end ExtensionHost
