import ExtensionHost.Proofs.Contents

namespace ExtensionHost

/-- Where a registration stands, without what it has established. -/
inductive Phase where
  | unregistered
  | awaiting
  | registered
  | failed
  deriving DecidableEq

def Registration.phase : Registration → Phase
  | .unregistered => .unregistered
  | .awaiting => .awaiting
  | .registered _ => .registered
  | .failed => .failed

namespace Phase

/-- The answer of the extension still counts. -/
def IsOpen (p : Phase) : Prop := p = unregistered ∨ p = awaiting

instance (p : Phase) : Decidable p.IsOpen := inferInstanceAs (Decidable (_ ∨ _))

theorem not_isOpen_registered : ¬ registered.IsOpen := by decide

theorem not_isOpen_failed : ¬ failed.IsOpen := by decide

/-- The ways on. There is none from where a registration has succeeded or failed. -/
inductive Advances : Phase → Phase → Prop
  | requested : Advances unregistered awaiting
  | succeeded {p : Phase} (hp : p.IsOpen) : Advances p registered
  | refused {p : Phase} (hp : p.IsOpen) : Advances p failed

theorem Advances.isOpen {p q : Phase} (h : Advances p q) : p.IsOpen := by
  cases h with
  | requested => exact .inl rfl
  | succeeded hp => exact hp
  | refused hp => exact hp

end Phase

theorem Registration.isOpen {r : Registration} (hfree : ∀ conn, r = .registered conn → False)
    (hstill : r = .failed → False) : r.phase.IsOpen := by
  cases r with
  | unregistered => exact .inl rfl
  | awaiting => exact .inr rfl
  | registered conn => exact (hfree conn rfl).elim
  | failed => exact (hstill rfl).elim

namespace Client

def phase (c : Client) : Phase := c.registration.phase

theorem connection?_eq_some {c : Client} {conn : Connection} :
    c.connection? = some conn ↔ c.registration = .registered conn := by
  cases hreg : c.registration <;> simp [connection?, hreg]

theorem connection?_eq_none_iff {c : Client} : c.connection? = none ↔ c.phase ≠ .registered := by
  cases hreg : c.registration <;> simp [connection?, phase, Registration.phase, hreg]

theorem phase_eq_registered {c : Client} :
    c.phase = .registered ↔ ∃ conn, c.connection? = some conn := by
  rw [← Option.isSome_iff_exists, Option.isSome_iff_ne_none, ne_eq, connection?_eq_none_iff,
    not_not]

end Client

/-- What a step can make of a registration, one case for each way to go. Of a connection only the
feeds ever change. -/
inductive Registration.Evolves : Registration → Registration → Prop
  | idle (r : Registration) : Evolves r r
  | fed (conn : Connection) (feeds : SortedMap String Feed) :
      Evolves (.registered conn) (.registered { conn with feeds })
  | requested : Evolves .unregistered .awaiting
  | connected {r : Registration} {conn : Connection} (hr : r.phase.IsOpen)
      (htoken : conn.token ≠ "") (hnew : Client.Connection.IsNew conn) :
      Evolves r (.registered conn)
  | refused {r : Registration} (hr : r.phase.IsOpen) : Evolves r .failed

namespace Registration.Evolves

variable {r r' : Registration}

theorem phase (h : Evolves r r') : r'.phase = r.phase ∨ r.phase.Advances r'.phase := by
  cases h with
  | idle | fed => exact .inl rfl
  | requested => exact .inr .requested
  | connected hr => exact .inr (.succeeded hr)
  | refused hr => exact .inr (.refused hr)

theorem connection {conn : Connection} (h : Evolves (.registered conn) r') :
    ∃ feeds, r' = .registered { conn with feeds } := by
  cases h with
  | idle => exact ⟨conn.feeds, rfl⟩
  | fed _ feeds => exact ⟨feeds, rfl⟩
  | connected hr | refused hr => exact absurd hr Phase.not_isOpen_registered

theorem origin {conn : Connection} (h : Evolves r (.registered conn)) :
    (∃ old, r = .registered old) ∨ conn.token ≠ "" ∧ Client.Connection.IsNew conn := by
  generalize hr' : Registration.registered conn = r' at h
  cases h with
  | idle => exact .inl ⟨conn, hr'.symm⟩
  | fed old => exact .inl ⟨old, rfl⟩
  | connected _ htoken hnew =>
    cases hr'
    exact .inr ⟨htoken, hnew⟩
  | requested | refused => cases hr'

end Registration.Evolves

namespace Client

open Registration (Evolves)

variable {c c' : Client} {ids : CommandIds} {bound : Option (DocumentId × Document)}
  {method : Method} {message : Json} {es : List Effect}

theorem evolves_withFeeds (c : Client) (feeds : SortedMap String Feed) :
    Evolves c.registration (c.withFeeds feeds).registration := by
  unfold withFeeds
  split
  · rename_i conn hreg
    rw [hreg]
    exact .fed conn feeds
  · exact .idle _

@[simp] theorem deliver_registration (c : Client) (bound : Option DocumentId)
    (events : List Event) : (c.deliver bound events).1.registration = c.registration := by
  rw [deliver_fst]

theorem evolves_reportFeeds (c : Client) (bound : Option DocumentId) (due : Feed → Bool)
    (notices : Feed → List Notice) :
    Evolves c.registration (c.reportFeeds bound due notices).1.registration := by
  simp only [reportFeeds, announceAll_fst, deliver_registration]
  exact c.evolves_withFeeds _

theorem evolves_reacted (hr : Reacted c ids bound method message c' es) :
    Evolves c.registration c'.registration := by
  cases hr with
  | answered | unawaited | component => exact .idle _
  | event =>
    rw [deliver_registration]
    exact .idle _
  | updated => exact c.evolves_withFeeds _
  | reported =>
    rw [announce_fst, deliver_registration]
    exact c.evolves_withFeeds _

theorem evolves_handle (c : Client) (services : Services)
    (bound : Option (DocumentId × Document)) (fresh : String) (message : Json) :
    Evolves c.registration (c.handle services bound fresh message).client.registration := by
  have hopen : c.connection? = none → c.registration ≠ .failed → c.registration.phase.IsOpen :=
    fun hc hstill => Registration.isOpen
      (fun conn hreg => by simp [connection?, hreg] at hc) hstill
  have hhandled := c.handled_handle services bound fresh message
  generalize c.handle services bound fresh message = r at hhandled ⊢
  cases hhandled with
  | refused => exact .idle _
  | unregistrable _ hc hstill => exact .refused (hopen hc hstill)
  | declined hc _ hstill => exact .refused (hopen hc hstill)
  | registered hc _ hnew _ hstill htoken => exact .connected (hopen hc hstill) htoken hnew
  | accepted _ _ hr => exact evolves_reacted hr

theorem evolves_receiveText (c : Client) (services : Services)
    (bound : Option (DocumentId × Document)) (fresh text : String) :
    Evolves c.registration (c.receiveText services bound fresh text).client.registration := by
  unfold receiveText
  split
  · exact c.evolves_handle ..
  · exact .idle _

end Client

namespace Host

open Registration (Evolves)

variable {h : Host} {s : Step} {k : ClientId} {c c' : Client}

theorem evolves_act (h : Host) (c : Client) (s : Step) :
    Evolves c.registration (h.act c s).1.registration := by
  cases s with
  | requestRegistration client settings =>
    simp only [act, Client.requestRegistration]
    split
    · rename_i hreg
      rw [hreg]
      exact .requested
    · exact .idle _
  | receive client fresh message => exact c.evolves_handle ..
  | receiveText client fresh text => exact c.evolves_receiveText ..
  | bind client d =>
    simp only [act]
    split
    · have hreport := Client.evolves_reportFeeds { c with document := some d, held := [] } (some d)
        (·.pending) Feed.snapshotNotices
      rw [(c.bind_eq d).1]
      exact hreport
    · exact .idle _
  | edit | discard => exact c.evolves_withFeeds _
  | flush client name =>
    simp only [act, Client.flush]
    split
    · exact .idle _
    · rw [Client.announce_fst, Client.deliver_registration]
      exact c.evolves_withFeeds _
  | flushAll client => exact c.evolves_reportFeeds ..
  | _ => exact .idle _

/-- No step undoes a registration or gives a failed one another try. -/
theorem evolves_perform (hn : h.Numbered) (hc : h.clients.get? k = some c)
    (hc' : (h.perform s).host.clients.get? k = some c') :
    Evolves c.registration c'.registration := by
  rcases acts_or_idle hn hc hc' with ⟨-, rfl⟩ | ⟨p, rfl⟩
  · exact h.evolves_act c s
  · exact .idle _

end Host

namespace Replica

theorem kind_of_apply {r r' : Replica} {op : Operation} (h : r.apply op = .ok r') :
    r'.kind = r.kind := by
  cases r with
  | array a =>
    cases ha : a.apply op with
    | error fault => simp [apply, ha, Except.map] at h
    | ok a' =>
      obtain rfl : .array a' = r' := by simpa [apply, ha, Except.map] using h
      rfl
  | map m =>
    cases hm : m.apply op with
    | error fault => simp [apply, hm, Except.map] at h
    | ok m' =>
      obtain rfl : .map m' = r' := by simpa [apply, hm, Except.map] using h
      rfl

theorem kind_mutated (r : Replica) (m : Mutation) : (r.mutated m).kind = r.kind := by
  cases m with
  | operation operation =>
    simp only [mutated]
    cases hop : (Operation.decode operation).toOption.bind fun op => (r.apply op).toOption with
    | none => rfl
    | some r' =>
      obtain ⟨op, -, happ⟩ := Option.bind_eq_some_iff.1 hop
      cases hr : r.apply op with
      | error fault => simp [hr, Except.toOption] at happ
      | ok r'' =>
        obtain rfl : r'' = r' := by simpa [hr, Except.toOption] using happ
        exact kind_of_apply hr
  | edit e => exact kind_edited r e

theorem kind_foldl_mutated (mutations : List Mutation) (r : Replica) :
    (mutations.foldl mutated r).kind = r.kind := by
  induction mutations generalizing r with
  | nil => rfl
  | cons m rest ih => rw [List.foldl_cons, ih, kind_mutated]

@[simp] theorem kind_ofInitial (kind : LiveKind) (initial : Json) :
    (ofInitial kind initial).kind = kind := by
  unfold ofInitial
  split <;> rfl

end Replica

theorem Feed.turned_kind (name : String) (f : Feed) (t : Turn) :
    (f.turned name t).replica.kind = f.replica.kind := by
  rw [Replica.kind_of_snapshot (f.turned_contents name t), Replica.kind_foldl_mutated]

/-- The live data of a connection is what its schema declares, each of its kind. -/
def Connection.Declared (conn : Connection) : Prop :=
  ∀ name, (conn.feeds.get? name).map (·.replica.kind) =
    (conn.schema.liveData? name).map (·.kind)

theorem Connection.declared_of_isNew {conn : Connection} (hnew : Client.Connection.IsNew conn) :
    conn.Declared := by
  intro name
  rw [hnew.feeds name, Option.map_map]
  congr 1
  funext d
  exact Replica.kind_ofInitial d.kind d.initial

theorem Connection.declared_of_turned {conn conn' : Connection} {turn : Option Turn}
    (hdeclared : conn.Declared) (hschema : conn'.schema = conn.schema)
    (hfeeds : ∀ name, conn'.feeds.get? name =
      (conn.feeds.get? name).map fun f => turn.elim f (f.turned name)) : conn'.Declared := by
  intro name
  rw [hschema, ← hdeclared name, hfeeds name, Option.map_map]
  congr 1
  funext f
  cases turn with
  | none => rfl
  | some t => exact f.turned_kind name t

namespace Host

variable {h : Host} {s : Step} {k : ClientId} {c c' : Client} {uri : String}

/-- What is true at any time of a client that was created with a URI. -/
structure Standing (uri : String) (c : Client) : Prop where
  requestedUri : c.requestedUri = uri
  held : c.connection? = none → c.held = []
  token : ∀ conn, c.connection? = some conn → conn.token ≠ ""
  declared : ∀ conn, c.connection? = some conn → conn.Declared

theorem standing_create (uri : String) (config : Config) (services : ServicesId) :
    Standing uri (.create uri config services) where
  requestedUri := rfl
  held _ := rfl
  token conn hconn := by cases hconn
  declared conn hconn := by cases hconn

theorem held_act (hs : s.actor? = some k) (hc : h.clients.get? k = some c)
    (hconn : c.connection? = none) (hheld : c.held = []) : (h.act c s).1.held = [] := by
  have hqueue := (awaits_act hs hc hconn).queue fun _ => hheld
  unfold Client.Queued at hqueue
  split at hqueue
  · exact hqueue.2
  · rw [hqueue.2, hheld]

theorem standing_act (hs : s.actor? = some k) (hc : h.clients.get? k = some c)
    (hi : Standing uri c) : Standing uri (h.act c s).1 := by
  have hevolves := h.evolves_act c s
  have hkept := (act_kept h c s).2.trans hi.requestedUri
  cases hconn : c.connection? with
  | some conn =>
    -- A connection that is there keeps its token and schema, and its feeds keep their kinds.
    obtain ⟨conn', hconn', hschema, hfeeds⟩ := (turned_act hs hc hconn).feeds
    rw [Client.connection?_eq_some.1 hconn] at hevolves
    obtain ⟨feeds, hfed⟩ := hevolves.connection
    refine ⟨hkept, fun hnone => ?_, fun conn₁ hconn₁ => ?_, fun conn₁ hconn₁ => ?_⟩
    · rw [hconn'] at hnone
      cases hnone
    · rw [Client.connection?_eq_some.2 hfed] at hconn₁
      cases hconn₁
      exact hi.token conn hconn
    · rw [hconn'] at hconn₁
      cases hconn₁
      exact Connection.declared_of_turned (hi.declared conn hconn) hschema hfeeds
  | none =>
    -- One that is there only now is as registration makes it.
    have hnew : ∀ conn, (h.act c s).1.connection? = some conn →
        conn.token ≠ "" ∧ Client.Connection.IsNew conn := by
      intro conn hconn'
      rw [Client.connection?_eq_some.1 hconn'] at hevolves
      rcases hevolves.origin with ⟨old, hold⟩ | hnew
      · rw [Client.connection?_eq_some.2 hold] at hconn
        cases hconn
      · exact hnew
    exact ⟨hkept, fun _ => held_act hs hc hconn (hi.held hconn), fun conn hconn' =>
      (hnew conn hconn').1, fun conn hconn' => Connection.declared_of_isNew (hnew conn hconn').2⟩

theorem standing_perform (hn : h.Numbered) (hc : h.clients.get? k = some c)
    (hc' : (h.perform s).host.clients.get? k = some c') (hi : Standing uri c) :
    Standing uri c' := by
  rcases acts_or_idle hn hc hc' with ⟨hs, rfl⟩ | ⟨p, rfl⟩
  · exact standing_act hs hc hi
  · exact ⟨hi.requestedUri, hi.held, hi.token, hi.declared⟩

theorem numbered_more (hn : h.Numbered) (more : List Step) :
    (h.after more).Numbered ∧ h.next ≤ (h.after more).next := by
  induction more generalizing h with
  | nil => exact ⟨hn, Nat.le_refl _⟩
  | cons s rest ih =>
    obtain ⟨hrest, hle⟩ := ih (numbered_perform hn s)
    exact ⟨hrest, Nat.le_trans (next_le_perform h s) hle⟩

theorem created_perform (hc' : (h.perform s).host.clients.get? k = some c') :
    (∃ c, h.clients.get? k = some c) ∨ k = h.next ∧ ∃ uri config services,
      s = .createClient uri config services ∧ c' = .create uri config services := by
  by_cases hs : s.actor? = some k
  · cases hc : h.clients.get? k with
    | some c => exact .inl ⟨c, rfl⟩
    | none =>
      rw [(perform_of_absent hs hc).1, hc] at hc'
      cases hc'
  · rcases get?_perform_of_not_actor hs hc' with ⟨c, -, hc, -⟩ | hnew
    · exact .inl ⟨c, hc⟩
    · exact .inr hnew

/-- The induction for what stays true of a client from one state on. A client that is dropped does
not come back, as its number is never given out again. -/
theorem later_induction {P : Host → Client → Prop} (hn : h.Numbered)
    (hc : h.clients.get? k = some c) (hP : P h c)
    (step : ∀ h s c c', h.Numbered → h.clients.get? k = some c →
      (h.perform s).host.clients.get? k = some c' → P h c → P (h.perform s).host c')
    (more : List Step) (hc' : (h.after more).clients.get? k = some c') : P (h.after more) c' := by
  induction more using List.reverseRecOn generalizing c' with
  | nil =>
    obtain rfl : c = c' := Option.some.inj (hc.symm.trans hc')
    exact hP
  | append_singleton more s ih =>
    obtain ⟨hn', hle⟩ := numbered_more hn more
    rw [after_concat] at hc' ⊢
    rcases created_perform hc' with ⟨c₁, hc₁⟩ | ⟨hk, -⟩
    · exact step _ s c₁ c' hn' hc₁ hc' (ih hc₁)
    · -- The number has been in use from the start, so the step cannot have given it out.
      exact absurd (hk ▸ hn.clients k c hc) (Nat.not_lt.2 hle)

theorem exists_create (steps : List Step) (hc : (start.after steps).clients.get? k = some c) :
    ∃ before uri config services after,
      steps = before ++ .createClient uri config services :: after ∧
      (start.after before).next = k := by
  induction steps using List.reverseRecOn generalizing c with
  | nil => simp [after, start] at hc
  | append_singleton steps s ih =>
    rw [after_concat] at hc
    rcases created_perform hc with ⟨c₁, hc₁⟩ | ⟨hk, uri, config, services, rfl, -⟩
    · obtain ⟨before, uri, config, services, after, rfl, hnext⟩ := ih hc₁
      exact ⟨before, uri, config, services, after ++ [s], by simp, hnext⟩
    · exact ⟨steps, uri, config, services, [], rfl, hk.symm⟩

theorem standing_after {before after : List Step} {config : Config} {services : ServicesId}
    (hc : (start.after (before ++ .createClient uri config services :: after)).clients.get?
      (start.after before).next = some c) : Standing uri c := by
  have hcreated : ((start.after before).perform
      (.createClient uri config services)).host.clients.get? (start.after before).next =
        some (.create uri config services) := by
    simp [perform, Outcome.quiet, Outcome.map, createClient]
  rw [after_append] at hc
  exact later_induction (numbered_perform (numbered_after before).1 _) hcreated
    (P := fun _ c => Standing uri c) (standing_create uri config services)
    (fun h s c c' hn hc hc' hi => standing_perform hn hc hc' hi) after hc

end Host

namespace Client

structure Blank (given : String) (c : Client) : Prop where
  uri : c.uri = given
  token : c.token = ""
  schema : c.schema = .bare given
  warnings : c.warnings = []
  feeds : c.feeds = .empty
  held : c.held = []

structure Connected (c : Client) : Prop where
  token : c.token ≠ ""
  uri : c.uri = c.schema.uri
  feeds : ∀ name, (c.feeds.get? name).map (·.replica.kind) =
    (c.schema.liveData? name).map (·.kind)

/-- What a client keeps once it is registered. -/
structure SameConnection (c c' : Client) : Prop where
  phase : c'.phase = .registered
  uri : c'.uri = c.uri
  token : c'.token = c.token
  schema : c'.schema = c.schema
  environment : c'.environment = c.environment
  warnings : c'.warnings = c.warnings

variable {c c' : Client} {conn : Connection} {uri : String}

theorem blank_of_standing (hi : Host.Standing uri c) (hconn : c.connection? = none) :
    c.Blank uri where
  uri := by simp [Client.uri, schema, hconn, hi.requestedUri, Schema.bare]
  token := by simp [Client.token, hconn]
  schema := by simp [Client.schema, hconn, hi.requestedUri]
  warnings := by simp [Client.warnings, hconn]
  feeds := feeds_of_unregistered hconn
  held := hi.held hconn

theorem connected_of_standing (hi : Host.Standing uri c) (hconn : c.connection? = some conn) :
    c.Connected where
  token := by simpa [Client.token, hconn] using hi.token conn hconn
  uri := rfl
  feeds := by
    have hdeclared := hi.declared conn hconn
    simpa [Client.feeds, schema, hconn] using fun name => hdeclared name

theorem sameConnection_of_feeds {feeds : SortedMap String Feed}
    (hconn : c.connection? = some conn) (hconn' : c'.connection? = some { conn with feeds }) :
    c.SameConnection c' where
  phase := phase_eq_registered.2 ⟨_, hconn'⟩
  uri := by simp [Client.uri, Client.schema, hconn, hconn']
  token := by simp [Client.token, hconn, hconn']
  schema := by simp [Client.schema, hconn, hconn']
  environment := by simp [Client.environment, Client.schema, hconn, hconn']
  warnings := by simp [Client.warnings, hconn, hconn']

end Client

namespace Host

variable {h : Host} {k : ClientId} {c c' : Client}

theorem sameConnection_more (hn : h.Numbered) (hc : h.clients.get? k = some c)
    (hphase : c.phase = .registered) (more : List Step)
    (hc' : (h.after more).clients.get? k = some c') : c.SameConnection c' := by
  obtain ⟨conn, hconn⟩ := Client.phase_eq_registered.1 hphase
  have hfeeds : ∃ feeds, c'.connection? = some { conn with feeds } := by
    refine later_induction hn hc
      (P := fun _ c' => ∃ feeds, c'.connection? = some { conn with feeds })
      ⟨conn.feeds, hconn⟩ (fun h s c₁ c₂ hn hc₁ hc₂ ⟨feeds, hold⟩ => ?_) more hc'
    have hevolves := evolves_perform hn hc₁ hc₂
    rw [Client.connection?_eq_some.1 hold] at hevolves
    obtain ⟨feeds', hnew⟩ := hevolves.connection
    exact ⟨feeds', Client.connection?_eq_some.2 hnew⟩
  obtain ⟨feeds, hconn'⟩ := hfeeds
  exact Client.sameConnection_of_feeds hconn hconn'

theorem failed_more (hn : h.Numbered) (hc : h.clients.get? k = some c)
    (hphase : c.phase = .failed) (more : List Step)
    (hc' : (h.after more).clients.get? k = some c') : c'.phase = .failed := by
  refine later_induction hn hc (P := fun _ c' => c'.phase = .failed) hphase
    (fun h s c₁ c₂ hn hc₁ hc₂ hold => ?_) more hc'
  rcases (evolves_perform hn hc₁ hc₂).phase with hsame | hadvance
  · exact hsame.trans hold
  · have hopen := hadvance.isOpen
    rw [show c₁.registration.phase = .failed from hold] at hopen
    exact absurd hopen Phase.not_isOpen_failed

/-- The life of a client along every run. It is created at one point of the run, with a URI. From
step to step its registration stays where it is or advances, so that one that has succeeded or
failed stays so. While it is not registered, the client is blank. Once it is, it has what the
registration has established: a token, the schema with its URI, and the live data that the schema
declares. Of these only the contents of live data change afterwards. -/
theorem registration_settles (steps : List Step)
    (hc : (start.after steps).clients.get? k = some c) :
    ∃ before uri config services after,
      steps = before ++ .createClient uri config services :: after ∧
      (start.after before).next = k ∧
      (∀ s c', ((start.after steps).perform s).host.clients.get? k = some c' →
        c'.phase = c.phase ∨ c.phase.Advances c'.phase) ∧
      (c.phase ≠ .registered → c.Blank uri) ∧
      (c.phase = .registered → c.Connected ∧
        ∀ more c', (start.after (steps ++ more)).clients.get? k = some c' →
          c.SameConnection c') ∧
      (c.phase = .failed → ∀ more c',
        (start.after (steps ++ more)).clients.get? k = some c' → c'.phase = .failed) := by
  have hn := (numbered_after steps).1
  obtain ⟨before, uri, config, services, after, hsteps, hnext⟩ := exists_create steps hc
  have hi : Standing uri c := by
    subst hsteps hnext
    exact standing_after hc
  refine ⟨before, uri, config, services, after, hsteps, hnext, fun s c' hc' => ?_, fun hphase => ?_,
    fun hphase => ⟨?_, fun more c' hc' => ?_⟩, fun hphase more c' hc' => ?_⟩
  · exact (evolves_perform hn hc hc').phase
  · exact Client.blank_of_standing hi (Client.connection?_eq_none_iff.2 hphase)
  · obtain ⟨conn, hconn⟩ := Client.phase_eq_registered.1 hphase
    exact Client.connected_of_standing hi hconn
  · rw [after_append] at hc'
    exact sameConnection_more hn hc hphase more hc'
  · rw [after_append] at hc'
    exact failed_more hn hc hphase more hc'

/-- A client that was created under another URI asks to register. It is told nonsense, then the
consent, and in the end a refusal, which comes too late. -/
def enrolment : List Step :=
  [.createServices (.startingAt 1000) (.startingAt 1), .createClient "draft" .standard 0,
    .requestRegistration 1 .null, .receive 1 "" .null, .receive 1 "" notesConsent,
    .receive 1 "" (messageOf .registerFailure [])]

theorem registration_settles_enrolment : ∃ c, (start.after enrolment).clients.get? 1 = some c ∧
    c.phase = .registered ∧ ∀ more c', (start.after (enrolment ++ more)).clients.get? 1 = some c' →
      c'.uri = "notes" ∧ c'.token = "secret" := by
  have hclient : ∃ c, (start.after enrolment).clients.get? 1 = some c ∧ c.phase = .registered ∧
      c.uri = "notes" ∧ c.token = "secret" :=
    ⟨_, rfl, by decide +kernel, by decide +kernel, by decide +kernel⟩
  obtain ⟨c, hc, hphase, huri, htoken⟩ := hclient
  obtain ⟨-, -, -, -, -, -, -, -, -, hregistered, -⟩ := registration_settles enrolment hc
  refine ⟨c, hc, hphase, fun more c' hc' => ?_⟩
  have hsame := (hregistered hphase).2 more c' hc'
  exact ⟨hsame.uri.trans huri, hsame.token.trans htoken⟩

end Host

end ExtensionHost
