import ExtensionHost.Proofs.Acceptance

namespace ExtensionHost

/-- What a step means for the events and the live data of a registered client. An update is heard
if a document is bound when it arrives. -/
inductive Turn where
  | event (event : Event)
  | update (heard : Bool) (update : LiveUpdate)
  | edit (name : String) (edit : Edit)
  | discard (name : String)
  | flush (name : String)
  | flushAll
  | bind

namespace Feed

/-- The feed of a name after a turn, before it is reported. -/
def touched (name : String) (f : Feed) : Turn → Feed
  | .update heard u =>
    if u.name = name then (Client.applyOperations heard f u.operations).1 else f
  | .edit n e => if n = name then { f with replica := f.replica.edited e } else f
  | .discard n => if n = name then { f with replica := f.replica.forgetChanges } else f
  | _ => f

/-- What a turn reports about the feed of a name, if it does so. -/
def report? (name : String) (f : Feed) (t : Turn) : Option (List Notice) :=
  let g := f.touched name t
  match t with
  | .update heard u =>
    if u.name = name ∧ heard ∧ g.pending then some g.changeNotices else none
  | .bind => if g.pending then some g.snapshotNotices else none
  | .flush n => if n = name then some g.changeNotices else none
  | .flushAll => if Client.hasNews g then some g.changeNotices else none
  | _ => none

def turned (name : String) (f : Feed) (t : Turn) : Feed :=
  if (f.report? name t).isSome then (f.touched name t).reported else f.touched name t

@[simp] theorem turned_event (name : String) (f : Feed) (e : Event) :
    f.turned name (.event e) = f := rfl

@[simp] theorem turned_edit (name n : String) (f : Feed) (e : Edit) :
    f.turned name (.edit n e) =
      if n = name then { f with replica := f.replica.edited e } else f := rfl

@[simp] theorem turned_discard (name n : String) (f : Feed) :
    f.turned name (.discard n) =
      if n = name then { f with replica := f.replica.forgetChanges } else f := rfl

@[simp] theorem turned_flush (name n : String) (f : Feed) :
    f.turned name (.flush n) = if n = name then f.reported else f := by
  by_cases hn : n = name <;> simp [turned, report?, touched, hn]

@[simp] theorem turned_flushAll (name : String) (f : Feed) :
    f.turned name .flushAll = if Client.hasNews f then f.reported else f := by
  by_cases hf : Client.hasNews f <;> simp [turned, report?, touched, hf]

@[simp] theorem turned_bind (name : String) (f : Feed) :
    f.turned name .bind = if f.pending then f.reported else f := by
  by_cases hf : f.pending <;> simp [turned, report?, touched, hf]

theorem turned_update_of_ne {name : String} {f : Feed} {heard : Bool} {u : LiveUpdate}
    (hn : u.name ≠ name) :
    f.report? name (.update heard u) = none ∧ f.turned name (.update heard u) = f := by
  simp [turned, report?, touched, hn]

theorem turned_update_of_silent {f next : Feed} {heard : Bool} {u : LiveUpdate}
    {faults : List LiveFault} (happ : Client.applyOperations heard f u.operations = (next, faults))
    (hsilent : (heard && next.pending) = false) :
    f.report? u.name (.update heard u) = none ∧ f.turned u.name (.update heard u) = next := by
  have hnot : ¬ (heard = true ∧ next.pending = true) := by simpa using hsilent
  simp [turned, report?, touched, happ, hnot]

theorem turned_update_of_loud {f next : Feed} {heard : Bool} {u : LiveUpdate}
    {faults : List LiveFault} (happ : Client.applyOperations heard f u.operations = (next, faults))
    (hloud : (heard && next.pending) = true) :
    f.report? u.name (.update heard u) = some next.changeNotices ∧
      f.turned u.name (.update heard u) = next.reported := by
  obtain ⟨rfl, hpending⟩ : heard = true ∧ next.pending = true := by simpa using hloud
  simp [turned, report?, touched, happ, hpending]

end Feed

namespace Client

/-- The turn that an accepted message is. -/
def turnOf? (c : Client) (heard : Bool) : Method × Json → Option Turn
  | (.event, message) =>
    (EventMessage.decode message).toOption.bind fun e =>
      (c.schema.eventMode? e.name).map fun mode =>
        .event ⟨c.uri, e.name, e.payload, mode == .fast, e.resourceId⟩
  | (.liveDataUpdate, message) => (LiveUpdate.decode message).toOption.map (.update heard)
  | _ => none

/-- The events that a turn gives rise to: the one that has been raised, or those that report live
data, in the order of its names. -/
def emitted (c : Client) : Turn → List Event
  | .event e => [e]
  | t => (c.feeds.entries.filterMap fun e => e.2.report? e.1 t).flatMap c.eventsOf

end Client

namespace Host

/-- The turn of client `k` in a step, if it is registered and the step concerns it. -/
def turn? (h : Host) (k : ClientId) (s : Step) : Option Turn :=
  match h.clients.get? k with
  | none => none
  | some c =>
    if s.actor? = some k ∧ c.connection?.isSome then
      match s with
      | .bind _ d => if h.documents.contains d then some .bind else none
      | .edit _ name e => some (.edit name e)
      | .discard _ name => some (.discard name)
      | .flush _ name => some (.flush name)
      | .flushAll _ => some .flushAll
      | s => (h.accepted? k s).bind (c.turnOf? (h.boundDocument c).isSome)
    else none

/-- What is reported about live data in a step, if there is a report. -/
def report? (k : ClientId) (name : String) (e : Host × Step) : Option (List Notice) :=
  ((e.1.clients.get? k).bind (·.feeds.get? name)).bind fun f =>
    (e.1.turn? k e.2).bind (f.report? name)

/-- The document that gets the events of a step: the one that is bound when it ends. -/
def destination (h : Host) (c : Client) : Step → Option DocumentId
  | .bind _ d => if h.documents.contains d then some d else (h.boundDocument c).map (·.1)
  | _ => (h.boundDocument c).map (·.1)

end Host

namespace Client

variable {c : Client} {bound : Option DocumentId}

theorem feeds_of_connection {conn : Connection} (hc : c.connection? = some conn) :
    c.feeds = conn.feeds := by
  simp [feeds, hc]

theorem feeds_of_unregistered (hc : c.connection? = none) : c.feeds = .empty := by
  simp [feeds, hc]

theorem reportFeeds_eq (c : Client) (bound : Option DocumentId) (due : Feed → Bool)
    (notices : Feed → List Notice) :
    let fed := c.withFeeds (c.feeds.map fun _ f => if due f then f.reported else f)
    let events := (c.feeds.entries.filterMap fun e =>
      if due e.2 then some (notices e.2) else none).flatMap c.eventsOf
    (c.reportFeeds bound due notices).1 = (fed.deliver bound events).1 ∧
      (c.reportFeeds bound due notices).2.filterMap Effect.handled? =
        (fed.deliver bound events).2.filterMap Effect.handled? := by
  have hevents := eventsOf_congr
    (c.withFeeds_uri (c.feeds.map fun _ f => if due f then f.reported else f))
  simp only [reportFeeds, announceAll_fst, handled_announceAll, SortedMap.map_filter_values,
    hevents]
  exact ⟨trivial, trivial⟩

@[simp] theorem deliver_connection? (c : Client) (bound : Option DocumentId)
    (events : List Event) : (c.deliver bound events).1.connection? = c.connection? := by
  rw [deliver_fst]
  rfl

@[simp] theorem requestRegistration_connection? (c : Client) (settings : Json) :
    (c.requestRegistration settings).1.connection? = c.connection? := by
  cases hr : c.registration <;> simp [requestRegistration, connection?, hr]

theorem withFeeds_self {conn : Connection} (hc : c.connection? = some conn) :
    c.withFeeds conn.feeds = c := by
  unfold connection? at hc
  split at hc
  · rename_i conn' hreg
    cases hc
    simp only [withFeeds, hreg]
    rw [← hreg]
  · cases hc

theorem bind_eq (c : Client) (d : DocumentId) :
    let bare : Client := { c with document := some d, held := [] }
    (c.bind d).1 = (bare.reportFeeds (some d) (·.pending) Feed.snapshotNotices).1 ∧
      (c.bind d).2.filterMap Effect.handled? = c.held.map (d, ·) ++
        (bare.reportFeeds (some d) (·.pending) Feed.snapshotNotices).2.filterMap
          Effect.handled? := by
  refine ⟨rfl, ?_⟩
  have hreplay := handled_deliver { c with document := some d, held := [] } (some d) c.held
  simp only [bind, List.filterMap_append, hreplay]
  split <;> rfl

theorem bind_connection? (c : Client) (d : DocumentId) :
    (c.bind d).1.connection? = c.connection?.map fun conn =>
      { conn with feeds := conn.feeds.map fun _ f => if f.pending then f.reported else f } := by
  rw [(c.bind_eq d).1, (reportFeeds_eq ..).1, deliver_connection?, withFeeds_connection?]
  have hsame : ({ c with document := some d, held := [] } : Client).connection? = c.connection? :=
    rfl
  cases hc : c.connection? <;> simp [feeds, hsame, hc]

theorem bind_queue (c : Client) (d : DocumentId) :
    Queued (some d) (c.held ++ c.emitted .bind) ((c.bind d).2.filterMap Effect.handled?)
      (c.bind d).1.held := by
  have hreport := reportFeeds_eq { c with document := some d, held := [] } (some d) (·.pending)
    Feed.snapshotNotices
  rw [(c.bind_eq d).1, (c.bind_eq d).2, hreport.1, hreport.2, handled_deliver, deliver_fst]
  constructor
  · rw [List.map_append]
    rfl
  · exact withFeeds_held _ _

theorem emitted_update {u : LiveUpdate} {heard : Bool} {feed : Feed}
    (hf : c.feeds.get? u.name = some feed) :
    c.emitted (.update heard u) =
      (feed.report? u.name (.update heard u)).toList.flatMap c.eventsOf := by
  have hwalk := c.feeds.filterMap_entries_of_key u.name
    (fun e => e.2.report? e.1 (.update heard u))
    (fun e he => (Feed.turned_update_of_ne (Ne.symm he)).1)
  simp only [emitted, hwalk, hf, Option.bind_some]

theorem emitted_flush (name : String) :
    c.emitted (.flush name) =
      ((c.feeds.get? name).map Feed.changeNotices).toList.flatMap c.eventsOf := by
  have hwalk := c.feeds.filterMap_entries_of_key name (fun e => e.2.report? e.1 (.flush name))
    (fun e he => by simp [Feed.report?, Ne.symm he])
  simp only [emitted, hwalk]
  cases c.feeds.get? name <;> simp [Feed.report?, Feed.touched]

theorem emitted_edit (name : String) (e : Edit) : c.emitted (.edit name e) = [] := by
  simp [emitted, Feed.report?]

theorem emitted_discard (name : String) : c.emitted (.discard name) = [] := by
  simp [emitted, Feed.report?]

end Client

namespace Host

variable {h : Host} {s : Step} {k : ClientId} {c : Client} {conn : Connection}

/-- What a step makes of a registered client follows from its turn: each feed has had the turn, and
the events of the turn have joined the queue. -/
structure Turned (h : Host) (k : ClientId) (c : Client) (s : Step) (conn : Connection) :
    Prop where
  feeds : ∃ conn', (h.act c s).1.connection? = some conn' ∧ conn'.schema = conn.schema ∧
    ∀ name, conn'.feeds.get? name =
      (conn.feeds.get? name).map fun f => (h.turn? k s).elim f (f.turned name)
  queue : ((h.boundDocument c).isSome → c.held = []) →
    Client.Queued (h.destination c s) (c.held ++ (h.turn? k s).elim [] c.emitted)
      ((h.act c s).2.filterMap Effect.handled?) (h.act c s).1.held

theorem turned_of_deliver {t : Option Turn} (feeds : SortedMap String Feed) (events : List Event)
    (hconn : c.connection? = some conn) (ht : h.turn? k s = t)
    (hd : h.destination c s = (h.boundDocument c).map (·.1))
    (hconnection : (h.act c s).1.connection? = (c.withFeeds feeds).connection?)
    (hheld : (h.act c s).1.held =
      ((c.withFeeds feeds).deliver ((h.boundDocument c).map (·.1)) events).1.held)
    (hhandled : (h.act c s).2.filterMap Effect.handled? =
      ((c.withFeeds feeds).deliver ((h.boundDocument c).map (·.1)) events).2.filterMap
        Effect.handled?)
    (hfeeds : ∀ name, feeds.get? name =
      (conn.feeds.get? name).map fun f => t.elim f (f.turned name))
    (hevents : t.elim [] c.emitted = events) : Turned h k c s conn where
  feeds := by
    refine ⟨{ conn with feeds }, ?_, rfl, ?_⟩
    · rw [hconnection]
      simp [hconn]
    · rw [ht]
      exact hfeeds
  queue := by
    intro hb
    have hempty : ((h.boundDocument c).map (·.1)).isSome → (c.withFeeds feeds).held = [] := by
      simpa using hb
    have hq := Client.queued_deliver hempty events
    rw [hd, ht, hevents, hheld, hhandled]
    simpa using hq

theorem turned_idle (hconn : c.connection? = some conn) (ht : h.turn? k s = none)
    (hd : h.destination c s = (h.boundDocument c).map (·.1))
    (hconnection : (h.act c s).1.connection? = c.connection?)
    (hheld : (h.act c s).1.held = c.held)
    (hhandled : (h.act c s).2.filterMap Effect.handled? = []) : Turned h k c s conn := by
  refine turned_of_deliver conn.feeds [] hconn ht hd ?_ ?_ ?_ ?_ rfl
  · rw [hconnection, Client.withFeeds_self hconn]
  · simpa using hheld
  · simpa using hhandled
  · intro name
    simp

theorem destination_of_inbound (h : Host) (c : Client) {message : Json}
    (hi : s.inbound? = some message) :
    h.destination c s = (h.boundDocument c).map (·.1) := by
  cases s with
  | receive | receiveText => rfl
  | _ => cases hi

theorem turn?_of_inbound {message : Json} (hs : s.actor? = some k)
    (hc : h.clients.get? k = some c) (hconn : c.connection? = some conn)
    (hi : s.inbound? = some message) :
    h.turn? k s = (h.accepted? k s).bind (c.turnOf? (h.boundDocument c).isSome) := by
  cases s with
  | receive | receiveText => simp [turn?, hc, hs, hconn]
  | _ => cases hi

theorem get?_insert_turned {feeds : SortedMap String Feed} {heard : Bool} {u : LiveUpdate}
    {feed next : Feed} (hf : feeds.get? u.name = some feed)
    (hturned : feed.turned u.name (.update heard u) = next) (name : String) :
    (feeds.insert u.name next).get? name =
      (feeds.get? name).map fun f => f.turned name (.update heard u) := by
  simp only [SortedMap.get?_insert, Std.compare_eq_iff_eq]
  split
  · rename_i hname
    rw [hname, hf, Option.map_some, hturned]
  · rename_i hname
    -- Feeds of other names do not notice the update.
    have hsame : (fun f : Feed => f.turned name (.update heard u)) = id := by
      funext f
      exact (Feed.turned_update_of_ne (Ne.symm hname)).2
    rw [hsame, Option.map_id, id]

theorem turned_of_update {heard : Bool} {u : LiveUpdate} {feed next : Feed} {events : List Event}
    (hconn : c.connection? = some conn) (ht : h.turn? k s = some (.update heard u))
    (hd : h.destination c s = (h.boundDocument c).map (·.1))
    (hf : c.feeds.get? u.name = some feed)
    (hturned : feed.turned u.name (.update heard u) = next)
    (hreport : (feed.report? u.name (.update heard u)).toList.flatMap c.eventsOf = events)
    (hclient : (h.act c s).1 = ((c.withFeeds (c.feeds.insert u.name next)).deliver
      ((h.boundDocument c).map (·.1)) events).1)
    (hhandled : (h.act c s).2.filterMap Effect.handled? =
      ((c.withFeeds (c.feeds.insert u.name next)).deliver
        ((h.boundDocument c).map (·.1)) events).2.filterMap Effect.handled?) :
    Turned h k c s conn := by
  refine turned_of_deliver (c.feeds.insert u.name next) events hconn ht hd ?_ ?_ hhandled ?_ ?_
  · rw [hclient, Client.deliver_connection?]
  · rw [hclient]
  · intro name
    rw [← Client.feeds_of_connection hconn]
    exact get?_insert_turned hf hturned name
  · rw [Option.elim_some, Client.emitted_update hf, hreport]

/-- However a registered client reacts to a message, it takes the turn that the message is. -/
theorem turned_of_reacted {ids : CommandIds} {method : Method} {m : Json} {c' : Client}
    {es : List Effect} (hconn : c.connection? = some conn)
    (hturn : h.turn? k s = c.turnOf? (h.boundDocument c).isSome (method, m))
    (hd : h.destination c s = (h.boundDocument c).map (·.1)) (hclient : (h.act c s).1 = c')
    (hhandled : (h.act c s).2.filterMap Effect.handled? = es.filterMap Effect.handled?)
    (hreact : Client.Reacted c ids (h.boundDocument c) method m c' es) :
    Turned h k c s conn := by
  cases hreact with
  | answered hmethod | unawaited hmethod =>
    have ht : h.turn? k s = none := by
      rcases hmethod with rfl | rfl <;> exact hturn
    exact turned_idle hconn ht hd ((congrArg Client.connection? hclient).trans rfl)
      ((congrArg Client.held hclient).trans rfl) hhandled
  | component hmethod hes =>
    have ht : h.turn? k s = none := by
      rw [hturn]
      cases method with
      | event | liveDataUpdate | commandSuccess | commandFailure => simp at hmethod
      | _ => rfl
    exact turned_idle hconn ht hd (by rw [hclient]) (by rw [hclient]) (hhandled.trans hes.1)
  | @event e mode hmethod he hmode _ =>
    subst hmethod
    have ht : h.turn? k s =
        some (.event ⟨c.uri, e.name, e.payload, mode == .fast, e.resourceId⟩) := by
      simp [hturn, Client.turnOf?, he, hmode, Except.toOption]
    refine turned_of_deliver conn.feeds _ hconn ht hd ?_ ?_ ?_ ?_ rfl
    · rw [hclient, Client.withFeeds_self hconn, Client.deliver_connection?]
    · rw [hclient, Client.withFeeds_self hconn]
      rfl
    · rw [hhandled, Client.withFeeds_self hconn]
      rfl
    · intro name
      simp
  | @updated u feed next faults hmethod hu hf _ happ hsilent =>
    subst hmethod
    have ht : h.turn? k s = some (.update (h.boundDocument c).isSome u) := by
      simp [hturn, Client.turnOf?, hu, Except.toOption]
    obtain ⟨hreport, hturned⟩ := Feed.turned_update_of_silent happ hsilent
    have hsilence : (feed.report? u.name (.update (h.boundDocument c).isSome u)).toList.flatMap
        c.eventsOf = [] := by simp [hreport]
    refine turned_of_update hconn ht hd hf hturned hsilence ?_ ?_
    · rw [hclient, Client.deliver_nil]
    · rw [hhandled, Client.deliver_nil]
      simp [Effect.handled?, Function.comp_def]
  | @reported u feed next faults hmethod hu hf _ happ hloud =>
    subst hmethod
    have ht : h.turn? k s = some (.update (h.boundDocument c).isSome u) := by
      simp [hturn, Client.turnOf?, hu, Except.toOption]
    obtain ⟨hreport, hturned⟩ := Feed.turned_update_of_loud happ hloud
    have hevents := Client.eventsOf_congr
      (c.withFeeds_uri (c.feeds.insert u.name next.reported))
    have hspeech : (feed.report? u.name (.update (h.boundDocument c).isSome u)).toList.flatMap
        c.eventsOf = c.eventsOf next.changeNotices := by simp [hreport]
    refine turned_of_update hconn ht hd hf hturned hspeech ?_ ?_
    · rw [hclient, Client.announce_fst, hevents]
    · rw [hhandled, List.filterMap_append, Client.handled_announce, hevents]
      simp [Effect.handled?, Function.comp_def]

theorem turned_of_inbound {message : Json} (hs : s.actor? = some k)
    (hc : h.clients.get? k = some c) (hconn : c.connection? = some conn)
    (hi : s.inbound? = some message) : Turned h k c s conn := by
  obtain ⟨m, r, hh, hclient, hhandled, -, hacc⟩ := handled_of_inbound hs hc hi
  have hturn := turn?_of_inbound hs hc hconn hi
  have hd := destination_of_inbound h c hi
  rw [hacc] at hturn
  cases hh with
  | refused fault => exact turned_idle hconn hturn hd (by rw [hclient]) (by rw [hclient]) hhandled
  | unregistrable _ hnone | declined hnone | registered hnone =>
    rw [hconn] at hnone
    cases hnone
  | accepted _ hm hreact =>
    simp only [hm, Except.toOption, Option.bind_some, Option.map_some] at hturn
    exact turned_of_reacted hconn hturn hd hclient hhandled hreact

theorem turned_flush {name : String} (hconn : c.connection? = some conn)
    (ht : h.turn? k (.flush k name) = some (.flush name)) :
    Turned h k c (.flush k name) conn := by
  cases hf : c.feeds.get? name with
  | none =>
    have hfeeds := Client.feeds_of_connection hconn
    have hact : h.act c (.flush k name) = (c, [.log (.unknownFlush c.uri name)]) := by
      simp [act, Client.flush, hf]
    refine turned_of_deliver conn.feeds [] hconn ht rfl ?_ ?_ ?_ ?_ ?_
    · rw [hact, Client.withFeeds_self hconn]
    · simp [hact]
    · simp [hact, Effect.handled?]
    · intro a
      by_cases ha : name = a
      · rw [← ha, ← hfeeds, hf]
        rfl
      · simp [ha]
    · simp [Client.emitted_flush, hf]
  | some feed =>
    have hevents := Client.eventsOf_congr
      (c.withFeeds_uri (c.feeds.insert name feed.reported))
    have hact : h.act c (.flush k name) = (c.withFeeds (c.feeds.insert name feed.reported)).announce
        ((h.boundDocument c).map (·.1)) feed.changeNotices := by
      simp only [act, Client.flush, hf]
    refine turned_of_deliver (c.feeds.insert name feed.reported) (c.eventsOf feed.changeNotices)
      hconn ht rfl ?_ ?_ ?_ ?_ ?_
    · rw [hact, Client.announce_fst, Client.deliver_connection?]
    · rw [hact, Client.announce_fst, hevents]
    · rw [hact, Client.handled_announce, hevents]
    · intro a
      rw [← Client.feeds_of_connection hconn]
      by_cases ha : a = name
      · simp [ha, hf]
      · simp [ha, Ne.symm ha]
    · simp [Client.emitted_flush, hf]

theorem turned_bind {d : DocumentId} (hc : h.clients.get? k = some c)
    (hconn : c.connection? = some conn) (hdoc : h.documents.contains d) :
    Turned h k c (.bind k d) conn := by
  have ht : h.turn? k (.bind k d) = some .bind := by
    simp [turn?, hc, Step.actor?, hconn, hdoc]
  have hact : h.act c (.bind k d) = c.bind d := by simp [act, hdoc]
  have hdest : h.destination c (.bind k d) = some d := by simp [destination, hdoc]
  constructor
  · refine ⟨{ conn with feeds := conn.feeds.map fun _ f => if f.pending then f.reported else f },
      ?_, rfl, ?_⟩
    · rw [hact, Client.bind_connection?, hconn]
      rfl
    · intro name
      simp [ht]
  · intro hb
    rw [hdest, ht, hact]
    exact Client.bind_queue c d

theorem turned_of_modify {t : Turn} {name : String} {change : Feed → Feed}
    (hconn : c.connection? = some conn) (ht : h.turn? k s = some t)
    (hd : h.destination c s = (h.boundDocument c).map (·.1))
    (hact : h.act c s = (c.withFeeds (c.feeds.modify name change), []))
    (hturned : ∀ a f, f.turned a t = if name = a then change f else f)
    (hsilent : c.emitted t = []) : Turned h k c s conn := by
  refine turned_of_deliver (c.feeds.modify name change) [] hconn ht hd ?_ ?_ ?_ ?_ hsilent
  · rw [hact]
  · simp [hact]
  · simp [hact]
  · intro a
    simp [Client.feeds_of_connection hconn, hturned]

/-- Every step of a registered client is its turn. -/
theorem turned_act (hs : s.actor? = some k) (hc : h.clients.get? k = some c)
    (hconn : c.connection? = some conn) : Turned h k c s conn := by
  cases hi : s.inbound? with
  | some message => exact turned_of_inbound hs hc hconn hi
  | none =>
    cases s with
    | receive => cases hi
    | receiveText client fresh text =>
      cases hs
      have ht : h.turn? k (.receiveText k fresh text) = none := by
        simp [turn?, hc, accepted?_of_not_inbound hi]
      cases hr : readMessage text with
      | ok m => simp [Step.inbound?, hr, Except.toOption] at hi
      | error fault =>
        refine turned_idle hconn ht rfl ?_ ?_ ?_ <;>
          simp [act, Client.receiveText, hr, Effect.handled?]
    | requestRegistration client settings =>
      have ht : h.turn? k (.requestRegistration client settings) = none := by
        simp [turn?, hc, accepted?_of_not_inbound hi]
      refine turned_idle hconn ht rfl ?_ rfl ?_
      · exact c.requestRegistration_connection? settings
      · simp [act, Client.requestRegistration]
    | componentChange client component =>
      have ht : h.turn? k (.componentChange client component) = none := by
        simp [turn?, hc, accepted?_of_not_inbound hi]
      refine turned_idle hconn ht rfl rfl rfl ?_
      simp only [act]
      split <;> simp
    | disconnect client code message =>
      have ht : h.turn? k (.disconnect client code message) = none := by
        simp [turn?, hc, accepted?_of_not_inbound hi]
      exact turned_idle hconn ht rfl rfl rfl (by simp [act])
    | bind client d =>
      cases hs
      by_cases hdoc : h.documents.contains d
      · exact turned_bind hc hconn hdoc
      · refine turned_idle hconn ?_ ?_ ?_ ?_ ?_ <;>
          simp [turn?, hc, Step.actor?, hconn, hdoc, act, destination]
    | edit client name e =>
      have ht : h.turn? k (.edit client name e) = some (.edit name e) := by
        simp [turn?, hc, hs, hconn]
      exact turned_of_modify hconn ht rfl rfl (fun a f => by simp) (c.emitted_edit name e)
    | discard client name =>
      have ht : h.turn? k (.discard client name) = some (.discard name) := by
        simp [turn?, hc, hs, hconn]
      exact turned_of_modify hconn ht rfl rfl (fun a f => by simp) (c.emitted_discard name)
    | flush client name =>
      cases hs
      have ht : h.turn? k (.flush k name) = some (.flush name) := by
        simp [turn?, hc, Step.actor?, hconn]
      exact turned_flush hconn ht
    | flushAll client =>
      have ht : h.turn? k (.flushAll client) = some .flushAll := by
        simp [turn?, hc, hs, hconn]
      obtain ⟨hclient, hhandled⟩ := c.reportFeeds_eq ((h.boundDocument c).map (·.1))
        Client.hasNews Feed.changeNotices
      refine turned_of_deliver _ _ hconn ht rfl ?_ (congrArg Client.held hclient) hhandled ?_ ?_
      · exact (congrArg Client.connection? hclient).trans (Client.deliver_connection? ..)
      · intro a
        simp [Client.feeds_of_connection hconn]
      · rfl
    | _ => simp [Step.actor?] at hs

theorem turn?_of_unregistered (hc : h.clients.get? k = some c) (hconn : c.connection? = none) :
    h.turn? k s = none := by
  simp [turn?, hc, hconn]

theorem turn?_of_not_actor (hs : s.actor? ≠ some k) : h.turn? k s = none := by
  unfold turn?
  split
  · rfl
  · rw [if_neg fun hboth => hs hboth.1]

theorem turn?_of_absent (hc : h.clients.get? k = none) : h.turn? k s = none := by
  simp [turn?, hc]

theorem actor?_of_turn? {t : Turn} (ht : h.turn? k s = some t) : s.actor? = some k := by
  by_contra hs
  rw [turn?_of_not_actor hs] at ht
  cases ht

/-- Where a turn comes from: a message that the client accepts, or a step of the host. -/
inductive Caused (h : Host) (k : ClientId) (c : Client) : Step → Turn → Prop
  | event {s : Step} {m : Json} (e : Event) (ha : h.accepted? k s = some (.event, m)) :
      Caused h k c s (.event e)
  | update {s : Step} {m : Json} {u : LiveUpdate} (ha : h.accepted? k s = some (.liveDataUpdate, m))
      (hu : LiveUpdate.decode m = .ok u) :
      Caused h k c s (.update (h.boundDocument c).isSome u)
  | bind (d : DocumentId) : Caused h k c (.bind k d) .bind
  | edit (name : String) (e : Edit) : Caused h k c (.edit k name e) (.edit name e)
  | discard (name : String) : Caused h k c (.discard k name) (.discard name)
  | flush (name : String) : Caused h k c (.flush k name) (.flush name)
  | flushAll : Caused h k c (.flushAll k) .flushAll

theorem caused_of_turnOf? {t : Turn} {m : Method × Json} (ha : h.accepted? k s = some m)
    (ht : c.turnOf? (h.boundDocument c).isSome m = some t) : Caused h k c s t := by
  unfold Client.turnOf? at ht
  split at ht
  · obtain ⟨e, -, ht⟩ := Option.bind_eq_some_iff.1 ht
    obtain ⟨mode, -, rfl⟩ := Option.map_eq_some_iff.1 ht
    exact .event _ ha
  · rename_i message
    obtain ⟨u, hu, rfl⟩ := Option.map_eq_some_iff.1 ht
    cases hd : LiveUpdate.decode message with
    | error fault => simp [hd, Except.toOption] at hu
    | ok u' =>
      obtain rfl : u' = u := by simpa [hd, Except.toOption] using hu
      exact .update ha hd
  · cases ht

theorem caused_of_turn? {t : Turn} (hc : h.clients.get? k = some c)
    (ht : h.turn? k s = some t) : Caused h k c s t := by
  have hs := actor?_of_turn? ht
  unfold turn? at ht
  rw [hc] at ht
  dsimp only at ht
  split at ht
  · split at ht
    · split at ht <;> cases ht
      cases hs
      exact .bind _
    · cases ht
      cases hs
      exact .edit ..
    · cases ht
      cases hs
      exact .discard _
    · cases ht
      cases hs
      exact .flush _
    · cases ht
      cases hs
      exact .flushAll
    · obtain ⟨m, ha, ht⟩ := Option.bind_eq_some_iff.1 ht
      exact caused_of_turnOf? ha ht
  · cases ht

theorem turn?_eq_discard {name : String} (hc : h.clients.get? k = some c)
    (ht : h.turn? k s = some (.discard name)) : s = .discard k name := by
  cases caused_of_turn? hc ht
  rfl

theorem turn?_eq_update {heard : Bool} {u : LiveUpdate} (hc : h.clients.get? k = some c)
    (ht : h.turn? k s = some (.update heard u)) : heard = (h.boundDocument c).isSome := by
  cases caused_of_turn? hc ht
  rfl

theorem reacted_of_accepted {method : Method} {m : Json}
    (ha : h.accepted? k s = some (method, m)) :
    ∃ c, h.clients.get? k = some c ∧
      (c.connection? = none ∧ (method = .registerSuccess ∨ method = .registerFailure) ∨
        ∃ conn c' es, c.connection? = some conn ∧
          h.turn? k s = c.turnOf? (h.boundDocument c).isSome (method, m) ∧
          Client.Reacted c (h.servicesOf c).commandIds (h.boundDocument c) method m c' es) := by
  obtain ⟨hs, c, hc⟩ := actor?_of_accepted? ha
  refine ⟨c, hc, ?_⟩
  cases hi : s.inbound? with
  | none =>
    rw [accepted?_of_not_inbound hi] at ha
    cases ha
  | some message =>
    obtain ⟨m', r, hh, -, -, -, hacc⟩ := handled_of_inbound hs hc hi
    have hsome := hacc.symm.trans ha
    cases hh with
    | refused | unregistrable => cases hsome
    | declined hnone hm | registered hnone hm =>
      simp only [hm, Except.toOption, Option.bind_some, Option.map_some, Option.some.injEq,
        Prod.mk.injEq] at hsome
      simp [hnone, ← hsome.1]
    | accepted hconn hm hreact =>
      have hturn := turn?_of_inbound hs hc hconn hi
      rw [ha, Option.bind_some] at hturn
      simp only [hm, Except.toOption, Option.bind_some, Option.map_some, Option.some.injEq,
        Prod.mk.injEq] at hsome
      obtain ⟨rfl, rfl⟩ := hsome
      exact .inr ⟨_, _, _, hconn, hturn, hreact⟩

theorem turn?_of_accepted_event {m : Json} (ha : h.accepted? k s = some (.event, m)) :
    ∃ c e mode, h.clients.get? k = some c ∧ EventMessage.decode m = .ok e ∧
      c.schema.eventMode? e.name = some mode ∧
      h.turn? k s = some (.event ⟨c.uri, e.name, e.payload, mode == .fast, e.resourceId⟩) := by
  obtain ⟨c, hc, ⟨-, hmethod⟩ | ⟨conn, c', es, -, hturn, hreact⟩⟩ := reacted_of_accepted ha
  · simp at hmethod
  · cases hreact with
    | event _ he hmode _ =>
      refine ⟨c, _, _, hc, he, hmode, ?_⟩
      simp [hturn, Client.turnOf?, he, hmode, Except.toOption]
    | answered hmethod | unawaited hmethod => simp at hmethod
    | updated hmethod | reported hmethod => cases hmethod
    | component hmethod => exact (hmethod.1 rfl).elim

theorem turn?_of_accepted_update {m : Json} (ha : h.accepted? k s = some (.liveDataUpdate, m)) :
    ∃ c u, h.clients.get? k = some c ∧ LiveUpdate.decode m = .ok u ∧
      h.turn? k s = some (.update (h.boundDocument c).isSome u) := by
  obtain ⟨c, hc, ⟨-, hmethod⟩ | ⟨conn, c', es, -, hturn, hreact⟩⟩ := reacted_of_accepted ha
  · simp at hmethod
  · cases hreact with
    | updated _ hu | reported _ hu =>
      refine ⟨c, _, hc, hu, ?_⟩
      simp [hturn, Client.turnOf?, hu, Except.toOption]
    | answered hmethod | unawaited hmethod => simp at hmethod
    | event hmethod => cases hmethod
    | component hmethod => exact (hmethod.2.1 rfl).elim

end Host

end ExtensionHost
