import Mathlib.Data.List.Forall2
import ExtensionHost.Proofs.Registered

namespace ExtensionHost

theorem SortedMap.values_filterMap_map {κ ν μ : Type} [Ord κ] (m : SortedMap κ ν)
    (f : κ → ν → Option μ) :
    ((m.map f).filterMap id).values = m.entries.filterMap fun e => f e.1 e.2 := by
  simp only [values, filterMap, map, List.filterMap_map, List.map_filterMap]
  congr 1
  funext e
  cases he : f e.1 e.2 <;> simp [he]

theorem Client.eventsOf_flatten (c : Client) (l : List (List Notice)) :
    c.eventsOf l.flatten = l.flatMap c.eventsOf := by
  rw [eventsOf, List.filterMap_flatten]
  rfl

/-- The event by which the handler of a notice is told: in the name of the extension and in fast
mode, with all contents and, if keys have changed, with these. -/
structure Tells (uri : String) (n : Notice) (e : Event) : Prop where
  uri : e.uri = uri
  handler : n.handler = some e.name
  fast : e.fast = true
  resourceId : e.resourceId = none
  current : e.payload.get? "current" = some n.current
  changed : e.payload.get? "changed" = n.changed.map .ofObject
  nothingElse : ∀ field, field ≠ "current" → field ≠ "changed" → e.payload.get? field = none

/-- One event for each notice that has a handler, in the same order. -/
def Told (uri : String) (notices : List Notice) (events : List Event) : Prop :=
  List.Forall₂ (Tells uri) (notices.filter (·.handler.isSome)) events

theorem tells_of_event? {uri : String} {n : Notice} {e : Event} (he : n.event? uri = some e) :
    Tells uri n e := by
  obtain ⟨handler, hhandler, rfl⟩ := Option.map_eq_some_iff.1 he
  refine ⟨rfl, hhandler, rfl, rfl, ?_, ?_, fun field hcurrent hchanged => ?_⟩
  · cases hc : n.changed <;> simp [Notice.payload, hc]
  · cases hc : n.changed <;> simp [Notice.payload, hc]
  · cases hc : n.changed <;> simp [Notice.payload, hc, hcurrent, hchanged]

theorem told_eventsOf (c : Client) (notices : List Notice) :
    Told c.uri notices (c.eventsOf notices) := by
  unfold Told Client.eventsOf
  induction notices with
  | nil => exact .nil
  | cons n rest ih =>
    cases he : n.event? c.uri with
    | none =>
      have hnone : n.handler = none := Option.map_eq_none_iff.1 he
      simpa [he, hnone] using ih
    | some e =>
      have htells := tells_of_event? he
      simpa [he, htells.handler] using List.Forall₂.cons htells ih

namespace Host

variable {h : Host} {s : Step} {k : ClientId} {c : Client} {hist : List (Host × Step)}

/-- The events that client `k` hands over to documents in a step. -/
def deliveries (k : ClientId) (e : Host × Step) : List (DocumentId × Event) :=
  if e.2.actor? = some k then (e.1.perform e.2).effects.filterMap Effect.handled? else []

def emissions (k : ClientId) (e : Host × Step) : List Event :=
  match e.1.clients.get? k with
  | some c => (e.1.turn? k e.2).elim [] c.emitted
  | none => []

/-- A document is bound to client `k` and has not been dropped. -/
def BoundTo (h : Host) (k : ClientId) (d : DocumentId) : Prop :=
  ∃ c x, h.clients.get? k = some c ∧ h.boundDocument c = some (d, x)

theorem deliveries_of_absent {e : Host × Step} (hc : e.1.clients.get? k = none) :
    deliveries k e = [] := by
  unfold deliveries
  split
  · rename_i hs
    simp [(perform_of_absent hs hc).2]
  · rfl

theorem emissions_of_absent {e : Host × Step} (hc : e.1.clients.get? k = none) :
    emissions k e = [] := by
  simp [emissions, hc]

theorem deliveries_of_not_actor (hs : s.actor? ≠ some k) : deliveries k (h, s) = [] := by
  simp [deliveries, hs]

theorem emissions_of_not_actor (hs : s.actor? ≠ some k) : emissions k (h, s) = [] := by
  unfold emissions
  split
  · simp [turn?_of_not_actor hs]
  · rfl

/-- What a step does to the queue of events of the client that acts: what was held and what arises
is handed over to the document that is bound, or is held if there is none. -/
theorem queued_perform (hs : s.actor? = some k) (hc : h.clients.get? k = some c)
    (hb : (h.boundDocument c).isSome → c.held = []) {c' : Client}
    (hc' : (h.perform s).host.clients.get? k = some c') :
    Client.Queued (((h.perform s).host.boundDocument c').map (·.1))
      (c.held ++ emissions k (h, s)) (deliveries k (h, s)) c'.held := by
  have heffects := (acted_perform hs hc).2
  have hclient := act_of_perform hs hc hc'
  have hq := queued_act hs hc hb
  rw [← boundDocument_act hs hc, hclient] at hq
  simpa [emissions, hc, deliveries, hs, heffects] using hq

structure Conserved (k : ClientId) (hist : List (Host × Step)) (h : Host) (c : Client) : Prop where
  total : (hist.flatMap (deliveries k)).map (·.2) ++ c.held = hist.flatMap (emissions k)
  empty : (h.boundDocument c).isSome → c.held = []
  places : ∀ e ∈ hist, ∀ p ∈ deliveries k e, BoundTo (e.1.perform e.2).host k p.1

theorem conserved_create (hnone : ∀ e ∈ hist, e.1.clients.get? k = none) (uri : String)
    (config : Config) (services : ServicesId) :
    Conserved k hist h (.create uri config services) where
  total := by
    have hdeliveries : hist.flatMap (deliveries k) = [] :=
      List.flatMap_eq_nil_iff.2 fun e he => deliveries_of_absent (hnone e he)
    have hemissions : hist.flatMap (emissions k) = [] :=
      List.flatMap_eq_nil_iff.2 fun e he => emissions_of_absent (hnone e he)
    rw [hdeliveries, hemissions]
    rfl
  empty _ := rfl
  places e he p hp := by
    rw [deliveries_of_absent (hnone e he)] at hp
    cases hp

theorem conserved_actor (hs : s.actor? = some k) (hc : h.clients.get? k = some c) {c' : Client}
    (hc' : (h.perform s).host.clients.get? k = some c') (hi : Conserved k hist h c) :
    Conserved k (hist ++ [(h, s)]) (h.perform s).host c' := by
  have hq := queued_perform hs hc hi.empty hc'
  cases hb : (h.perform s).host.boundDocument c' with
  | none =>
    -- All that is there is held, and nothing is handed over.
    rw [hb] at hq
    obtain ⟨hhandled, hheld⟩ := hq
    refine ⟨?_, by simp [hb], fun e he p hp => ?_⟩
    · simp [hhandled, hheld, ← hi.total]
    · rcases List.mem_append.1 he with he | he
      · exact hi.places e he p hp
      · obtain rfl := List.mem_singleton.1 he
        rw [hhandled] at hp
        cases hp
  | some b =>
    -- All that is there is handed over to the document that is bound now.
    rw [hb] at hq
    obtain ⟨hhandled, hheld⟩ := hq
    refine ⟨?_, fun _ => hheld, fun e he p hp => ?_⟩
    · simp [hhandled, hheld, ← hi.total, Function.comp_def]
    · rcases List.mem_append.1 he with he | he
      · exact hi.places e he p hp
      · obtain rfl := List.mem_singleton.1 he
        rw [hhandled] at hp
        obtain ⟨event, -, rfl⟩ := List.mem_map.1 hp
        exact ⟨c', b.2, hc', hb⟩

theorem conserved_other (hn : h.Numbered) (hs : s.actor? ≠ some k)
    (hc : h.clients.get? k = some c) {c' : Client}
    (hc' : (h.perform s).host.clients.get? k = some c') (hi : Conserved k hist h c) :
    Conserved k (hist ++ [(h, s)]) (h.perform s).host c' := by
  obtain ⟨p, rfl⟩ := get?_perform_of_idle hn hs hc hc'
  refine ⟨?_, fun hb => hi.empty (bound_of_perform hn hc rfl hb), fun e he p hp => ?_⟩
  · simp [deliveries_of_not_actor hs, emissions_of_not_actor hs, hi.total]
  · rcases List.mem_append.1 he with he | he
    · exact hi.places e he p hp
    · obtain rfl := List.mem_singleton.1 he
      rw [deliveries_of_not_actor hs] at hp
      cases hp

/-- The events that arise for client `k` in a step: the one that the extension raises by a message
that is accepted, or else those that tell of what is reported about live data, in the order of its
names. -/
inductive Arises (k : ClientId) (e : Host × Step) : List Event → Prop
  | raised {c : Client} {m : Json} {event : Event} (hc : e.1.clients.get? k = some c)
      (ha : e.1.accepted? k e.2 = some (.event, m))
      (hraised : RaisedEvent m c.uri c.schema event) : Arises k e [event]
  | reported {c : Client} {reports : SortedMap String (List Notice)} {events : List Event}
      (hc : e.1.clients.get? k = some c) (ha : ∀ m, e.1.accepted? k e.2 ≠ some (.event, m))
      (hreports : ∀ name, reports.get? name = report? k name e)
      (htold : Told c.uri reports.values.flatten events) : Arises k e events
  | absent (hc : e.1.clients.get? k = none) : Arises k e []

theorem told_emitted {t : Turn} (hc : h.clients.get? k = some c) (ht : h.turn? k s = some t)
    (hno : ∀ e, t ≠ .event e) : ∃ reports : SortedMap String (List Notice),
      (∀ name, reports.get? name = report? k name (h, s)) ∧
        Told c.uri reports.values.flatten (c.emitted t) := by
  refine ⟨(c.feeds.map fun name f => f.report? name t).filterMap id, fun name => ?_, ?_⟩
  · rw [SortedMap.get?_filterMap, SortedMap.get?_map]
    cases hf : c.feeds.get? name <;> simp [report?, hc, hf, ht]
  · have hemitted : c.emitted t =
        (c.feeds.entries.filterMap fun e => e.2.report? e.1 t).flatMap c.eventsOf := by
      cases t with
      | event e => exact (hno e rfl).elim
      | _ => rfl
    rw [hemitted, SortedMap.values_filterMap_map, ← Client.eventsOf_flatten]
    exact told_eventsOf c _

theorem arises_emissions (e : Host × Step) : Arises k e (emissions k e) := by
  obtain ⟨h, s⟩ := e
  cases hc : h.clients.get? k with
  | none =>
    rw [emissions_of_absent hc]
    exact .absent hc
  | some c =>
    by_cases hevent : ∃ m, h.accepted? k s = some (.event, m)
    · obtain ⟨m, ha⟩ := hevent
      obtain ⟨c', raised, mode, hc', hraised, hmode, ht⟩ := turn?_of_accepted_event ha
      obtain rfl : c = c' := Option.some.inj (hc.symm.trans hc')
      have hone : emissions k (h, s) =
          [⟨c.uri, raised.name, raised.payload, mode == .fast, raised.resourceId⟩] := by
        simp [emissions, hc, ht, Client.emitted]
      rw [hone]
      exact .raised hc ha (raisedEvent_of_decode hraised c.uri hmode)
    · have hno : ∀ m, h.accepted? k s ≠ some (.event, m) := fun m ha => hevent ⟨m, ha⟩
      cases ht : h.turn? k s with
      | none =>
        have hsilent : emissions k (h, s) = [] := by simp [emissions, hc, ht]
        rw [hsilent]
        have hreports : ∀ name, (.empty : SortedMap String (List Notice)).get? name =
            report? k name (h, s) := by simp [report?, ht]
        exact .reported hc hno hreports .nil
      | some t =>
        have htold : emissions k (h, s) = c.emitted t := by simp [emissions, hc, ht]
        obtain ⟨reports, hreports, hevents⟩ := told_emitted hc ht fun e he => by
          cases caused_of_turn? hc (he ▸ ht) with
          | event _ ha => exact hno _ ha
        rw [htold]
        exact .reported hc hno hreports hevents

/-- Along every run, what a client has handed over to documents and what it holds, in this order,
are exactly the events that have arisen: one for each event that it has accepted, and those that
report live data. It holds nothing while its document exists, and what it hands over goes to the
document that is bound at that time. -/
theorem events_conserved (steps : List Step) (hc : (start.after steps).clients.get? k = some c) :
    (∃ arisen, List.Forall₂ (Arises k) (start.history steps) arisen ∧
      ((start.history steps).flatMap (deliveries k)).map (·.2) ++ c.held = arisen.flatten) ∧
    (((start.after steps).boundDocument c).isSome → c.held = []) ∧
    ∀ e ∈ start.history steps, ∀ p ∈ deliveries k e, BoundTo (e.1.perform e.2).host k p.1 := by
  have hi : Conserved k (start.history steps) (start.after steps) c := by
    refine client_induction k (fun hist h uri config services hnone => ?_)
      (fun hist h s c c' hn hc hc' hi => ?_) steps hc
    · exact conserved_create hnone uri config services
    · by_cases hs : s.actor? = some k
      · exact conserved_actor hs hc hc' hi
      · exact conserved_other hn hs hc hc' hi
  refine ⟨⟨(start.history steps).map (emissions k), ?_, hi.total⟩, hi.empty, hi.places⟩
  exact List.forall₂_map_right_iff.2 (List.forall₂_same.2 fun e _ => arises_emissions e)

/-- An event and a tag arrive before a document is bound, and another event and another tag after
that. The last event comes when the document has been dropped. -/
def session : List Step :=
  let opened := messageOf .event [("name", .string "opened"), ("target", .string "notes")]
  [.createServices (.startingAt 1000) (.startingAt 1), .createClient "notes" .standard 0,
    .receive 1 "" notesConsent, .receive 1 "" opened,
    .receive 1 "" (tagUpdate [tagInsertion "urgent"]), .openDocument blankPage, .bind 1 2,
    .receive 1 "" opened, .receive 1 "" (tagUpdate [tagInsertion "late"]),
    .dropDocument 2, .receive 1 "" opened]

def openedEvent : Event := ⟨"notes", "opened", .empty, true, none⟩

def taggedEvent (tags : List String) : Event :=
  ⟨"notes", "tagged", .ofList [("current", .array (tags.map .string))], true, none⟩

/-- What was held is handed over in the order of arrival, the rest at once, and the last event is
held. All of it has arisen. -/
theorem events_conserved_session : ∃ c, (start.after session).clients.get? 1 = some c ∧
    c.held = [openedEvent] ∧
    (start.history session).flatMap (deliveries 1) = [(2, openedEvent), (2, taggedEvent ["urgent"]),
      (2, openedEvent), (2, taggedEvent ["late", "urgent"])] ∧
    ∃ arisen, List.Forall₂ (Arises 1) (start.history session) arisen ∧
      arisen.flatten = [openedEvent, taggedEvent ["urgent"], openedEvent,
        taggedEvent ["late", "urgent"], openedEvent] := by
  have hclient : ∃ c, (start.after session).clients.get? 1 = some c ∧ c.held = [openedEvent] :=
    ⟨_, rfl, by decide +kernel⟩
  obtain ⟨c, hc, hheld⟩ := hclient
  have hdelivered : (start.history session).flatMap (deliveries 1) = [(2, openedEvent),
      (2, taggedEvent ["urgent"]), (2, openedEvent), (2, taggedEvent ["late", "urgent"])] := by
    decide +kernel
  obtain ⟨⟨arisen, harises, htotal⟩, -⟩ := events_conserved session hc
  rw [hdelivered, hheld] at htotal
  exact ⟨c, hc, hheld, hdelivered, arisen, harises, htotal.symm⟩

end Host

end ExtensionHost
