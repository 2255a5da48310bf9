import Mathlib.Data.List.Basic
import ExtensionHost.Proofs.Reporting

namespace ExtensionHost

def Effect.asked? : Effect → Option (DocumentId × DocumentCall)
  | .call d request => some (d, request)
  | _ => none

def documentCalls (es : List Effect) : List (DocumentId × DocumentCall) :=
  es.filterMap Effect.asked?

theorem documentCalls_of_deliveries {es : List Effect} (h : ∀ e ∈ es, e.isDelivery) :
    documentCalls es = (es.filterMap Effect.handled?).map fun p => (p.1, .handle p.2) := by
  rw [documentCalls, List.map_filterMap]
  refine List.filterMap_congr fun e he => ?_
  have hd := h e he
  cases e with
  | log => rfl
  | resolve => cases hd
  | call d request =>
    cases request with
    | handle => rfl
    | fail | setCalculated => cases hd

namespace Notice

theorem get?_payload_current (n : Notice) : n.payload.get? "current" = some n.current := by
  have hother : compare "current" "changed" ≠ .eq := by decide
  cases hchanged : n.changed <;> simp [payload, hchanged, hother]

end Notice

namespace Feed

theorem current_of_mem_mapNotices {f : Feed} {contents : Object} {changes : List MapChange}
    {n : Notice} (hn : n ∈ f.mapNotices contents changes) : n.current = .ofObject contents := by
  simp only [mapNotices, List.mem_append, List.mem_filterMap, List.mem_ite_nil_left,
    List.mem_singleton] at hn
  rcases hn with (⟨c, -, hc⟩ | ⟨-, rfl⟩) | ⟨-, rfl⟩
  · split at hc
    · cases hc
      rfl
    · cases hc
  · rfl
  · rfl

theorem current_of_mem_arrayNotices {f : Feed} {items : List Json} {changes : List ArrayChange}
    {n : Notice} (hn : n ∈ f.arrayNotices items changes) : n.current = .array items := by
  simp only [arrayNotices, List.mem_append, List.mem_ite_nil_right, List.mem_singleton] at hn
  rcases hn with (⟨-, rfl⟩ | ⟨-, rfl⟩) | ⟨-, rfl⟩ <;> rfl

theorem current_of_mem_snapshotNotices {f : Feed} {n : Notice} (hn : n ∈ f.snapshotNotices) :
    n.current = f.replica.snapshot := by
  unfold snapshotNotices at hn
  split at hn
  · rename_i a ha
    rw [current_of_mem_arrayNotices hn, ha]
    rfl
  · rename_i m hm
    rw [current_of_mem_mapNotices hn, hm]
    rfl

/-- What becomes of live data when its client is bound to a document. -/
structure CaughtUp (f f' : Feed) : Prop where
  contents : f'.replica.snapshot = f.replica.snapshot
  pending : f'.pending = false
  log : f.pending = true → f'.replica.hasChanges = false
  same : f.pending = false → f' = f

theorem caughtUp_bind (f : Feed) : CaughtUp f (if f.pending then f.reported else f) := by
  cases hp : f.pending with
  | false => exact ⟨rfl, hp, fun h => absurd (hp.symm.trans h) (by decide), fun _ => rfl⟩
  | true =>
    exact ⟨f.replica.snapshot_forgetChanges, rfl, fun _ => f.replica.hasChanges_forgetChanges,
      fun h => absurd (hp.symm.trans h) (by decide)⟩

end Feed

namespace Client

variable {c : Client} {d : DocumentId}

theorem bind_isDelivery (c : Client) (d : DocumentId) : ∀ e ∈ (c.bind d).2, e.isDelivery := by
  intro e he
  simp only [bind, List.mem_append] at he
  rcases he with (he | he) | he
  · split at he
    · cases he
    · obtain rfl := List.mem_singleton.1 he
      rfl
  · exact deliver_isDelivery _ _ _ e he
  · exact announceAll_isDelivery _ _ _ e he

/-- The feeds that binding reports, by name: those with inbound changes. -/
def dueFeeds (c : Client) : List (String × Feed) := c.feeds.entries.filter (·.2.pending)

theorem mem_dueFeeds {name : String} {f : Feed} :
    (name, f) ∈ c.dueFeeds ↔ c.feeds.get? name = some f ∧ f.pending = true := by
  rw [dueFeeds, List.mem_filter, SortedMap.get?_eq_some_iff_mem]

theorem sorted_dueFeeds (c : Client) : c.dueFeeds.Pairwise fun a b => a.1 < b.1 :=
  (c.feeds.sorted.filter _).imp compareOfLessAndEq_eq_lt.1

theorem emitted_bind (c : Client) :
    c.emitted .bind = c.dueFeeds.flatMap fun e => c.eventsOf e.2.snapshotNotices := by
  simp only [emitted, dueFeeds]
  induction c.feeds.entries with
  | nil => rfl
  | cons e rest ih =>
    cases hp : e.2.pending <;> simpa [Feed.report?, Feed.touched, hp] using ih

theorem of_mem_eventsOf_notices {notices : List Notice} {contents : Json} {e : Event}
    (hnotices : ∀ n ∈ notices, n.current = contents) (he : e ∈ c.eventsOf notices) :
    e.uri = c.uri ∧ e.fast = true ∧ e.resourceId = none ∧
      e.payload.get? "current" = some contents := by
  obtain ⟨n, hn, hevent⟩ := List.mem_filterMap.1 he
  obtain ⟨handler, -, rfl⟩ := Option.map_eq_some_iff.1 hevent
  refine ⟨rfl, rfl, rfl, ?_⟩
  rw [n.get?_payload_current, hnotices n hn]

theorem of_mem_eventsOf {f : Feed} {e : Event} (he : e ∈ c.eventsOf f.snapshotNotices) :
    e.uri = c.uri ∧ e.fast = true ∧ e.resourceId = none ∧
      e.payload.get? "current" = some f.replica.snapshot :=
  of_mem_eventsOf_notices (fun _ => Feed.current_of_mem_snapshotNotices) he

theorem feeds_bind (c : Client) (d : DocumentId) :
    (c.bind d).1.feeds = c.feeds.map fun _ f => if f.pending then f.reported else f := by
  have hconn := c.bind_connection? d
  cases h : c.connection? with
  | none =>
    rw [h] at hconn
    rw [feeds_of_unregistered hconn, feeds_of_unregistered h]
    rfl
  | some conn => simp [feeds, hconn, h]

end Client

namespace Host

variable {h : Host} {k : ClientId} {c : Client} {d : DocumentId}

/-- Binding asks of the new document exactly this, and nothing of any other: to handle what has been
held, in the order in which it came, and then, for each live data with inbound changes, by name, the
events that show its contents. After that nothing is held and nothing is pending, and live data that
has been reported has an empty log. The contents of live data stay, and so does all that live data
without inbound changes has. -/
theorem bind_replays (hc : h.clients.get? k = some c) (hd : h.documents.contains d) :
    (∃ due : List (String × Feed), (due.Pairwise fun a b => a.1 < b.1) ∧
      (∀ name f, (name, f) ∈ due ↔ c.feeds.get? name = some f ∧ f.pending = true) ∧
      documentCalls (h.perform (.bind k d)).effects =
        (c.held ++ due.flatMap fun e => c.eventsOf e.2.snapshotNotices).map (fun event =>
          (d, .handle event)) ∧
      ∀ e ∈ due, ∀ event ∈ c.eventsOf e.2.snapshotNotices,
        event.uri = c.uri ∧ event.fast = true ∧ event.resourceId = none ∧
          event.payload.get? "current" = some e.2.replica.snapshot) ∧
    ∃ c', (h.perform (.bind k d)).host.clients.get? k = some c' ∧ c'.document = some d ∧
      c'.held = [] ∧
      (∀ name, (c'.feeds.get? name).isSome = (c.feeds.get? name).isSome) ∧
      ∀ name f f', c.feeds.get? name = some f → c'.feeds.get? name = some f' →
        f.CaughtUp f' := by
  have hact : h.act c (.bind k d) = c.bind d := if_pos hd
  obtain ⟨hhandled, hheld⟩ := c.bind_queue d
  constructor
  · refine ⟨c.dueFeeds, c.sorted_dueFeeds, fun _ _ => Client.mem_dueFeeds, ?_,
      fun _ _ _ => Client.of_mem_eventsOf⟩
    rw [(acted_perform rfl hc).2, hact, documentCalls_of_deliveries (c.bind_isDelivery d), hhandled,
      Client.emitted_bind, List.map_map]
    rfl
  · have hfeeds : ∀ name, (c.bind d).1.feeds.get? name =
        (c.feeds.get? name).map fun f => if f.pending then f.reported else f := by
      intro name
      rw [Client.feeds_bind, SortedMap.get?_map]
    refine ⟨_, (get?_perform_of_actor rfl hc).trans (congrArg (some ·.1) hact), ?_, hheld,
      fun name => ?_, fun name f f' hf hf' => ?_⟩
    · simp only [Client.bind, (reportFeeds_frame ..).1, Client.deliver_fst]
    · rw [hfeeds, Option.isSome_map]
    · rw [hfeeds, hf] at hf'
      cases hf'
      exact f.caughtUp_bind

/-- An update and an event arrive before there is a document. -/
def early : List Step :=
  let tagged := messageOf .liveDataUpdate [("name", .string "tags"), ("target", .string "notes"),
    ("operations", .array [.object [("type", .string "Insert"), ("index", .number .zero),
      ("item", .string "urgent")]])]
  let opened := messageOf .event [("name", .string "opened"), ("target", .string "notes")]
  [.createServices (.startingAt 1000) (.startingAt 1), .createClient "notes" .standard 0,
    .receive 1 "" notesConsent, .receive 1 "" tagged, .receive 1 "" opened,
    .openDocument blankPage]

theorem bind_replays_early : ∃ c f c' f', (start.after early).clients.get? 1 = some c ∧
    (start.after early).documents.contains 2 ∧ c.held.length = 1 ∧
    c.feeds.get? "tags" = some f ∧ f.pending = true ∧
    ((start.after early).perform (.bind 1 2)).host.clients.get? 1 = some c' ∧ c'.held = [] ∧
    c'.feeds.get? "tags" = some f' ∧ f.CaughtUp f' ∧
    (documentCalls ((start.after early).perform (.bind 1 2)).effects).length = 2 := by
  have hclient : ∃ c f, (start.after early).clients.get? 1 = some c ∧ c.held.length = 1 ∧
      c.feeds.get? "tags" = some f ∧ f.pending = true :=
    ⟨_, _, rfl, by decide +kernel, rfl, by decide +kernel⟩
  obtain ⟨c, f, hc, hheld, hf, hp⟩ := hclient
  have hd : (start.after early).documents.contains 2 := by decide +kernel
  obtain ⟨-, c', hc', -, hheld', hsome, hcaught⟩ := bind_replays hc hd
  have hname := hsome "tags"
  rw [hf, Option.isSome_some] at hname
  obtain ⟨f', hf'⟩ := Option.isSome_iff_exists.1 hname
  exact ⟨c, f, c', f', hc, hd, hheld, hf, hp, hc', hheld', hf', hcaught _ f f' hf hf',
    by decide +kernel⟩

end Host

end ExtensionHost
