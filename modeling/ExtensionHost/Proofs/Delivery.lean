import ExtensionHost.Proofs.Frame

namespace ExtensionHost

def Effect.isDelivery : Effect → Bool
  | .log _ | .call _ (.handle _) => true
  | _ => false

theorem Effect.isDelivery_of_isLog {e : Effect} (h : e.isLog) : e.isDelivery := by
  cases e with
  | log => rfl
  | call | resolve => cases h

theorem resolutions_of_deliveries {es : List Effect} (h : ∀ e ∈ es, e.isDelivery) :
    es.filterMap Effect.resolution? = [] := by
  refine List.filterMap_eq_nil_iff.2 fun e he => ?_
  have hd := h e he
  cases e with
  | log | call => rfl
  | resolve => cases hd

namespace Client

theorem deliver_isDelivery (c : Client) (bound : Option DocumentId) (events : List Event) :
    ∀ e ∈ (c.deliver bound events).2, e.isDelivery := by
  cases bound <;> simp [deliver, Effect.isDelivery]

theorem handled_deliver (c : Client) (bound : Option DocumentId) (events : List Event) :
    (c.deliver bound events).2.filterMap Effect.handled? =
      match bound with
      | some d => events.map (d, ·)
      | none => [] := by
  cases bound with
  | none =>
    apply handled_of_logs
    simp [deliver, Effect.isLog]
  | some d =>
    induction events with
    | nil => rfl
    | cons e rest ih => exact congrArg _ ih

@[simp] theorem resolutions_deliver (c : Client) (bound : Option DocumentId)
    (events : List Event) :
    (c.deliver bound events).2.filterMap Effect.resolution? = [] :=
  resolutions_of_deliveries (c.deliver_isDelivery bound events)

theorem announce_effects (c : Client) (bound : Option DocumentId) (notices : List Notice) :
    ∃ dropped : List Effect, (∀ e ∈ dropped, e.isLog) ∧
      (c.announce bound notices).2 = dropped ++ (c.deliver bound (c.eventsOf notices)).2 := by
  refine ⟨_, fun e he => ?_, rfl⟩
  obtain ⟨notice, -, rfl⟩ := List.mem_map.1 he
  rfl

theorem announce_isDelivery (c : Client) (bound : Option DocumentId) (notices : List Notice) :
    ∀ e ∈ (c.announce bound notices).2, e.isDelivery := by
  obtain ⟨dropped, hlog, heffects⟩ := c.announce_effects bound notices
  intro e he
  rcases List.mem_append.1 (heffects ▸ he) with he | he
  · exact Effect.isDelivery_of_isLog (hlog e he)
  · exact c.deliver_isDelivery _ _ e he

theorem announceAll_isDelivery (c : Client) (bound : Option DocumentId)
    (l : List (List Notice)) : ∀ e ∈ (c.announceAll bound l).2, e.isDelivery := by
  induction l generalizing c with
  | nil => simp [announceAll]
  | cons notices rest ih =>
    intro e he
    rcases List.mem_append.1 he with he | he
    · exact c.announce_isDelivery _ _ e he
    · exact ih _ e he

@[simp] theorem handled_announce (c : Client) (bound : Option DocumentId)
    (notices : List Notice) :
    (c.announce bound notices).2.filterMap Effect.handled? =
      (c.deliver bound (c.eventsOf notices)).2.filterMap Effect.handled? := by
  obtain ⟨dropped, hlog, he⟩ := c.announce_effects bound notices
  simp [he, handled_of_logs hlog]

@[simp] theorem resolutions_announce (c : Client) (bound : Option DocumentId)
    (notices : List Notice) :
    (c.announce bound notices).2.filterMap Effect.resolution? = [] :=
  resolutions_of_deliveries (c.announce_isDelivery bound notices)

theorem handled_announceAll (c : Client) (bound : Option DocumentId) (l : List (List Notice)) :
    (c.announceAll bound l).2.filterMap Effect.handled? =
      (c.deliver bound (l.flatMap c.eventsOf)).2.filterMap Effect.handled? := by
  induction l generalizing c with
  | nil => simp [announceAll]
  | cons notices rest ih =>
    have hrest := ih (c.announce bound notices).1
    rw [eventsOf_congr (c.announce_uri bound notices)] at hrest
    simp only [announceAll, List.filterMap_append, hrest, handled_announce, List.flatMap_cons,
      handled_deliver]
    cases bound <;> simp

@[simp] theorem resolutions_announceAll (c : Client) (bound : Option DocumentId)
    (l : List (List Notice)) :
    (c.announceAll bound l).2.filterMap Effect.resolution? = [] :=
  resolutions_of_deliveries (c.announceAll_isDelivery bound l)

/-- Events that wait for a document `bound`: all of them are handed over to it, in order, and none
is held back, or there is no document and all are held. -/
def Queued (bound : Option DocumentId) (queue : List Event) (handled : List (DocumentId × Event))
    (held : List Event) : Prop :=
  match bound with
  | some d => handled = queue.map (d, ·) ∧ held = []
  | none => handled = [] ∧ held = queue

theorem queued_idle {bound : Option DocumentId} {held : List Event}
    (hb : bound.isSome → held = []) : Queued bound held [] held := by
  cases bound with
  | none => exact ⟨rfl, rfl⟩
  | some d =>
    rw [hb rfl]
    exact ⟨rfl, rfl⟩

/-- Delivery neither loses an event nor lets it overtake one that is held. -/
theorem queued_deliver {c : Client} {bound : Option DocumentId} (hb : bound.isSome → c.held = [])
    (events : List Event) :
    Queued bound (c.held ++ events) ((c.deliver bound events).2.filterMap Effect.handled?)
      (c.deliver bound events).1.held := by
  rw [handled_deliver, deliver_fst]
  cases bound with
  | none => exact ⟨rfl, rfl⟩
  | some d => simp [Queued, hb rfl]

end Client

end ExtensionHost
