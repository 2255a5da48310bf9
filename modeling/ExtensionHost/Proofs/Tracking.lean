import ExtensionHost.Proofs.Frame

namespace ExtensionHost

theorem Client.issue_eq_ok {c : Client} {ids ids' : CommandIds} {i : Invocation} {id : UInt64}
    {message : Json} : c.issue ids i = .ok (ids', id, message) ↔
    ∃ resourceId, c.checkInvocation i = .ok resourceId ∧ ids' = ⟨ids.next + 1⟩ ∧ id = ids.next ∧
      message = (CommandRequest.mk c.token id i.name i.uri i.payload resourceId).encode := by
  unfold issue
  cases c.checkInvocation i with
  | error fault => simp [Except.map]
  | ok resourceId =>
    simp only [Except.map, CommandIds.issue, Except.ok.injEq, Prod.mk.injEq, exists_eq_left']
    constructor
    · rintro ⟨rfl, rfl, rfl⟩
      exact ⟨rfl, rfl, rfl⟩
    · rintro ⟨rfl, rfl, rfl⟩
      exact ⟨rfl, rfl, rfl⟩

namespace Host

variable {h : Host} {k : ClientId} {c : Client}

def issued (h : Host) (k : ClientId) (c : Client) (id : UInt64) (ids : CommandIds)
    (action : Option ActionId) : Host :=
  let h := { h with
    services := h.services.insert c.services { h.servicesOf c with commandIds := ids } }
  match action with
  | none => h
  | some a => h.track k c id a

theorem perform_issue_ok {i : Invocation} {ids : CommandIds} {id : UInt64} {message : Json}
    (hc : h.clients.get? k = some c)
    (hi : c.issue (h.servicesOf c).commandIds i = .ok (ids, id, message))
    (action : Option ActionId) :
    h.perform (.issue k i action) = ⟨h.issued k c id ids action,
      c.trace (.outbound c.uri message), some (.message (.ok message))⟩ := by
  simp only [perform, issue, hc, hi]
  rfl

theorem perform_issue_error {i : Invocation} {fault : ClientFault}
    (hc : h.clients.get? k = some c)
    (hi : c.issue (h.servicesOf c).commandIds i = .error fault) (action : Option ActionId) :
    h.perform (.issue k i action) = ⟨h, [], some (.message (.error fault))⟩ := by
  simp only [perform, issue, hc, hi]
  rfl

theorem perform_issue_of_absent (hc : h.clients.get? k = none) (i : Invocation)
    (action : Option ActionId) : h.perform (.issue k i action) = ⟨h, [], none⟩ := by
  simp [perform, issue, hc, Outcome.map, Outcome.nothing]

theorem perform_issue_host (h : Host) (k : ClientId) (i : Invocation) (action : Option ActionId) :
    (h.perform (.issue k i action)).host = h ∨ ∃ c ids id, h.clients.get? k = some c ∧
      (h.perform (.issue k i action)).host = h.issued k c id ids action := by
  cases hc : h.clients.get? k with
  | none => exact .inl (by rw [perform_issue_of_absent hc])
  | some c =>
    cases hi : c.issue (h.servicesOf c).commandIds i with
    | error fault => exact .inl (by rw [perform_issue_error hc hi])
    | ok r => exact .inr ⟨c, r.1, r.2.1, rfl, by rw [perform_issue_ok hc hi]⟩

/-- What is left of a table when callbacks have been run. -/
def forgotten (k : ClientId) (callbacks : List Waiting) (pending : SortedMap UInt64 ActionId) :
    SortedMap UInt64 ActionId :=
  callbacks.foldl (fun p w => if w.client = k then p.erase w.command else p) pending

theorem get?_forgotten (k : ClientId) (callbacks : List Waiting)
    (pending : SortedMap UInt64 ActionId) (id : UInt64) :
    (forgotten k callbacks pending).get? id =
      if ⟨k, id⟩ ∈ callbacks then none else pending.get? id := by
  induction callbacks generalizing pending with
  | nil => rfl
  | cons w rest ih =>
    obtain ⟨client, command⟩ := w
    -- The first callback acts on the table before the rest do, so the induction is over tables.
    have hrest := ih (if client = k then pending.erase command else pending)
    have hunfold : forgotten k (⟨client, command⟩ :: rest) pending =
        forgotten k rest (if client = k then pending.erase command else pending) := rfl
    rw [hunfold, hrest]
    by_cases hk : client = k
    · by_cases hid : command = id
      · simp [hk, hid]
      · simp [hk, hid, Ne.symm hid]
    · simp [hk, Ne.symm hk]

theorem foldl_forget (h : Host) (callbacks : List Waiting) :
    callbacks.foldl forget h =
      { h with clients := h.clients.map fun k c =>
          { c with pending := forgotten k callbacks c.pending } } := by
  induction callbacks generalizing h with
  | nil =>
    have hmap : (h.clients.map fun k c => { c with pending := forgotten k [] c.pending }) =
        h.clients := by
      apply SortedMap.ext_entries
      simp [SortedMap.map, forgotten]
    simp [hmap]
  | cons w rest ih =>
    rw [List.foldl_cons, ih]
    simp only [forget, SortedMap.modify]
    congr 1
    apply SortedMap.ext_entries
    simp only [SortedMap.map, List.map_map]
    apply List.map_congr_left
    intro e he
    simp only [Function.comp_apply, Std.compare_eq_iff_eq]
    split <;> simp [forgotten, *]

theorem get?_track_clients (h : Host) (k : ClientId) (c : Client) (id : UInt64) (a : ActionId)
    (j : ClientId) : (h.track k c id a).clients.get? j =
      if j = k ∧ (h.actions.get? a).any (·.isPending) then
        some { c with pending := c.pending.insert id a }
      else h.clients.get? j := by
  unfold track
  cases hx : h.actions.get? a with
  | none => simp
  | some x => by_cases hp : x.isPending <;> simp [hp]

theorem get?_track_actions (h : Host) (k : ClientId) (c : Client) (id : UInt64) (a b : ActionId) :
    (h.track k c id a).actions.get? b =
      if b = a then (h.actions.get? a).map (·.onTerminate ⟨k, id⟩) else h.actions.get? b := by
  unfold track
  cases hx : h.actions.get? a with
  | none => by_cases hb : b = a <;> simp [hb, hx]
  | some x =>
    by_cases hp : x.isPending
    · simp [hp]
    · by_cases hb : b = a <;> simp [hb, hp, hx, Action.onTerminate]

@[simp] theorem track_next (h : Host) (k : ClientId) (c : Client) (id : UInt64) (a : ActionId) :
    (h.track k c id a).next = h.next := by
  unfold track
  split
  · rfl
  · split <;> rfl

@[simp] theorem track_documents (h : Host) (k : ClientId) (c : Client) (id : UInt64)
    (a : ActionId) : (h.track k c id a).documents = h.documents := by
  unfold track
  split
  · rfl
  · split <;> rfl

@[simp] theorem track_services (h : Host) (k : ClientId) (c : Client) (id : UInt64)
    (a : ActionId) : (h.track k c id a).services = h.services := by
  unfold track
  split
  · rfl
  · split <;> rfl

@[simp] theorem issued_next (h : Host) (k : ClientId) (c : Client) (id : UInt64)
    (ids : CommandIds) (action : Option ActionId) :
    (h.issued k c id ids action).next = h.next := by
  cases action <;> simp [issued]

@[simp] theorem issued_documents (h : Host) (k : ClientId) (c : Client) (id : UInt64)
    (ids : CommandIds) (action : Option ActionId) :
    (h.issued k c id ids action).documents = h.documents := by
  cases action <;> simp [issued]

@[simp] theorem issued_services (h : Host) (k : ClientId) (c : Client) (id : UInt64)
    (ids : CommandIds) (action : Option ActionId) :
    (h.issued k c id ids action).services =
      h.services.insert c.services { h.servicesOf c with commandIds := ids } := by
  cases action <;> simp [issued]

end Host

end ExtensionHost
