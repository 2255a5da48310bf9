import ExtensionHost.Host.Run

namespace ExtensionHost

def Effect.resolution? : Effect → Option (ActionId × Option Json)
  | .resolve action result => some (action, result)
  | _ => none

def Effect.handled? : Effect → Option (DocumentId × Event)
  | .call d (.handle e) => some (d, e)
  | _ => none

def Effect.isLog : Effect → Bool
  | .log _ => true
  | _ => false

theorem resolutions_of_logs {es : List Effect} (h : ∀ e ∈ es, e.isLog) :
    es.filterMap Effect.resolution? = [] := by
  rw [List.filterMap_eq_nil_iff]
  intro e he
  have hl := h e he
  cases e <;> simp_all [Effect.isLog, Effect.resolution?]

theorem handled_of_logs {es : List Effect} (h : ∀ e ∈ es, e.isLog) :
    es.filterMap Effect.handled? = [] := by
  rw [List.filterMap_eq_nil_iff]
  intro e he
  have hl := h e he
  cases e <;> simp_all [Effect.isLog, Effect.handled?]

namespace Client

theorem trace_isLog (c : Client) (record : LogRecord) : ∀ e ∈ c.trace record, e.isLog := by
  unfold trace
  split <;> simp [Effect.isLog]

@[simp] theorem resolutions_trace (c : Client) (record : LogRecord) :
    (c.trace record).filterMap Effect.resolution? = [] :=
  resolutions_of_logs (c.trace_isLog record)

@[simp] theorem handled_trace (c : Client) (record : LogRecord) :
    (c.trace record).filterMap Effect.handled? = [] :=
  handled_of_logs (c.trace_isLog record)

theorem disconnect_cases {c : Client} {bound : Option (DocumentId × Document)} {code : Int}
    {message : String} {e : Effect} (he : e ∈ c.disconnect bound code message) :
    e.isLog ∨ ∃ d i, e = .call d (.fail i code message) := by
  unfold disconnect at he
  split at he
  · cases he
  · rcases List.mem_cons.1 he with rfl | he
    · exact .inl rfl
    · split at he
      · cases he
      · obtain ⟨x, -, rfl⟩ := List.mem_map.1 he
        exact .inr ⟨_, _, rfl⟩

@[simp] theorem resolutions_disconnect (c : Client) (bound : Option (DocumentId × Document))
    (code : Int) (message : String) :
    (c.disconnect bound code message).filterMap Effect.resolution? = [] := by
  refine List.filterMap_eq_nil_iff.2 fun e he => ?_
  rcases disconnect_cases he with hl | ⟨d, i, rfl⟩
  · cases e <;> simp_all [Effect.isLog, Effect.resolution?]
  · rfl

@[simp] theorem handled_disconnect (c : Client) (bound : Option (DocumentId × Document))
    (code : Int) (message : String) :
    (c.disconnect bound code message).filterMap Effect.handled? = [] := by
  refine List.filterMap_eq_nil_iff.2 fun e he => ?_
  rcases disconnect_cases he with hl | ⟨d, i, rfl⟩
  · cases e <;> simp_all [Effect.isLog, Effect.handled?]
  · rfl

end Client

namespace Host

def resolveAll (actions : SortedMap ActionId (Action Waiting))
    (resolutions : List (ActionId × Option Json)) : SortedMap ActionId (Action Waiting) :=
  resolutions.foldl (fun m r => m.modify r.1 fun a => (a.resolve r.2).1) actions

@[simp] theorem settleAll_next (h : Host) (es : List Effect) : (h.settleAll es).next = h.next := by
  induction es generalizing h with
  | nil => rfl
  | cons e rest ih => exact (ih (h.settle e)).trans (by cases e <;> rfl)

@[simp] theorem settleAll_services (h : Host) (es : List Effect) :
    (h.settleAll es).services = h.services := by
  induction es generalizing h with
  | nil => rfl
  | cons e rest ih => exact (ih (h.settle e)).trans (by cases e <;> rfl)

@[simp] theorem settleAll_clients (h : Host) (es : List Effect) :
    (h.settleAll es).clients = h.clients := by
  induction es generalizing h with
  | nil => rfl
  | cons e rest ih => exact (ih (h.settle e)).trans (by cases e <;> rfl)

@[simp] theorem settleAll_actions (h : Host) (es : List Effect) :
    (h.settleAll es).actions = resolveAll h.actions (es.filterMap Effect.resolution?) := by
  induction es generalizing h with
  | nil => rfl
  | cons e rest ih =>
    have hr := ih (h.settle e)
    cases e <;> exact hr

@[simp] theorem settleAll_documents (h : Host) (es : List Effect) :
    (h.settleAll es).documents = h.documents := by
  induction es generalizing h with
  | nil => rfl
  | cons e rest ih => exact (ih (h.settle e)).trans (by cases e <;> rfl)

@[simp] theorem resolveAll_isSome (actions : SortedMap ActionId (Action Waiting))
    (resolutions : List (ActionId × Option Json)) (a : ActionId) :
    ((resolveAll actions resolutions).get? a).isSome = (actions.get? a).isSome := by
  induction resolutions generalizing actions with
  | nil => rfl
  | cons r rest ih =>
    refine (ih _).trans ?_
    simp

/-- What a client becomes in a step in which it acts, and the effects. -/
def act (h : Host) (c : Client) : Step → Client × List Effect
  | .requestRegistration _ settings =>
    let r := c.requestRegistration settings
    (r.1, r.2.1)
  | .receive _ fresh message =>
    let r := c.receive (h.servicesOf c) (h.boundDocument c) fresh message
    (r.client, r.effects)
  | .receiveText _ fresh text =>
    let r := c.receiveText (h.servicesOf c) (h.boundDocument c) fresh text
    (r.client, r.effects)
  | .bind _ d => if h.documents.contains d then c.bind d else (c, [])
  | .edit _ name e =>
    (c.withFeeds (c.feeds.modify name fun f => { f with replica := f.replica.edited e }), [])
  | .discard _ name =>
    (c.withFeeds (c.feeds.modify name fun f => { f with replica := f.replica.forgetChanges }), [])
  | .flush _ name =>
    let r := c.flush ((h.boundDocument c).map (·.1)) name
    (r.1, r.2.1)
  | .flushAll _ =>
    let r := c.flushAll ((h.boundDocument c).map (·.1))
    (r.1, r.2.1)
  | .componentChange _ component =>
    (c, match c.componentChange component with
      | .ok message => c.trace (.outbound c.uri message)
      | .error _ => [])
  | .disconnect _ code message => (c, c.disconnect (h.boundDocument c) code message)
  | _ => (c, [])

/-- The client that acts in a step. Issuing a command is a matter of its own, as it concerns an
action, too. -/
def Step.actor? : Step → Option ClientId
  | .requestRegistration client _ | .receive client _ _ | .receiveText client _ _
  | .bind client _ | .edit client _ _ | .discard client _ | .flush client _ | .flushAll client
  | .componentChange client _ | .disconnect client _ _ => some client
  | _ => none

/-- What is true of the host `h'` after client `k` has become `c` in host `h` with some effects:
apart from the actions that have been resolved, and maybe some property keys, nothing else has
changed. -/
structure Acted (h h' : Host) (k : ClientId) (c : Client) (es : List Effect) : Prop where
  next : h'.next = h.next
  clients : ∀ j, h'.clients.get? j = if j = k then some c else h.clients.get? j
  documents : h'.documents = h.documents
  actions : h'.actions = resolveAll h.actions (es.filterMap Effect.resolution?)
  commandIds : ∀ id, (h'.services.get? id).map (·.commandIds) =
    (h.services.get? id).map (·.commandIds)

theorem acted_commit (h : Host) (k : ClientId) (c : Client) (es : List Effect) :
    Acted h (h.commit k c es) k c es where
  next := by simp [commit]
  clients := by simp [commit]
  documents := by simp [commit]
  actions := by simp [commit]
  commandIds := by simp [commit]

theorem acted_same {h : Host} {k : ClientId} {c : Client} (hc : h.clients.get? k = some c) :
    Acted h h k c [] where
  next := rfl
  clients := by
    intro j
    split
    · rename_i hj
      rw [hj, hc]
    · rfl
  documents := rfl
  actions := rfl
  commandIds _ := rfl

theorem acted_insert (h : Host) (k : ClientId) (c : Client) :
    Acted h { h with clients := h.clients.insert k c } k c [] := h.acted_commit k c []

theorem acted_accept (h : Host) (k : ClientId) (services : ServicesId) (r : Client.Receipt) :
    Acted h (h.accept k services r).host k r.client r.effects where
  next := by simp [accept, commit]
  clients := by simp [accept, commit]
  documents := by simp [accept, commit]
  actions := by simp [accept, commit]
  commandIds := by
    intro id
    simp only [accept, commit, settleAll_services, SortedMap.get?_modify, Option.map_map]
    congr 1
    funext v
    simp only [Function.comp_apply]
    split <;> rfl

variable {h : Host} {s : Step} {k : ClientId} {c : Client}

theorem acted_withClient {α β : Type} (hc : h.clients.get? k = some c)
    (f : Client → Client × List Effect × α) (g : α → β) :
    Acted h ((h.withClient k f).map g).host k (f c).1 (f c).2.1 ∧
      ((h.withClient k f).map g).effects = (f c).2.1 := by
  simp only [withClient, hc]
  exact ⟨acted_commit .., rfl⟩

/-- What a step makes of the host is what it makes of the client that acts. -/
theorem acted_perform (hs : s.actor? = some k) (hc : h.clients.get? k = some c) :
    Acted h (h.perform s).host k (h.act c s).1 (h.act c s).2 ∧
      (h.perform s).effects = (h.act c s).2 := by
  cases s with
  | requestRegistration | flush | flushAll | componentChange | disconnect =>
    cases hs
    exact acted_withClient hc _ _
  | receive =>
    cases hs
    simp only [perform, receive, hc]
    exact ⟨acted_accept .., rfl⟩
  | receiveText =>
    cases hs
    simp only [perform, receiveText, hc]
    exact ⟨acted_accept .., rfl⟩
  | bind client d =>
    cases hs
    simp only [perform, bind, act]
    split
    · exact acted_withClient hc _ _
    · exact ⟨acted_same hc, rfl⟩
  | edit | discard =>
    cases hs
    simp only [perform, editLiveData, hc]
    exact ⟨acted_insert .., rfl⟩
  | _ => simp [Step.actor?] at hs

end Host

end ExtensionHost
