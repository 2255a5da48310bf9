import Mathlib.Tactic.ByContra
import ExtensionHost.Proofs.Reception
import ExtensionHost.Proofs.Tracking

namespace ExtensionHost.Host

variable {h h' : Host} {s : Step} {k : ClientId} {c : Client}

theorem perform_of_absent (hs : s.actor? = some k) (hc : h.clients.get? k = none) :
    (h.perform s).host = h ∧ (h.perform s).effects = [] := by
  cases s with
  | requestRegistration | flush | flushAll | componentChange | disconnect =>
    cases hs
    simp [perform, requestRegistration, flush, flushAll, componentChange, disconnect, withClient,
      hc, Outcome.map, Outcome.nothing]
  | receive | receiveText | edit | discard =>
    cases hs
    simp [perform, receive, receiveText, editLiveData, hc, Outcome.map, Outcome.nothing,
      Outcome.quiet]
  | bind client d =>
    cases hs
    simp only [perform, bind]
    split <;> simp [withClient, hc, Outcome.map, Outcome.nothing]
  | _ => simp [Step.actor?] at hs

/-- What a step can make of the host, one case for each way to go. Nothing changes if a client or an
action does not exist, or if a command is refused. -/
inductive Performed (h : Host) : Step → Host → Prop
  | same (s : Step) : Performed h s h
  | acted {s : Step} {h' : Host} {k : ClientId} {c : Client} (hs : s.actor? = some k)
      (hc : h.clients.get? k = some c) (ha : Acted h h' k (h.act c s).1 (h.act c s).2) :
      Performed h s h'
  | services (commandIds : CommandIds) (keys : PropertyKeys) :
      Performed h (.createServices commandIds keys) (h.createServices commandIds keys).1
  | client (uri : String) (config : Config) (services : ServicesId) :
      Performed h (.createClient uri config services) (h.createClient uri config services).1
  | clientDropped (client : ClientId) : Performed h (.dropClient client) (h.dropClient client)
  | document (d : Document) : Performed h (.openDocument d) (h.openDocument d).1
  | documentChanged (d : DocumentId) (now : Document) :
      Performed h (.changeDocument d now) (h.changeDocument d now)
  | documentDropped (d : DocumentId) : Performed h (.dropDocument d) (h.dropDocument d)
  | action : Performed h .createAction h.createAction.1
  | issued {k : ClientId} {c : Client} (i : Invocation) (action : Option ActionId) (id : UInt64)
      (ids : CommandIds) (hc : h.clients.get? k = some c) :
      Performed h (.issue k i action) (h.issued k c id ids action)
  | resolved {a : ActionId} {x : Action Waiting} (result : Option Json)
      (hx : h.actions.get? a = some x) :
      Performed h (.resolve a result) { h with actions := h.actions.insert a (x.resolve result).1 }
  | terminated {a : ActionId} {x : Action Waiting} (hx : h.actions.get? a = some x) :
      Performed h (.terminate a)
        { h with
          actions := h.actions.insert a x.terminate.1
          clients := h.clients.map fun k c =>
            { c with pending := forgotten k x.terminate.2.1 c.pending } }

theorem performed (h : Host) (s : Step) : Performed h s (h.perform s).host := by
  cases hs : s.actor? with
  | some k =>
    cases hc : h.clients.get? k with
    | none =>
      rw [(perform_of_absent hs hc).1]
      exact .same s
    | some c => exact .acted hs hc (acted_perform hs hc).1
  | none =>
    cases s with
    | createServices commandIds keys => exact .services ..
    | createClient uri config services => exact .client ..
    | dropClient client => exact .clientDropped _
    | openDocument d => exact .document _
    | changeDocument d now => exact .documentChanged ..
    | dropDocument d => exact .documentDropped _
    | createAction => exact .action
    | issue k i action =>
      rcases perform_issue_host h k i action with hh | ⟨c, ids, id, hc, hh⟩
      · rw [hh]
        exact .same _
      · rw [hh]
        exact .issued i action id ids hc
    | resolve a result =>
      simp only [perform, Outcome.quiet, Outcome.map, resolve]
      split
      · exact .same _
      · rename_i x hx
        exact .resolved result hx
    | terminate a =>
      simp only [perform, Outcome.quiet, Outcome.map, terminate]
      split
      · exact .same _
      · rename_i x hx
        rw [foldl_forget]
        exact .terminated hx
    | _ => simp [Step.actor?] at hs

theorem reacted_frame {ids : CommandIds} {bound : Option (DocumentId × Document)}
    {method : Method} {message : Json} {c' : Client} {es : List Effect}
    (hr : Client.Reacted c ids bound method message c' es) :
    c'.document = c.document ∧ c'.services = c.services ∧ c'.requestedUri = c.requestedUri := by
  cases hr <;> simp [Client.deliver_fst]

theorem handled_frame {services : Services} {bound : Option (DocumentId × Document)}
    {message : Json} {r : Client.Receipt} (hr : Client.Handled c services bound message r) :
    r.client.document = c.document ∧ r.client.services = c.services ∧
      r.client.requestedUri = c.requestedUri := by
  cases hr with
  | accepted _ _ hr => exact reacted_frame hr
  | _ => exact ⟨rfl, rfl, rfl⟩

theorem receive_frame (c : Client) (services : Services)
    (bound : Option (DocumentId × Document)) (fresh : String) (message : Json) :
    (c.receive services bound fresh message).client.document = c.document ∧
      (c.receive services bound fresh message).client.services = c.services ∧
      (c.receive services bound fresh message).client.requestedUri = c.requestedUri := by
  rw [Client.receive_client]
  exact handled_frame (c.handled_handle ..)

theorem receiveText_frame (c : Client) (services : Services)
    (bound : Option (DocumentId × Document)) (fresh text : String) :
    (c.receiveText services bound fresh text).client.document = c.document ∧
      (c.receiveText services bound fresh text).client.services = c.services ∧
      (c.receiveText services bound fresh text).client.requestedUri = c.requestedUri := by
  unfold Client.receiveText
  split
  · exact receive_frame ..
  · exact ⟨rfl, rfl, rfl⟩

theorem reportFeeds_frame (c : Client) (bound : Option DocumentId) (due : Feed → Bool)
    (notices : Feed → List Notice) :
    (c.reportFeeds bound due notices).1.document = c.document ∧
      (c.reportFeeds bound due notices).1.services = c.services ∧
      (c.reportFeeds bound due notices).1.requestedUri = c.requestedUri := by
  simp [Client.reportFeeds, Client.announceAll_fst, Client.deliver_fst]

theorem flush_frame (c : Client) (bound : Option DocumentId) (name : String) :
    (c.flush bound name).1.document = c.document ∧
      (c.flush bound name).1.services = c.services ∧
      (c.flush bound name).1.requestedUri = c.requestedUri := by
  unfold Client.flush
  split <;> simp [Client.deliver_fst]

theorem act_document (h : Host) (c : Client) (s : Step) :
    (h.act c s).1.document = c.document ∨
      ∃ k d, s = .bind k d ∧ h.documents.contains d ∧ (h.act c s).1.document = some d := by
  cases s with
  | receive k fresh message => exact .inl (receive_frame ..).1
  | receiveText k fresh text => exact .inl (receiveText_frame ..).1
  | bind k d =>
    by_cases hd : h.documents.contains d
    · right
      refine ⟨k, d, rfl, hd, ?_⟩
      simp only [act, hd, if_true, Client.bind, (reportFeeds_frame ..).1, Client.deliver_fst]
    · left
      simp [act, hd]
  | edit | discard => exact .inl (by simp [act])
  | flush k name => exact .inl (flush_frame ..).1
  | flushAll k => exact .inl (reportFeeds_frame ..).1
  | _ => exact .inl rfl

theorem act_kept (h : Host) (c : Client) (s : Step) :
    (h.act c s).1.services = c.services ∧ (h.act c s).1.requestedUri = c.requestedUri := by
  cases s with
  | receive k fresh message => exact (receive_frame ..).2
  | receiveText k fresh text => exact (receiveText_frame ..).2
  | bind k d =>
    simp only [act]
    split
    · simp only [Client.bind, (reportFeeds_frame ..).2, Client.deliver_fst]
      exact ⟨trivial, trivial⟩
    · exact ⟨rfl, rfl⟩
  | edit | discard => simp [act]
  | flush k name => exact (flush_frame ..).2
  | flushAll k => exact (reportFeeds_frame ..).2
  | _ => exact ⟨rfl, rfl⟩

theorem isSome_changeDocument (h : Host) (d : DocumentId) (now : Document) (e : DocumentId) :
    ((h.changeDocument d now).documents.get? e).isSome = (h.documents.get? e).isSome := by
  simp [changeDocument]

/-- Numbers are given out in order, so what is in use lies below the next one. -/
structure Numbered (h : Host) : Prop where
  clients : ∀ k c, h.clients.get? k = some c → k < h.next
  documents : ∀ d x, h.documents.get? d = some x → d < h.next
  actions : ∀ a x, h.actions.get? a = some x → a < h.next
  bound : ∀ k c d, h.clients.get? k = some c → c.document = some d → d < h.next

theorem numbered_start : start.Numbered where
  clients := by simp [start]
  documents := by simp [start]
  actions := by simp [start]
  bound := by simp [start]

theorem numbered_acted {h' : Host} {es : List Effect} (hn : h.Numbered)
    (hc : h.clients.get? k = some c) {c' : Client} (ha : Acted h h' k c' es)
    (hd : ∀ d, c'.document = some d → d < h.next) : h'.Numbered where
  clients := by
    intro j x hj
    rw [ha.clients] at hj
    rw [ha.next]
    split at hj
    · rename_i hjk
      exact hjk ▸ hn.clients k c hc
    · exact hn.clients j x hj
  documents := by
    intro d x hx
    rw [ha.documents] at hx
    exact ha.next ▸ hn.documents d x hx
  actions := by
    intro a x hx
    have hs : (h.actions.get? a).isSome := by
      rw [← resolveAll_isSome h.actions (es.filterMap Effect.resolution?), ← ha.actions, hx]
      rfl
    obtain ⟨y, hy⟩ := Option.isSome_iff_exists.1 hs
    exact ha.next ▸ hn.actions a y hy
  bound := by
    intro j x d hj hx
    rw [ha.clients] at hj
    rw [ha.next]
    split at hj
    · cases hj
      exact hd d hx
    · exact hn.bound j x d hj hx

theorem numbered_act {h' : Host} (hn : h.Numbered) (hc : h.clients.get? k = some c)
    (ha : Acted h h' k (h.act c s).1 (h.act c s).2) : h'.Numbered := by
  refine numbered_acted hn hc ha fun d hd => ?_
  rcases h.act_document c s with hs | ⟨_, e, -, he, hs⟩
  · exact hn.bound k c d hc (hs ▸ hd)
  · obtain rfl : e = d := by simpa [hs] using hd
    obtain ⟨x, hx⟩ := Option.isSome_iff_exists.1 he
    exact hn.documents e x hx

theorem numbered_of_le (hn : h.Numbered) (hle : h.next ≤ h'.next)
    (hclients : ∀ k c, h'.clients.get? k = some c →
      (∃ c₀, h.clients.get? k = some c₀ ∧ c.document = c₀.document) ∨
        k < h'.next ∧ c.document = none)
    (hdocuments : ∀ d x, h'.documents.get? d = some x →
      (∃ y, h.documents.get? d = some y) ∨ d < h'.next)
    (hactions : ∀ a x, h'.actions.get? a = some x →
      (∃ y, h.actions.get? a = some y) ∨ a < h'.next) : h'.Numbered where
  clients k c hk := by
    rcases hclients k c hk with ⟨c₀, hold, -⟩ | hnew
    · exact Nat.lt_of_lt_of_le (hn.clients k c₀ hold) hle
    · exact hnew.1
  documents d x hx := by
    rcases hdocuments d x hx with ⟨y, hy⟩ | hnew
    · exact Nat.lt_of_lt_of_le (hn.documents d y hy) hle
    · exact hnew
  actions a x hx := by
    rcases hactions a x hx with ⟨y, hy⟩ | hnew
    · exact Nat.lt_of_lt_of_le (hn.actions a y hy) hle
    · exact hnew
  bound k c d hk hd := by
    rcases hclients k c hk with ⟨c₀, hold, hsame⟩ | hnew
    · exact Nat.lt_of_lt_of_le (hn.bound k c₀ d hold (hsame ▸ hd)) hle
    · rw [hnew.2] at hd
      cases hd

theorem numbered_issued (hn : h.Numbered) (hc : h.clients.get? k = some c) (id : UInt64)
    (ids : CommandIds) (action : Option ActionId) : (h.issued k c id ids action).Numbered := by
  refine numbered_of_le hn (Nat.le_of_eq (issued_next ..).symm) (fun j x hj => ?_)
    (fun d x hx => ?_) (fun b y hy => ?_)
  · left
    cases action with
    | none => exact ⟨x, hj, rfl⟩
    | some a =>
      simp only [issued, get?_track_clients] at hj
      split at hj
      · rename_i hjk
        cases hj
        exact ⟨c, hjk.1 ▸ hc, rfl⟩
      · exact ⟨x, hj, rfl⟩
  · rw [issued_documents] at hx
    exact .inl ⟨x, hx⟩
  · left
    cases action with
    | none => exact ⟨y, hy⟩
    | some a =>
      simp only [issued, get?_track_actions] at hy
      split at hy
      · rename_i hb
        obtain ⟨x, hx, -⟩ := Option.map_eq_some_iff.1 hy
        exact ⟨x, hb ▸ hx⟩
      · exact ⟨y, hy⟩

theorem numbered_perform (hn : h.Numbered) (s : Step) : (h.perform s).host.Numbered := by
  have hp := h.performed s
  generalize (h.perform s).host = h' at hp
  cases hp with
  | same => exact hn
  | acted hs hc ha => exact numbered_act hn hc ha
  | issued i action id ids hc => exact numbered_issued hn hc id ids action
  | services | client | clientDropped | document | documentDropped | action =>
    simp only [createServices, createClient, dropClient, openDocument, dropDocument, createAction]
    apply numbered_of_le hn <;> grind [SortedMap.get?_insert, SortedMap.get?_erase, Client.create]
  | documentChanged d now =>
    refine numbered_of_le hn (Nat.le_refl _) (fun j c hj => .inl ⟨c, hj, rfl⟩) (fun e x hx => ?_)
      fun a x hx => .inl ⟨x, hx⟩
    have hsome := (h.isSome_changeDocument d now e).symm
    rw [hx] at hsome
    exact .inl (Option.isSome_iff_exists.1 hsome)
  | resolved => apply numbered_of_le hn <;> grind [SortedMap.get?_insert]
  | terminated =>
    refine numbered_of_le hn (Nat.le_refl _) (fun j c hj => ?_) (fun d y hd => .inl ⟨y, hd⟩) ?_
    · simp only [SortedMap.get?_map, Option.map_eq_some_iff] at hj
      obtain ⟨c₀, hc₀, rfl⟩ := hj
      exact .inl ⟨c₀, hc₀, rfl⟩
    · grind [SortedMap.get?_insert]

theorem next_le_perform (h : Host) (s : Step) : h.next ≤ (h.perform s).host.next := by
  have hp := h.performed s
  generalize (h.perform s).host = h' at hp
  cases hp with
  | acted _ _ ha => exact Nat.le_of_eq ha.next.symm
  | issued => exact Nat.le_of_eq (issued_next ..).symm
  | services | client | document | action => exact Nat.le_succ _
  | same | clientDropped | documentChanged | documentDropped | resolved | terminated =>
    exact Nat.le_refl _

/-- A client that does not act keeps all but the commands that wait for an answer, and a client
that has not been there has just been created. -/
theorem get?_perform_of_not_actor (hs : s.actor? ≠ some k) {c' : Client}
    (hc' : (h.perform s).host.clients.get? k = some c') :
    (∃ c p, h.clients.get? k = some c ∧ c' = { c with pending := p }) ∨
      (k = h.next ∧ ∃ uri config services, s = .createClient uri config services ∧
        c' = .create uri config services) := by
  have hp := h.performed s
  generalize (h.perform s).host = h' at hp hc'
  cases hp with
  | same | services | document | documentChanged | documentDropped | action | resolved =>
    exact .inl ⟨c', c'.pending, hc', rfl⟩
  | @acted _ _ j _ hs' _ ha =>
    have hjk : k ≠ j := fun e => hs (e ▸ hs')
    rw [ha.clients, if_neg hjk] at hc'
    exact .inl ⟨c', c'.pending, hc', rfl⟩
  | client uri config services =>
    simp only [createClient, SortedMap.get?_insert, Std.compare_eq_iff_eq] at hc'
    split at hc'
    · rename_i hk
      cases hc'
      exact .inr ⟨hk, uri, config, services, rfl, rfl⟩
    · exact .inl ⟨c', c'.pending, hc', rfl⟩
  | clientDropped =>
    simp only [dropClient, SortedMap.get?_erase] at hc'
    split at hc'
    · cases hc'
    · exact .inl ⟨c', c'.pending, hc', rfl⟩
  | @issued j c i action id ids hc =>
    cases action with
    | none => exact .inl ⟨c', c'.pending, hc', rfl⟩
    | some a =>
      simp only [Host.issued, get?_track_clients] at hc'
      split at hc'
      · rename_i hk
        cases hc'
        exact .inl ⟨c, _, hk.1 ▸ hc, rfl⟩
      · exact .inl ⟨c', c'.pending, hc', rfl⟩
  | terminated =>
    simp only [SortedMap.get?_map, Option.map_eq_some_iff] at hc'
    obtain ⟨c, hc, rfl⟩ := hc'
    exact .inl ⟨c, _, hc, rfl⟩

theorem get?_perform_of_idle (hn : h.Numbered) (hs : s.actor? ≠ some k)
    (hc : h.clients.get? k = some c) {c' : Client}
    (hc' : (h.perform s).host.clients.get? k = some c') : ∃ p, c' = { c with pending := p } := by
  rcases get?_perform_of_not_actor hs hc' with ⟨c₀, p, hc₀, hp⟩ | ⟨hk, -⟩
  · obtain rfl : c = c₀ := Option.some.inj (hc.symm.trans hc₀)
    exact ⟨p, hp⟩
  · -- A new client has the next number, and that one is not in use.
    exact absurd (hn.clients k c hc) (hk ▸ Nat.lt_irrefl _)

theorem get?_perform_of_actor (hs : s.actor? = some k) (hc : h.clients.get? k = some c) :
    (h.perform s).host.clients.get? k = some (h.act c s).1 := by
  rw [(acted_perform hs hc).1.clients, if_pos rfl]

theorem act_of_perform (hs : s.actor? = some k) (hc : h.clients.get? k = some c) {c' : Client}
    (hc' : (h.perform s).host.clients.get? k = some c') : (h.act c s).1 = c' :=
  Option.some.inj ((get?_perform_of_actor hs hc).symm.trans hc')

theorem acts_or_idle (hn : h.Numbered) (hc : h.clients.get? k = some c) {c' : Client}
    (hc' : (h.perform s).host.clients.get? k = some c') :
    (s.actor? = some k ∧ (h.act c s).1 = c') ∨ ∃ p, c' = { c with pending := p } := by
  by_cases hs : s.actor? = some k
  · exact .inl ⟨hs, act_of_perform hs hc hc'⟩
  · exact .inr (get?_perform_of_idle hn hs hc hc')

theorem services_perform (hn : h.Numbered) (hc : h.clients.get? k = some c) {c' : Client}
    (hc' : (h.perform s).host.clients.get? k = some c') : c'.services = c.services := by
  rcases acts_or_idle hn hc hc' with ⟨-, rfl⟩ | ⟨p, rfl⟩
  · exact (act_kept h c s).1
  · rfl

theorem isSome_services_perform (h : Host) (s : Step) {id : ServicesId}
    (hid : (h.services.get? id).isSome) : ((h.perform s).host.services.get? id).isSome := by
  have hp := h.performed s
  generalize (h.perform s).host = h' at hp
  cases hp with
  | same | client | clientDropped | document | documentChanged | documentDropped | action | resolved
  | terminated => exact hid
  | acted _ _ ha =>
    have hids := congrArg Option.isSome (ha.commandIds id)
    simp only [Option.isSome_map] at hids
    rwa [hids]
  | services =>
    simp only [createServices, SortedMap.get?_insert]
    split
    · rfl
    · exact hid
  | issued =>
    rw [issued_services, SortedMap.get?_insert]
    split
    · rfl
    · exact hid

theorem documents_perform (h : Host) (s : Step) {d : DocumentId}
    (hd : ((h.perform s).host.documents.get? d).isSome) :
    (h.documents.get? d).isSome ∨ d = h.next := by
  have hp := h.performed s
  generalize (h.perform s).host = h' at hp hd
  cases hp with
  | same | services | client | clientDropped | action | resolved | terminated => exact .inl hd
  | acted _ _ ha =>
    rw [ha.documents] at hd
    exact .inl hd
  | document =>
    by_cases hnew : d = h.next
    · exact .inr hnew
    · left
      simpa [openDocument, hnew] using hd
  | documentChanged => exact .inl ((h.isSome_changeDocument _ _ _).symm.trans hd)
  | documentDropped =>
    simp only [dropDocument, SortedMap.get?_erase] at hd
    split at hd
    · cases hd
    · exact .inl hd
  | issued =>
    rw [issued_documents] at hd
    exact .inl hd

theorem boundDocument_fst (h : Host) (c : Client) :
    (h.boundDocument c).map (·.1) = c.document.filter fun d => (h.documents.get? d).isSome := by
  unfold boundDocument
  cases c.document with
  | none => rfl
  | some d => cases hd : h.documents.get? d <;> simp [hd, Option.filter]

theorem bound_of_perform (hn : h.Numbered) (hc : h.clients.get? k = some c) {c' : Client}
    (hdoc : c'.document = c.document) (hb : ((h.perform s).host.boundDocument c').isSome) :
    (h.boundDocument c).isSome := by
  have hfst := congrArg Option.isSome (boundDocument_fst (h.perform s).host c')
  have hfst' := congrArg Option.isSome (boundDocument_fst h c)
  rw [Option.isSome_map] at hfst hfst'
  rw [hfst, hdoc] at hb
  rw [hfst']
  cases hd : c.document with
  | none =>
    rw [hd] at hb
    cases hb
  | some d =>
    -- A document that exists now and did not before is a new one, which no client knows yet.
    rw [hd] at hb
    have hpost : ((h.perform s).host.documents.get? d).isSome := by
      by_contra hnot
      simp [Option.filter, hnot] at hb
    rcases documents_perform h s hpost with hpre | hnew
    · simp [Option.filter, hpre]
    · exact absurd (hn.bound k c d hc hd) (hnew ▸ Nat.lt_irrefl _)

end ExtensionHost.Host
