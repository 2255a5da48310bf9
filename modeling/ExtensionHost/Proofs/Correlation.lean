import ExtensionHost.Proofs.Acceptance
import ExtensionHost.Proofs.Settlement

namespace ExtensionHost.Host

variable {h : Host} {s : Step} {k : ClientId} {c : Client} {hist : List (Host × Step)}
  {id : UInt64} {a : ActionId}

/-- The command that a step issues on behalf of a pending action: client, id and action. -/
def tracked? (h : Host) : Step → Option (ClientId × UInt64 × ActionId)
  | .issue k i (some a) =>
    match h.clients.get? k, h.actions.get? a with
    | some c, some x =>
      if x.isPending then
        (c.issue (h.servicesOf c).commandIds i).toOption.map fun (_, id, _) => (k, id, a)
      else none
    | _, _ => none
  | _ => none

/-- Client `k` has issued command `id` on behalf of action `a`, which was pending. -/
def Tracked (hist : List (Host × Step)) (k : ClientId) (id : UInt64) (a : ActionId) : Prop :=
  ∃ e ∈ hist, e.1.tracked? e.2 = some (k, id, a)

def Answers (k : ClientId) (id : UInt64) (e : Host × Step) : Prop :=
  ∃ method m result, e.1.accepted? k e.2 = some (method, m) ∧ CommandAnswer m id result

/-- Client `k` has issued command `id` on behalf of action `a`, which was pending, and has not
accepted an answer since. -/
def Awaited (hist : List (Host × Step)) (k : ClientId) (id : UInt64) (a : ActionId) : Prop :=
  Since (fun e => e.1.tracked? e.2 = some (k, id, a)) (Answers k id) hist

def terminated (h : Host) (a : ActionId) : Bool := (h.actions.get? a).any (·.isTerminated)

def CountsUp (e : Host × Step) : Prop :=
  ∀ id s s', e.1.services.get? id = some s → (e.1.perform e.2).host.services.get? id = some s' →
    s.commandIds.next ≤ s'.commandIds.next

instance (e : Host × Step) : Decidable (CountsUp e) :=
  decidable_of_iff
    (∀ x ∈ e.1.services.entries, ∀ s ∈ (e.1.perform e.2).host.services.get? x.1,
      x.2.commandIds.next ≤ s.commandIds.next) <| by
    constructor
    · intro h id s s' hs hs'
      exact h (id, s) (SortedMap.get?_eq_some_iff_mem.1 hs) s' hs'
    · intro h x hx s hs
      exact h x.1 x.2 s (SortedMap.get?_eq_some_iff_mem.2 hx) hs

theorem Awaited.tracked (hw : Awaited hist k id a) : Tracked hist k id a := Since.exists_mem hw

theorem tracked_concat : Tracked (hist ++ [(h, s)]) k id a ↔
    Tracked hist k id a ∨ h.tracked? s = some (k, id, a) := by
  simp [Tracked, or_and_right, exists_or]

theorem awaited_concat : Awaited (hist ++ [(h, s)]) k id a ↔
    h.tracked? s = some (k, id, a) ∨ Awaited hist k id a ∧ ¬ Answers k id (h, s) :=
  since_concat

theorem answers_iff : Answers k id (h, s) ↔ ∃ r, h.answered? k s = some r ∧ r.id = id := by
  constructor
  · rintro ⟨method, m, result, ha, hanswer⟩
    obtain ⟨r, hr, hid, -⟩ := answered?_iff.2 ⟨method, m, ha, hanswer⟩
    exact ⟨r, hr, hid⟩
  · rintro ⟨r, hr, hid⟩
    obtain ⟨method, m, ha, hanswer⟩ := answered?_iff.1 ⟨r, hr, hid, rfl⟩
    exact ⟨method, m, r.result, ha, hanswer⟩

theorem not_answers_of_not_actor (hs : s.actor? ≠ some k) : ¬ Answers k id (h, s) := by
  rintro ⟨_, _, _, hm, -⟩
  exact hs (actor?_of_accepted? hm).1

theorem tracked?_of_actor (hs : s.actor? = some k) : h.tracked? s = none := by
  cases s with
  | issue => cases hs
  | _ => rfl

theorem not_answers_of_tracked {t : ClientId × UInt64 × ActionId} (ht : h.tracked? s = some t) :
    ¬ Answers k id (h, s) := by
  refine not_answers_of_not_actor fun hs => ?_
  rw [tracked?_of_actor hs] at ht
  cases ht

theorem tracked?_eq_some (ht : h.tracked? s = some (k, id, a)) :
    ∃ c x ids, h.clients.get? k = some c ∧ h.actions.get? a = some x ∧ x.isPending ∧
      id = (h.servicesOf c).commandIds.next ∧ ids.next = id + 1 ∧
      (h.perform s).host = h.issued k c id ids (some a) := by
  unfold tracked? at ht
  split at ht
  · rename_i k i a
    split at ht
    · rename_i c x hc hx
      split at ht
      · rename_i hp
        cases hi : c.issue (h.servicesOf c).commandIds i with
        | error fault => simp [hi, Except.toOption] at ht
        | ok r =>
          obtain ⟨ids, id, message⟩ := r
          simp only [hi, Except.toOption, Option.map_some, Option.some.injEq, Prod.mk.injEq] at ht
          obtain ⟨rfl, rfl, rfl⟩ := ht
          obtain ⟨_, -, rfl, rfl, -⟩ := Client.issue_eq_ok.1 hi
          exact ⟨c, x, _, hc, hx, hp, rfl, rfl, by rw [perform_issue_ok hc hi]⟩
      · cases ht
    · cases ht
  · cases ht

theorem issue_of_untracked {i : Invocation} {action : Option ActionId}
    (ht : h.tracked? (.issue k i action) = none) :
    (h.perform (.issue k i action)).host.clients = h.clients ∧
      (h.perform (.issue k i action)).host.actions = h.actions := by
  cases hc : h.clients.get? k with
  | none =>
    rw [perform_issue_of_absent hc]
    exact ⟨rfl, rfl⟩
  | some c =>
    cases hi : c.issue (h.servicesOf c).commandIds i with
    | error fault =>
      rw [perform_issue_error hc hi]
      exact ⟨rfl, rfl⟩
    | ok r =>
      rw [perform_issue_ok hc hi]
      cases action with
      | none => exact ⟨rfl, rfl⟩
      | some a =>
        simp only [issued, track]
        cases hx : h.actions.get? a with
        | none => exact ⟨rfl, rfl⟩
        | some x =>
          have hp : ¬ x.isPending := by
            intro hp
            simp [tracked?, hc, hx, hp, hi, Except.toOption] at ht
          simp [hp]

/-- Of all actions only the one that waits for an accepted answer is concerned. -/
theorem get?_perform_of_acted (hs : s.actor? = some k) (hc : h.clients.get? k = some c)
    (b : ActionId) : (h.perform s).host.actions.get? b =
      match h.answered? k s with
      | some r =>
        if c.pending.get? r.id = some b then (h.actions.get? b).map fun x => (x.resolve r.result).1
        else h.actions.get? b
      | none => h.actions.get? b := by
  rw [(acted_perform hs hc).1.actions]
  cases hr : h.answered? k s with
  | some r => rw [(act_of_answered hc hr).2, resolveAll_entry]
  | none =>
    rw [(act_of_unanswered hs hc hr).2]
    rfl

/-- A step that tracks nothing and terminates nothing: it may settle actions and take entries out
of tables, and what is new has not been used. -/
structure Settling (h : Host) (s : Step) : Prop where
  tracked : h.tracked? s = none
  actions : ∀ a x', (h.perform s).host.actions.get? a = some x' → x'.isPending →
    h.actions.get? a = some x' ∨ a = h.next ∧ x' = .fresh
  terminated : ∀ a, (h.perform s).host.terminated a = h.terminated a
  tables : ∀ k c', (h.perform s).host.clients.get? k = some c' →
    (k = h.next ∧ c'.pending = .empty) ∨
      ∃ c, h.clients.get? k = some c ∧ ∀ id,
        (Answers k id (h, s) → c'.pending.get? id = none) ∧
          (¬ Answers k id (h, s) → c'.pending.get? id = c.pending.get? id)

theorem table_kept (hna : ∀ id, ¬ Answers k id (h, s)) (hc : h.clients.get? k = some c) :
    ∃ c₀, h.clients.get? k = some c₀ ∧ ∀ id,
      (Answers k id (h, s) → c.pending.get? id = none) ∧
        (¬ Answers k id (h, s) → c.pending.get? id = c₀.pending.get? id) :=
  ⟨c, hc, fun id => ⟨fun ha => (hna id ha).elim, fun _ => rfl⟩⟩

theorem settling_of_same (ht : h.tracked? s = none)
    (hclients : ∀ k, (h.perform s).host.clients.get? k = h.clients.get? k)
    (hactions : ∀ a, (h.perform s).host.actions.get? a = h.actions.get? a)
    (hanswers : ∀ k id, ¬ Answers k id (h, s)) : Settling h s where
  tracked := ht
  actions a x' hx _ := .inl (hactions a ▸ hx)
  terminated a := by simp only [Host.terminated, hactions]
  tables k c' hc' := .inr (table_kept (hanswers k) (hclients k ▸ hc'))

theorem settling_of_actor (hs : s.actor? = some k) (hc : h.clients.get? k = some c) :
    Settling h s where
  tracked := tracked?_of_actor hs
  actions a x' hx hp := by
    rw [(acted_perform hs hc).1.actions] at hx
    exact .inl (pending_of_resolveAll hx hp)
  terminated a := by
    simp only [Host.terminated, (acted_perform hs hc).1.actions, terminated_of_resolveAll]
  tables j c' hc' := by
    right
    rw [(acted_perform hs hc).1.clients] at hc'
    split at hc'
    · rename_i hj
      subst hj
      cases hc'
      refine ⟨c, hc, fun id => ?_⟩
      cases hr : h.answered? j s with
      | none => exact ⟨by simp [answers_iff, hr], fun _ => by rw [(act_of_unanswered hs hc hr).1]⟩
      | some r => simp +contextual [answers_iff, hr, (act_of_answered hc hr).1]
    · rename_i hj
      have hna : ∀ id, ¬ Answers j id (h, s) := fun id =>
        not_answers_of_not_actor fun e => hj (Option.some.inj (e.symm.trans hs))
      exact table_kept hna hc'

theorem settling_of_settled (hp : ∀ x, h.actions.get? a = some x → ¬ x.isPending) :
    Settling h (.terminate a) := by
  have hna : ∀ k id, ¬ Answers k id (h, .terminate a) := fun k id =>
    not_answers_of_not_actor (by simp [Step.actor?])
  cases hx : h.actions.get? a with
  | none =>
    refine settling_of_same rfl ?_ ?_ hna <;>
      simp [perform, Outcome.quiet, Outcome.map, terminate, hx]
  | some x =>
    have hsettled : x.terminate = (x, [], false) := by simp [Action.terminate, hp x hx]
    refine settling_of_same rfl ?_ ?_ hna
    · simp [perform, Outcome.quiet, Outcome.map, terminate, hx, hsettled]
    · intro b
      by_cases hb : b = a
      · simp [perform, Outcome.quiet, Outcome.map, terminate, hx, hsettled, hb]
      · simp [perform, Outcome.quiet, Outcome.map, terminate, hx, hsettled, hb]

theorem settling_of_createAction (hn : h.Numbered) : Settling h .createAction := by
  have hna : ∀ k id, ¬ Answers k id (h, .createAction) := fun k id =>
    not_answers_of_not_actor (by simp [Step.actor?])
  have hfree : h.actions.get? h.next = none := by
    by_contra hx
    obtain ⟨x, hx⟩ := Option.ne_none_iff_exists'.1 hx
    exact absurd (hn.actions _ x hx) (Nat.lt_irrefl _)
  have hactions : ∀ a, (h.perform .createAction).host.actions.get? a =
      if a = h.next then some .fresh else h.actions.get? a := by
    intro a
    simp [perform, Outcome.quiet, Outcome.map, createAction]
  refine ⟨rfl, fun a x' hx _ => ?_, fun a => ?_, fun k c' hc' => .inr (table_kept (hna k) hc')⟩
  · rw [hactions] at hx
    split at hx
    · rename_i ha
      cases hx
      exact .inr ⟨ha, rfl⟩
    · exact .inl hx
  · simp only [Host.terminated, hactions]
    split
    · rename_i ha
      simp [ha, hfree, Action.isTerminated, Action.fresh]
    · rfl

theorem settling_perform (hn : h.Numbered) (ht : h.tracked? s = none)
    (hterm : ∀ a, s ≠ .terminate a) : Settling h s := by
  cases hs : s.actor? with
  | some k =>
    cases hc : h.clients.get? k with
    | some c => exact settling_of_actor hs hc
    | none =>
      have hsame := (perform_of_absent hs hc).1
      refine settling_of_same ht (by simp [hsame]) (by simp [hsame]) fun j id ⟨_, _, _, hm, _⟩ => ?_
      obtain ⟨hj, c, hc'⟩ := actor?_of_accepted? hm
      rw [Option.some.inj (hs.symm.trans hj), hc'] at hc
      cases hc
  | none =>
    have hna : ∀ j id, ¬ Answers j id (h, s) := fun j id =>
      not_answers_of_not_actor (by simp [hs])
    cases s with
    | createServices | openDocument | changeDocument | dropDocument =>
      exact settling_of_same ht (fun _ => rfl) (fun _ => rfl) hna
    | issue k i action =>
      obtain ⟨hclients, hactions⟩ := issue_of_untracked ht
      exact settling_of_same ht (by simp [hclients]) (by simp [hactions]) hna
    | createClient uri config services =>
      refine ⟨ht, fun a x' hx _ => .inl hx, fun a => rfl, fun k c' hc' => ?_⟩
      simp only [perform, Outcome.quiet, Outcome.map, createClient, SortedMap.get?_insert,
        Std.compare_eq_iff_eq] at hc'
      split at hc'
      · rename_i hk
        cases hc'
        exact .inl ⟨hk, rfl⟩
      · exact .inr (table_kept (hna k) hc')
    | dropClient j =>
      refine ⟨ht, fun a x' hx _ => .inl hx, fun a => rfl, fun k c' hc' => ?_⟩
      simp only [perform, Outcome.quiet, dropClient, SortedMap.get?_erase] at hc'
      split at hc'
      · cases hc'
      · exact .inr (table_kept (hna k) hc')
    | createAction => exact settling_of_createAction hn
    | resolve b result =>
      refine ⟨ht, fun a x' hx hp => ?_, fun a => ?_, fun k c' hc' => ?_⟩
      · exact .inl (pending_of_resolveAll ((get?_resolve h b result a).symm.trans hx) hp)
      · exact (congrArg _ (get?_resolve h b result a)).trans terminated_of_resolveAll
      · rw [show (h.perform (.resolve b result)).host.clients = h.clients from
          resolve_clients ..] at hc'
        exact .inr (table_kept (hna k) hc')
    | terminate b => exact (hterm b rfl).elim
    | _ => simp [Step.actor?] at hs

/-- What ties tables, callbacks and actions to the commands that have been issued. -/
structure Correlated (hist : List (Host × Step)) (h : Host) : Prop where
  known : ∀ k id a, Tracked hist k id a → k < h.next ∧ ∃ x, h.actions.get? a = some x
  counted : ∀ k id a c, Tracked hist k id a → h.clients.get? k = some c →
    ∃ s, h.services.get? c.services = some s ∧ id < s.commandIds.next
  unique : ∀ k id a b, Tracked hist k id a → Tracked hist k id b → a = b
  callbacks : ∀ a x, h.actions.get? a = some x → x.isPending →
    ∀ k id, ⟨k, id⟩ ∈ x.callbacks ↔ Tracked hist k id a
  tables : ∀ k c, h.clients.get? k = some c → ∀ id a,
    c.pending.get? id = some a ↔ Awaited hist k id a ∧ ¬ h.terminated a

theorem correlated_start : Correlated [] start where
  known := by simp [Tracked]
  counted := by simp [Tracked]
  unique := by simp [Tracked]
  callbacks := by simp [start]
  tables := by simp [start]

theorem known_perform (hn : h.Numbered) (hi : Correlated hist h) (ht : Tracked hist k id a) :
    k < (h.perform s).host.next ∧ ∃ x, (h.perform s).host.actions.get? a = some x := by
  obtain ⟨hk, x, hx⟩ := hi.known k id a ht
  obtain ⟨x', hx', -⟩ := action_perform hn s hx
  exact ⟨Nat.lt_of_lt_of_le hk (next_le_perform h s), x', hx'⟩

theorem counted_perform (hn : h.Numbered) (hi : Correlated hist h) (hup : CountsUp (h, s))
    (ht : Tracked hist k id a) {c' : Client}
    (hc' : (h.perform s).host.clients.get? k = some c') :
    ∃ v, (h.perform s).host.services.get? c'.services = some v ∧ id < v.commandIds.next := by
  have hold : ∃ c, h.clients.get? k = some c := by
    by_cases hs : s.actor? = some k
    · cases hc : h.clients.get? k with
      | some c => exact ⟨c, rfl⟩
      | none =>
        rw [(perform_of_absent hs hc).1, hc] at hc'
        cases hc'
    · rcases get?_perform_of_not_actor hs hc' with ⟨c, _, hc, -⟩ | ⟨hk, -⟩
      · exact ⟨c, hc⟩
      · exact absurd (hi.known k id a ht).1 (hk ▸ Nat.lt_irrefl _)
  obtain ⟨c, hc⟩ := hold
  obtain ⟨v, hv, hid⟩ := hi.counted k id a c ht hc
  have hsome : (h.services.get? c.services).isSome := by
    rw [hv]
    rfl
  obtain ⟨v', hv'⟩ := Option.isSome_iff_exists.1 (isSome_services_perform h s hsome)
  rw [services_perform hn hc hc']
  exact ⟨v', hv', UInt64.lt_of_lt_of_le hid (hup _ v v' hv hv')⟩

theorem correlated_settling (hn : h.Numbered) (hi : Correlated hist h) (hup : CountsUp (h, s))
    (hs : Settling h s) : Correlated (hist ++ [(h, s)]) (h.perform s).host := by
  have htracked : ∀ {k id a}, Tracked (hist ++ [(h, s)]) k id a ↔ Tracked hist k id a := by
    simp [tracked_concat, hs.tracked]
  have hawaited : ∀ {k id a}, Awaited (hist ++ [(h, s)]) k id a ↔
      Awaited hist k id a ∧ ¬ Answers k id (h, s) := by
    simp [awaited_concat, hs.tracked]
  constructor
  · intro k id a ht
    exact known_perform hn hi (htracked.1 ht)
  · intro k id a c' ht hc'
    exact counted_perform hn hi hup (htracked.1 ht) hc'
  · intro k id a b ha hb
    exact hi.unique k id a b (htracked.1 ha) (htracked.1 hb)
  · intro a x' hx hp k id
    rw [htracked]
    rcases hs.actions a x' hx hp with hold | ⟨ha, rfl⟩
    · exact hi.callbacks a x' hold hp k id
    · -- A new action has no callbacks, and no command can have been issued on its behalf.
      have hnot : ¬ Tracked hist k id a := by
        intro ht
        obtain ⟨y, hy⟩ := (hi.known k id a ht).2
        exact absurd (hn.actions a y hy) (ha ▸ Nat.lt_irrefl _)
      simp [Action.fresh, hnot]
  · intro k c' hc' id a
    rw [hawaited, hs.terminated]
    rcases hs.tables k c' hc' with ⟨hk, hempty⟩ | ⟨c, hc, htable⟩
    · -- A new client has an empty table, and it cannot have issued anything.
      have hnot : ¬ Awaited hist k id a := fun hw =>
        absurd (hi.known k id a hw.tracked).1 (hk ▸ Nat.lt_irrefl _)
      simp [hempty, hnot]
    · by_cases hans : Answers k id (h, s)
      · simp [(htable id).1 hans, hans]
      · rw [(htable id).2 hans, hi.tables k c hc id a]
        simp [hans]

theorem not_tracked_of_next (hi : Correlated hist h) (hc : h.clients.get? k = some c)
    (hid : id = (h.servicesOf c).commandIds.next) : ¬ Tracked hist k id a := by
  intro ht
  obtain ⟨v, hv, hlt⟩ := hi.counted k id a c ht hc
  have hnext : (h.servicesOf c).commandIds.next = v.commandIds.next := by simp [servicesOf, hv]
  rw [hid, hnext] at hlt
  exact UInt64.lt_irrefl _ hlt

theorem lt_next_of_countsUp {ids : CommandIds} (hup : CountsUp (h, s))
    (hid : id = (h.servicesOf c).commandIds.next) (hids : ids.next = id + 1)
    (hv : (h.perform s).host.services.get? c.services =
      some { h.servicesOf c with commandIds := ids }) : id < ids.next := by
  cases hold : h.services.get? c.services with
  | none =>
    have hfirst : id = CommandIds.firstId := by
      rw [hid, servicesOf, hold]
      rfl
    rw [hids, hfirst]
    decide
  | some v =>
    have hle := hup _ v _ hold hv
    -- The next id is above this one or equal to it, and it cannot be equal even after a wrap.
    have hnext : v.commandIds.next = id := by simp [hid, servicesOf, hold]
    rw [hnext] at hle
    refine UInt64.lt_of_le_of_ne hle fun heq => ?_
    rw [hids] at heq
    simp at heq

/-- A step that tracks command `id` of client `k` on behalf of the pending action `a`: there is one
entry more in the table and one callback more in the action. -/
structure Tracking (h : Host) (s : Step) (k : ClientId) (id : UInt64) (a : ActionId) (c : Client)
    (x : Action Waiting) : Prop where
  client : h.clients.get? k = some c
  action : h.actions.get? a = some x
  pending : x.isPending
  next : id = (h.servicesOf c).commandIds.next
  clients : ∀ j, (h.perform s).host.clients.get? j =
    if j = k then some { c with pending := c.pending.insert id a } else h.clients.get? j
  actions : ∀ b, (h.perform s).host.actions.get? b =
    if b = a then some { x with callbacks := x.callbacks ++ [⟨k, id⟩] } else h.actions.get? b
  terminated : ∀ b, (h.perform s).host.terminated b = h.terminated b

theorem tracking_perform (ht : h.tracked? s = some (k, id, a)) :
    ∃ c x, Tracking h s k id a c x := by
  obtain ⟨c, x, ids, hc, hx, hp, hid, -, hhost⟩ := tracked?_eq_some ht
  have hactions : ∀ b, (h.perform s).host.actions.get? b =
      if b = a then some { x with callbacks := x.callbacks ++ [⟨k, id⟩] }
      else h.actions.get? b := by
    intro b
    simp [hhost, issued, get?_track_actions, hx, hp, Action.onTerminate]
  refine ⟨c, x, hc, hx, hp, hid, fun j => ?_, hactions, fun b => ?_⟩
  · simp [hhost, issued, get?_track_clients, hx, hp]
  · simp only [Host.terminated, hactions]
    split
    · rename_i hb
      simp [hb, hx, Action.isTerminated]
    · rfl

theorem counted_tracked (hup : CountsUp (h, s)) (ht : h.tracked? s = some (k, id, a))
    (hc : h.clients.get? k = some c) :
    ∃ v, (h.perform s).host.services.get? c.services = some v ∧ id < v.commandIds.next := by
  obtain ⟨c', x, ids, hc', -, -, hid, hids, hhost⟩ := tracked?_eq_some ht
  obtain rfl := Option.some.inj (hc.symm.trans hc')
  have hservices : (h.perform s).host.services.get? c.services =
      some { h.servicesOf c with commandIds := ids } := by
    rw [hhost, issued_services]
    simp
  exact ⟨_, hservices, lt_next_of_countsUp hup hid hids hservices⟩

theorem correlated_tracked (hn : h.Numbered) (hi : Correlated hist h) (hup : CountsUp (h, s))
    (ht : h.tracked? s = some (k, id, a)) :
    Correlated (hist ++ [(h, s)]) (h.perform s).host := by
  obtain ⟨c, x, hs⟩ := tracking_perform ht
  have hfresh : ∀ b, ¬ Tracked hist k id b := fun b => not_tracked_of_next hi hs.client hs.next
  have htracked : ∀ {j i b}, Tracked (hist ++ [(h, s)]) j i b ↔
      Tracked hist j i b ∨ (j = k ∧ i = id ∧ b = a) := by
    intro j i b
    simp only [tracked_concat, ht, Option.some.injEq, Prod.mk.injEq, eq_comm]
  have hawaited : ∀ {j i b}, Awaited (hist ++ [(h, s)]) j i b ↔
      (j = k ∧ i = id ∧ b = a) ∨ Awaited hist j i b := by
    intro j i b
    simp only [awaited_concat, ht, Option.some.injEq, Prod.mk.injEq, not_answers_of_tracked ht,
      not_false_eq_true, and_true, eq_comm]
  constructor
  · intro j i b hb
    rcases htracked.1 hb with hb | ⟨rfl, -, rfl⟩
    · exact known_perform hn hi hb
    · exact ⟨Nat.lt_of_lt_of_le (hn.clients _ c hs.client) (next_le_perform h s),
        _, (hs.actions _).trans (if_pos rfl)⟩
  · intro j i b c' hb hc'
    rcases htracked.1 hb with hb | ⟨rfl, rfl, -⟩
    · exact counted_perform hn hi hup hb hc'
    · rw [services_perform hn hs.client hc']
      exact counted_tracked hup ht hs.client
  · intro j i b b' hb hb'
    rcases htracked.1 hb with hb | ⟨rfl, rfl, rfl⟩
    · rcases htracked.1 hb' with hb' | ⟨rfl, rfl, -⟩
      · exact hi.unique j i b b' hb hb'
      · exact (hfresh b hb).elim
    · rcases htracked.1 hb' with hb' | ⟨-, -, rfl⟩
      · exact (hfresh b' hb').elim
      · rfl
  · intro b y hy hyp j i
    rw [hs.actions] at hy
    rw [htracked]
    split at hy
    · rename_i hb
      subst hb
      cases hy
      have hold := hi.callbacks b x hs.action hs.pending j i
      simp [hold]
    · rename_i hb
      simp [hb, hi.callbacks b y hy hyp j i]
  · intro j c' hc' i b
    rw [hs.clients] at hc'
    rw [hawaited, hs.terminated]
    split at hc'
    · rename_i hj
      subst hj
      cases hc'
      simp only [SortedMap.get?_insert, Std.compare_eq_iff_eq]
      by_cases hii : i = id
      · -- The entry is new, and so is the id: nothing else has been tracked under it.
        subst hii
        have hnot : ¬ Awaited hist j i b := fun hw => hfresh b hw.tracked
        have hnew : ¬ h.terminated a := by
          have hp := hs.pending
          simp_all [terminated, hs.action, Action.isPending, Action.isTerminated]
        constructor
        · intro hab
          obtain rfl : a = b := by simpa using hab
          exact ⟨.inl (by simp), hnew⟩
        · rintro ⟨⟨-, -, rfl⟩ | hw, -⟩
          · simp
          · exact (hnot hw).elim
      · simp [hii, hi.tables j c hs.client i b]
    · rename_i hj
      simp [hj, hi.tables j c' hc' i b]

/-- Terminating a pending action runs its callbacks, which clear the tables. -/
structure Terminating (h : Host) (a : ActionId) (x : Action Waiting) : Prop where
  clients : ∀ k, (h.perform (.terminate a)).host.clients.get? k =
    (h.clients.get? k).map fun c => { c with pending := forgotten k x.callbacks c.pending }
  actions : ∀ b, (h.perform (.terminate a)).host.actions.get? b =
    if b = a then some ⟨.terminated, []⟩ else h.actions.get? b
  terminated : ∀ b, (h.perform (.terminate a)).host.terminated b = (b = a || h.terminated b)

theorem terminating_perform {x : Action Waiting} (hx : h.actions.get? a = some x)
    (hp : x.isPending) : Terminating h a x := by
  have hactions : ∀ b, (h.perform (.terminate a)).host.actions.get? b =
      if b = a then some ⟨.terminated, []⟩ else h.actions.get? b := by
    intro b
    simp [perform, Outcome.quiet, Outcome.map, terminate, hx, Action.terminate, hp, foldl_forget]
  refine ⟨fun k => ?_, hactions, fun b => ?_⟩
  · simp [perform, Outcome.quiet, Outcome.map, terminate, hx, Action.terminate, hp, foldl_forget]
  · by_cases hb : b = a <;> simp [Host.terminated, hactions, hb, Action.isTerminated]

theorem correlated_terminate (hn : h.Numbered) (hi : Correlated hist h)
    (hup : CountsUp (h, .terminate a)) {x : Action Waiting} (hx : h.actions.get? a = some x)
    (hp : x.isPending) :
    Correlated (hist ++ [(h, .terminate a)]) (h.perform (.terminate a)).host := by
  have hs := terminating_perform hx hp
  have htracked : ∀ {k id b}, Tracked (hist ++ [(h, .terminate a)]) k id b ↔
      Tracked hist k id b := by
    simp [tracked_concat, tracked?]
  have hawaited : ∀ {k id b}, Awaited (hist ++ [(h, .terminate a)]) k id b ↔
      Awaited hist k id b := by
    intro k id b
    have hna : ¬ Answers k id (h, .terminate a) :=
      not_answers_of_not_actor (by simp [Step.actor?])
    simp [awaited_concat, tracked?, hna]
  constructor
  · intro k id b hb
    exact known_perform hn hi (htracked.1 hb)
  · intro k id b c' hb hc'
    exact counted_perform hn hi hup (htracked.1 hb) hc'
  · intro k id b b' hb hb'
    exact hi.unique k id b b' (htracked.1 hb) (htracked.1 hb')
  · intro b y hy hyp k id
    rw [hs.actions] at hy
    split at hy
    · cases hy
      simp [Action.isPending] at hyp
    · rw [htracked]
      exact hi.callbacks b y hy hyp k id
  · intro k c' hc' id b
    rw [hs.clients, Option.map_eq_some_iff] at hc'
    obtain ⟨c, hc, rfl⟩ := hc'
    have hcallback := hi.callbacks a x hx hp k id
    rw [get?_forgotten, hawaited, hs.terminated]
    by_cases ha : Tracked hist k id a
    · -- The callback for this entry runs, and only the terminated action can be in it.
      have hsame : Awaited hist k id b → b = a := fun hw => hi.unique k id b a hw.tracked ha
      rw [if_pos (hcallback.2 ha)]
      simp only [reduceCtorEq, false_iff, not_and, not_not]
      intro hw
      simp [hsame hw]
    · have hne : Awaited hist k id b → b ≠ a := by
        rintro hw rfl
        exact ha hw.tracked
      rw [if_neg (mt hcallback.1 ha), hi.tables k c hc id b]
      refine and_congr_right fun hw => ?_
      simp [hne hw]

theorem settling_or_terminates (hn : h.Numbered) (ht : h.tracked? s = none) :
    (Settling h s ∧ ∀ a x, s = .terminate a → h.actions.get? a = some x → ¬ x.isPending) ∨
      ∃ a x, s = .terminate a ∧ h.actions.get? a = some x ∧ x.isPending := by
  by_cases hterm : ∃ a x, s = .terminate a ∧ h.actions.get? a = some x ∧ x.isPending
  · exact .inr hterm
  · left
    push Not at hterm
    refine ⟨?_, fun a x hs hx => by simpa using hterm a x hs hx⟩
    by_cases hs : ∃ a, s = .terminate a
    · obtain ⟨a, rfl⟩ := hs
      exact settling_of_settled fun x hx => hterm a x rfl hx
    · push Not at hs
      exact settling_perform hn ht hs

theorem correlated_perform (hn : h.Numbered) (hi : Correlated hist h) (hup : CountsUp (h, s)) :
    Correlated (hist ++ [(h, s)]) (h.perform s).host := by
  cases ht : h.tracked? s with
  | some t => exact correlated_tracked hn hi hup ht
  | none =>
    rcases settling_or_terminates hn ht with ⟨hs, -⟩ | ⟨a, x, rfl, hx, hp⟩
    · exact correlated_settling hn hi hup hs
    · exact correlated_terminate hn hi hup hx hp

theorem correlated_after (steps : List Step) (hup : ∀ e ∈ start.history steps, CountsUp e) :
    Correlated (start.history steps) (start.after steps) := by
  induction steps using List.reverseRecOn with
  | nil => exact correlated_start
  | append_singleton steps s ih =>
    rw [history_concat] at hup ⊢
    rw [after_concat]
    have hold := ih fun e he => hup e (List.mem_append_left _ he)
    exact correlated_perform (numbered_after steps).1 hold (hup _ (by simp))

/-- What becomes of the host `h` when client `k`, which was `c`, has accepted an answer to command
`id`. Only the entry for the id is taken out, and only the action in it is resolved, with the result
of the answer, if it is still pending. -/
structure Settles (h h' : Host) (k : ClientId) (c : Client) (id : UInt64) (result : Option Json) :
    Prop where
  table : h'.clients.get? k = some { c with pending := c.pending.erase id }
  others : ∀ j, j ≠ k → h'.clients.get? j = h.clients.get? j
  awaiting : ∀ a, c.pending.get? id = some a → ∃ x, h.actions.get? a = some x ∧
    h'.actions.get? a = some (if x.isPending then ⟨.resolved result, []⟩ else x)
  untouched : ∀ a, c.pending.get? id ≠ some a → h'.actions.get? a = h.actions.get? a
  unawaited : c.pending.get? id = none → ∀ j, h'.clients.get? j = h.clients.get? j

theorem settles_perform (hi : Correlated hist h) {r : CommandResponse}
    (hr : h.answered? k s = some r) :
    ∃ c, h.clients.get? k = some c ∧ Settles h (h.perform s).host k c r.id r.result := by
  obtain ⟨method, m, hm, -, -⟩ := answered?_eq_some.1 hr
  obtain ⟨hs, c, hc⟩ := actor?_of_accepted? hm
  have hclient := (act_of_answered hc hr).1
  have hclients := (acted_perform hs hc).1.clients
  have hactions : ∀ b, (h.perform s).host.actions.get? b =
      if c.pending.get? r.id = some b then (h.actions.get? b).map fun x => (x.resolve r.result).1
      else h.actions.get? b := by
    intro b
    rw [get?_perform_of_acted hs hc, hr]
  refine ⟨c, hc, ?_, ?_, ?_, ?_, ?_⟩
  · rw [hclients, if_pos rfl, hclient]
  · intro j hj
    rw [hclients, if_neg hj]
  · intro a ha
    -- What is in a table has been tracked, so the action exists.
    have hw := ((hi.tables k c hc r.id a).1 ha).1
    obtain ⟨x, hx⟩ := (hi.known k r.id a hw.tracked).2
    refine ⟨x, hx, ?_⟩
    rw [hactions, if_pos ha, hx, Option.map_some]
    unfold Action.resolve
    split <;> rfl
  · intro a ha
    rw [hactions, if_neg ha]
  · intro hnone j
    rw [hclients, hclient, SortedMap.erase_eq_self hnone]
    split
    · rename_i hj
      rw [hj, hc]
    · rfl

/-- The correlation of commands and answers along every run in which no source of ids starts over.
Between steps, a client's table holds the commands that it has issued on behalf of a pending action
and has not accepted an answer to since, less those whose action has been terminated. An action
that is not pending any more never changes. An accepted answer says which command it is about and
what the result is, and settles what waits for it and nothing else. -/
theorem commands_correlate (steps : List Step)
    (hup : ∀ e ∈ start.history steps, CountsUp e) :
    (∀ k c, (start.after steps).clients.get? k = some c → ∀ id a,
      c.pending.get? id = some a ↔
        Awaited (start.history steps) k id a ∧ ¬ (start.after steps).terminated a) ∧
    (∀ more a x, (start.after steps).actions.get? a = some x → x.isPending = false →
      (start.after (steps ++ more)).actions.get? a = some x) ∧
    ∀ k s method m, (start.after steps).accepted? k s = some (method, m) →
      (method = .commandSuccess ∨ method = .commandFailure) →
      ∃ c id result, (start.after steps).clients.get? k = some c ∧ CommandAnswer m id result ∧
        Settles (start.after steps) ((start.after steps).perform s).host k c id result := by
  have hi := correlated_after steps hup
  refine ⟨hi.tables, ?_, ?_⟩
  · intro more a x hx hp
    exact settled_after steps more hx hp
  · intro k s method m ha hmethod
    obtain ⟨r, hr⟩ := answered?_of_accepted ha hmethod
    obtain ⟨c, hc, hsettles⟩ := settles_perform hi hr
    obtain ⟨method', m', ha', hanswer⟩ := answered?_iff.1 ⟨r, hr, rfl, rfl⟩
    obtain ⟨rfl, rfl⟩ := Prod.mk.inj (Option.some.inj (ha.symm.trans ha'))
    exact ⟨c, r.id, r.result, hc, hanswer, hsettles⟩

def runAnswer : Json :=
  messageOf .commandSuccess [("id", .number (.ofUInt64 1000)), ("result", .bool true)]

theorem commandAnswer_runAnswer {id : UInt64} {result : Option Json}
    (h : CommandAnswer runAnswer id result) : id = 1000 ∧ result = some (.bool true) := by
  refine ⟨?_, (h.result (.bool true)).2 ⟨rfl, by simp⟩⟩
  obtain ⟨n, hn, hid⟩ := h.id
  obtain rfl : Number.ofUInt64 1000 = n := by
    have hsame : runAnswer.fields.get? "id" = some (.number (.ofUInt64 1000)) := rfl
    simpa using hsame.symm.trans hn
  have hword : (1000 : UInt64).toNat = 1000 := by decide
  have hvalue : (Number.ofUInt64 1000).value = 1000 := by
    norm_num [Number.value, Number.ofUInt64, hword]
  rw [hvalue] at hid
  rcases hid with hid | ⟨hid, -⟩
  · have hnat : 1000 = id.toNat := by exact_mod_cast hid
    exact UInt64.toNat.inj hnat.symm
  · norm_num at hid

/-- Two clients of one source of ids have issued commands. An answer to the first one has gone
astray to the second one, whose own command is still waiting. -/
def crossing : List Step :=
  let run : Invocation := ⟨"notes", "run", .null, none⟩
  [.createServices (.startingAt 1000) (.startingAt 1), .createClient "notes" .standard 0,
    .createClient "notes" .standard 0, .createAction, .createAction, .createAction,
    .receive 1 "" notesConsent, .receive 2 "" notesConsent, .issue 1 run (some 3),
    .issue 2 run (some 4), .issue 1 run (some 5), .receive 2 "" runAnswer]

/-- The answer reaches the client it is meant for, and another of its commands is given up. -/
def exchange : List Step := crossing ++ [.receive 1 "" runAnswer, .terminate 5]

theorem commands_correlate_exchange :
    (∀ e ∈ start.history exchange, CountsUp e) ∧
      Awaited (start.history exchange) 2 1001 4 ∧ ¬ Awaited (start.history exchange) 1 1000 3 ∧
      (∀ more, (start.after (exchange ++ more)).actions.get? 3 =
        some ⟨.resolved (some (.bool true)), []⟩) ∧
      ∀ more, (start.after (exchange ++ more)).actions.get? 5 = some ⟨.terminated, []⟩ := by
  have hup : ∀ e ∈ start.history exchange, CountsUp e := by decide +kernel
  have hearly : ∀ e ∈ start.history crossing, CountsUp e := by decide +kernel
  obtain ⟨htables, hsettled, -⟩ := commands_correlate exchange hup
  obtain ⟨-, -, hanswers⟩ := commands_correlate crossing hearly
  have hwaiting : ∃ c, (start.after exchange).clients.get? 2 = some c ∧
      c.pending.get? 1001 = some 4 := ⟨_, rfl, by decide +kernel⟩
  have hanswered : ∃ c, (start.after exchange).clients.get? 1 = some c ∧
      c.pending.get? 1000 = none := ⟨_, rfl, by decide +kernel⟩
  have hissued : ∃ c x, (start.after crossing).clients.get? 1 = some c ∧
      c.pending.get? 1000 = some 3 ∧ (start.after crossing).actions.get? 3 = some x ∧
      x.isPending = true := ⟨_, _, rfl, by decide +kernel, rfl, by decide +kernel⟩
  obtain ⟨c, hc, hpending⟩ := hwaiting
  obtain ⟨c', hc', hgone⟩ := hanswered
  obtain ⟨c'', x, hc'', hwaits, hx, hxp⟩ := hissued
  -- The answer is accepted, and what it says is what the action is resolved with.
  obtain ⟨b, id, result, hb, hanswer, hsettles⟩ :=
    hanswers 1 (.receive 1 "" runAnswer) .commandSuccess runAnswer rfl (.inl rfl)
  obtain rfl := Option.some.inj (hb.symm.trans hc'')
  obtain ⟨rfl, rfl⟩ := commandAnswer_runAnswer hanswer
  obtain ⟨y, hy, hresolved⟩ := hsettles.awaiting 3 hwaits
  obtain rfl := Option.some.inj (hx.symm.trans hy)
  rw [if_pos hxp] at hresolved
  refine ⟨hup, ((htables 2 c hc 1001 4).1 hpending).1, fun hw => ?_, fun more => ?_, fun more => ?_⟩
  · have hstill := (htables 1 c' hc' 1000 3).2 ⟨hw, by decide +kernel⟩
    rw [hgone] at hstill
    cases hstill
  · have hstays := settled_after (crossing ++ [.receive 1 "" runAnswer]) (.terminate 5 :: more)
      (by rw [after_concat]; exact hresolved) rfl
    simpa [exchange] using hstays
  · exact hsettled more 5 _ (by decide +kernel) rfl

end ExtensionHost.Host
