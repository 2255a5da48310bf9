import ExtensionHost.Proofs.Correlation

namespace ExtensionHost.Host

variable {h : Host} {s : Step} {k : ClientId} {c : Client} {hist : List (Host × Step)}
  {id : UInt64} {a : ActionId} {x x' : Action Waiting} {result : Option Json}
  {source : Option (ClientId × UInt64)}

/-- A step resolves action `a`, which is pending, with a result: its owner does, or a client accepts
the answer to a command under which the action is in its table. The source is the command, or
nothing if it is the owner. -/
inductive Resolves (a : ActionId) (result : Option Json) :
    Option (ClientId × UInt64) → Host × Step → Prop
  | owner {h : Host} {x : Action Waiting} (hx : h.actions.get? a = some x) (hp : x.isPending) :
      Resolves a result none (h, .resolve a result)
  | answer {h : Host} {s : Step} {x : Action Waiting} {k : ClientId} {c : Client}
      {r : CommandResponse} (hx : h.actions.get? a = some x) (hp : x.isPending)
      (hr : h.answered? k s = some r) (hc : h.clients.get? k = some c)
      (ha : c.pending.get? r.id = some a) (hresult : r.result = result) :
      Resolves a result (some (k, r.id)) (h, s)

/-- What a step can make of action `a`, one case for each way to go. -/
inductive Becomes (h : Host) (s : Step) (a : ActionId) : Action Waiting → Prop
  | kept {x : Action Waiting} (hx : h.actions.get? a = some x) : Becomes h s a x
  | created (ha : a = h.next) : Becomes h s a .fresh
  | tracked {x : Action Waiting} {k : ClientId} {id : UInt64} (hx : h.actions.get? a = some x)
      (hp : x.isPending) (ht : h.tracked? s = some (k, id, a)) :
      Becomes h s a { x with callbacks := x.callbacks ++ [⟨k, id⟩] }
  | resolved {result : Option Json} {source : Option (ClientId × UInt64)}
      (hr : Resolves a result source (h, s)) : Becomes h s a ⟨.resolved result, []⟩
  | terminated {x : Action Waiting} (hx : h.actions.get? a = some x) (hp : x.isPending)
      (hs : s = .terminate a) : Becomes h s a ⟨.terminated, []⟩

theorem becomes_of_acted (hs : s.actor? = some k) (hc : h.clients.get? k = some c)
    (hx' : (h.perform s).host.actions.get? a = some x') : Becomes h s a x' := by
  rw [get?_perform_of_acted hs hc] at hx'
  split at hx'
  · rename_i r hr
    split at hx'
    · rename_i ha
      obtain ⟨x, hx, rfl⟩ := Option.map_eq_some_iff.1 hx'
      by_cases hp : x.isPending
      · rw [show (x.resolve r.result).1 = ⟨.resolved r.result, []⟩ by simp [Action.resolve, hp]]
        exact .resolved (.answer hx hp hr hc ha rfl)
      · rw [show (x.resolve r.result).1 = x by simp [Action.resolve, hp]]
        exact .kept hx
    · exact .kept hx'
  · exact .kept hx'

theorem becomes_of_tracked (ht : h.tracked? s = some (k, id, a)) {b : ActionId}
    (hx' : (h.perform s).host.actions.get? b = some x') : Becomes h s b x' := by
  obtain ⟨c, x, hs⟩ := tracking_perform ht
  rw [hs.actions] at hx'
  split at hx'
  · rename_i hb
    subst hb
    cases hx'
    exact .tracked hs.action hs.pending ht
  · exact .kept hx'

theorem becomes_perform (hx' : (h.perform s).host.actions.get? a = some x') :
    Becomes h s a x' := by
  cases ht : h.tracked? s with
  | some t => exact becomes_of_tracked ht hx'
  | none =>
    have hissue : ∀ k i action, s = .issue k i action →
        (h.perform s).host.actions = h.actions := by
      rintro k i action rfl
      exact (issue_of_untracked ht).2
    have hacted : ∀ k c, s.actor? = some k → h.clients.get? k = some c → Becomes h s a x' :=
      fun k c hs hc => becomes_of_acted hs hc hx'
    have hp := h.performed s
    generalize (h.perform s).host = h' at hp hx' hissue
    cases hp with
    | same | services | client | clientDropped | document | documentChanged | documentDropped =>
      exact .kept hx'
    | acted hs hc => exact hacted _ _ hs hc
    | action =>
      simp only [createAction, SortedMap.get?_insert, Std.compare_eq_iff_eq] at hx'
      split at hx'
      · rename_i ha
        cases hx'
        exact .created ha
      · exact .kept hx'
    | issued i action =>
      rw [hissue _ _ _ rfl] at hx'
      exact .kept hx'
    | @resolved b x result hx =>
      simp only [SortedMap.get?_insert, Std.compare_eq_iff_eq] at hx'
      split at hx'
      · rename_i ha
        subst ha
        cases hx'
        unfold Action.resolve
        split
        · rename_i hp
          exact .resolved (.owner hx hp)
        · exact .kept hx
      · exact .kept hx'
    | @terminated b x hx =>
      simp only [SortedMap.get?_insert, Std.compare_eq_iff_eq] at hx'
      split at hx'
      · rename_i ha
        subst ha
        cases hx'
        unfold Action.terminate
        split
        · rename_i hp
          exact .terminated hx hp rfl
        · exact .kept hx
      · exact .kept hx'

theorem Resolves.perform (hr : Resolves a result source (h, s)) :
    (h.perform s).host.actions.get? a = some ⟨.resolved result, []⟩ := by
  cases hr with
  | @owner _ x hx hp =>
    have hnew : (h.perform (.resolve a result)).host.actions.get? a =
        (resolveAll h.actions [(a, result)]).get? a := get?_resolve h a result a
    rw [hnew]
    simp [resolveAll, hx, Action.resolve, hp]
  | @answer _ _ x k c r hx hp hr hc ha hresult =>
    obtain ⟨_, _, hm, -⟩ := answered?_eq_some.1 hr
    rw [get?_perform_of_acted (actor?_of_accepted? hm).1 hc, hr]
    simp [ha, hx, Action.resolve, hp, hresult]

theorem Resolves.entry {b : ActionId} (hr : Resolves a result source (h, s))
    (hc : h.clients.get? k = some c) (hb : c.pending.get? id = some b)
    (hsource : source ≠ some (k, id)) :
    ∃ c', (h.perform s).host.clients.get? k = some c' ∧ c'.pending.get? id = some b := by
  cases hr with
  | owner =>
    refine ⟨c, ?_, hb⟩
    rw [← hc, ← resolve_clients h a result]
    rfl
  | @answer _ _ _ j d r _ _ hr hd =>
    obtain ⟨_, _, hm, -⟩ := answered?_eq_some.1 hr
    rw [(acted_perform (actor?_of_accepted? hm).1 hd).1.clients, (act_of_answered hd hr).1]
    by_cases hk : k = j
    · subst hk
      obtain rfl := Option.some.inj (hc.symm.trans hd)
      have hid : r.id ≠ id := by
        rintro rfl
        exact hsource rfl
      exact ⟨_, if_pos rfl, by simp [hid, hb]⟩
    · exact ⟨c, (if_neg hk).trans hc, hb⟩

/-- Where an entry of a table comes from: the step tracks it, or else it has been there before and
the step neither answers it nor runs a callback for it. -/
theorem entry_perform (hn : h.Numbered) {c' : Client}
    (hc' : (h.perform s).host.clients.get? k = some c') (ha : c'.pending.get? id = some a) :
    h.tracked? s = some (k, id, a) ∨ ∃ c, h.clients.get? k = some c ∧
      c.pending.get? id = some a ∧ ¬ Answers k id (h, s) ∧
      ∀ b x, s = .terminate b → h.actions.get? b = some x → x.isPending →
        ⟨k, id⟩ ∉ x.callbacks := by
  cases ht : h.tracked? s with
  | some t =>
    obtain ⟨j, i, b⟩ := t
    obtain ⟨c, x, hs⟩ := tracking_perform ht
    have hna : ¬ Answers k id (h, s) := not_answers_of_tracked ht
    have hterm : ∀ b, s ≠ .terminate b := by
      rintro b rfl
      cases ht
    rw [hs.clients] at hc'
    split at hc'
    · rename_i hk
      subst hk
      cases hc'
      simp only [SortedMap.get?_insert, Std.compare_eq_iff_eq] at ha
      split at ha
      · rename_i hid
        cases ha
        exact .inl (by rw [hid])
      · exact .inr ⟨c, hs.client, ha, hna, fun b _ hb => (hterm b hb).elim⟩
    · exact .inr ⟨c', hc', ha, hna, fun b _ hb => (hterm b hb).elim⟩
  | none =>
    right
    rcases settling_or_terminates hn ht with ⟨hs, hterm⟩ | ⟨b, x, rfl, hx, hp⟩
    · rcases hs.tables k c' hc' with ⟨-, hempty⟩ | ⟨c, hc, htable⟩
      · simp [hempty] at ha
      · have hna : ¬ Answers k id (h, s) := by
          intro hans
          rw [(htable id).1 hans] at ha
          cases ha
        refine ⟨c, hc, (htable id).2 hna ▸ ha, hna, fun b x hs hx hp => ?_⟩
        exact (hterm b x hs hx hp).elim
    · have hs := terminating_perform hx hp
      rw [hs.clients, Option.map_eq_some_iff] at hc'
      obtain ⟨c, hc, rfl⟩ := hc'
      rw [get?_forgotten] at ha
      split at ha
      · cases ha
      · rename_i hmem
        refine ⟨c, hc, ha, not_answers_of_not_actor (by simp [Step.actor?]), ?_⟩
        intro b' x' hb hx' _
        cases hb
        rw [hx] at hx'
        cases hx'
        exact hmem

/-- What ties entries, actions and callbacks together, whatever ids are given out. -/
structure Accounted (hist : List (Host × Step)) (h : Host) : Prop where
  entries : ∀ k c id a, h.clients.get? k = some c → c.pending.get? id = some a →
    ∃ x, h.actions.get? a = some x ∧
      (x.isPending ∧ ⟨k, id⟩ ∈ x.callbacks ∨ ∃ result, x = ⟨.resolved result, []⟩)
  resolved : ∀ a result, h.actions.get? a = some ⟨.resolved result, []⟩ ↔
    ∃ e ∈ hist, ∃ source, Resolves a result source e
  answered : ∀ e ∈ hist, ∀ k id a result c, Resolves a result (some (k, id)) e →
    h.clients.get? k = some c → c.pending.get? id ≠ some a

theorem accounted_start : Accounted [] start where
  entries := by simp [start]
  resolved := by simp [start]
  answered := by simp

theorem entries_perform (hn : h.Numbered) (hi : Accounted hist h) {c' : Client}
    (hc' : (h.perform s).host.clients.get? k = some c') (ha : c'.pending.get? id = some a) :
    ∃ x, (h.perform s).host.actions.get? a = some x ∧
      (x.isPending ∧ ⟨k, id⟩ ∈ x.callbacks ∨ ∃ result, x = ⟨.resolved result, []⟩) := by
  rcases entry_perform hn hc' ha with ht | ⟨c, hc, hold, -, hcallback⟩
  · obtain ⟨c, x, hs⟩ := tracking_perform ht
    exact ⟨_, (hs.actions a).trans (if_pos rfl), .inl ⟨hs.pending, by simp⟩⟩
  · obtain ⟨x, hx, hstate⟩ := hi.entries k c id a hc hold
    obtain ⟨x', hx', hsettled⟩ := action_perform hn s hx
    refine ⟨x', hx', ?_⟩
    rcases hstate with ⟨hp, hmem⟩ | ⟨result, rfl⟩
    · cases becomes_perform hx' with
      | kept hsame =>
        obtain rfl : x = x' := Option.some.inj (hx.symm.trans hsame)
        exact .inl ⟨hp, hmem⟩
      | created ha => exact absurd (hn.actions a x hx) (ha ▸ Nat.lt_irrefl _)
      | tracked hsame =>
        obtain rfl := Option.some.inj (hx.symm.trans hsame)
        exact .inl ⟨hp, List.mem_append_left _ hmem⟩
      | @resolved result => exact .inr ⟨result, rfl⟩
      | terminated _ _ hs => exact (hcallback a x hs hx hp hmem).elim
    · exact .inr ⟨result, hsettled rfl⟩

theorem resolved_perform (hn : h.Numbered) (hi : Accounted hist h) :
    (h.perform s).host.actions.get? a = some ⟨.resolved result, []⟩ ↔
      ∃ e ∈ hist ++ [(h, s)], ∃ source, Resolves a result source e := by
  constructor
  · intro hx'
    have hp := becomes_perform hx'
    generalize hx : (⟨.resolved result, []⟩ : Action Waiting) = x' at hp
    cases hp with
    | kept hold =>
      subst hx
      obtain ⟨e, he, hr⟩ := (hi.resolved a result).1 hold
      exact ⟨e, List.mem_append_left _ he, hr⟩
    | created => cases hx
    | tracked _ hp =>
      obtain ⟨hstate, -⟩ := Action.mk.inj hx
      simp [Action.isPending, ← hstate] at hp
    | resolved hr =>
      cases hx
      exact ⟨_, by simp, _, hr⟩
    | terminated => cases hx
  · rintro ⟨e, he, source, hr⟩
    rcases List.mem_append.1 he with he | he
    · obtain ⟨x', hx', hsame⟩ := action_perform hn s ((hi.resolved a result).2 ⟨e, he, source, hr⟩)
      rw [hx', hsame rfl]
    · obtain rfl := List.mem_singleton.1 he
      exact hr.perform

theorem accounted_perform (hn : h.Numbered) (hi : Accounted hist h) :
    Accounted (hist ++ [(h, s)]) (h.perform s).host where
  entries k c' id a hc' ha := entries_perform hn hi hc' ha
  resolved a result := resolved_perform hn hi
  answered e he k id a result c' hr hc' ha := by
    rcases List.mem_append.1 he with he | he
    · rcases entry_perform hn hc' ha with ht | ⟨c, hc, hold, -⟩
      · -- Only a pending action is tracked, and this one has been resolved before.
        have hx := (hi.resolved a result).2 ⟨e, he, _, hr⟩
        obtain ⟨_, x, hs⟩ := tracking_perform ht
        obtain rfl := Option.some.inj (hx.symm.trans hs.action)
        cases hs.pending
      · exact hi.answered e he k id a result c hr hc hold
    · obtain rfl := List.mem_singleton.1 he
      have hans : Answers k id (h, s) := by
        cases hr with
        | answer _ _ hr => exact answers_iff.2 ⟨_, hr, rfl⟩
      rcases entry_perform hn hc' ha with ht | ⟨_, -, -, hna, -⟩
      · exact not_answers_of_tracked ht hans
      · exact hna hans

theorem accounted_after (steps : List Step) :
    Accounted (start.history steps) (start.after steps) := by
  induction steps using List.reverseRecOn with
  | nil => exact accounted_start
  | append_singleton steps s ih =>
    rw [history_concat, after_concat]
    exact accounted_perform (numbered_after steps).1 ih

def Unresolved (hist : List (Host × Step)) (a : ActionId) : Prop :=
  ∀ e ∈ hist, ∀ result source, ¬ Resolves a result source e

/-- How the action `a` that client `k` has in its table under `id` can stand. Either it is pending,
and its termination will take the entry out. Or it has been resolved past this command, by its owner
or by the answer to another command, and then no callback is left. -/
inductive Stands (hist : List (Host × Step)) (k : ClientId) (id : UInt64) (a : ActionId) :
    Action Waiting → Prop
  | outstanding {x : Action Waiting} (hp : x.isPending) (hmem : ⟨k, id⟩ ∈ x.callbacks)
      (hnone : Unresolved hist a) : Stands hist k id a x
  | passed {result : Option Json} {source : Option (ClientId × UInt64)} {e : Host × Step}
      (he : e ∈ hist) (hr : Resolves a result source e) (hs : source ≠ some (k, id)) :
      Stands hist k id a ⟨.resolved result, []⟩

theorem Accounted.stands (hi : Accounted hist h) (hc : h.clients.get? k = some c)
    (ha : c.pending.get? id = some a) :
    ∃ x, h.actions.get? a = some x ∧ Stands hist k id a x := by
  obtain ⟨x, hx, ⟨hp, hmem⟩ | ⟨result, rfl⟩⟩ := hi.entries k c id a hc ha
  · refine ⟨x, hx, .outstanding hp hmem fun e he result source hr => ?_⟩
    rw [(hi.resolved a result).2 ⟨e, he, source, hr⟩] at hx
    cases hx
    cases hp
  · obtain ⟨e, he, source, hr⟩ := (hi.resolved a result).1 hx
    refine ⟨_, hx, .passed he hr ?_⟩
    rintro rfl
    exact hi.answered e he k id a result c hr hc ha

theorem Stands.isPending_iff (hs : Stands hist k id a x) : x.isPending ↔ Unresolved hist a := by
  cases hs with
  | outstanding hp _ hnone => exact iff_of_true hp hnone
  | passed he hr => exact iff_of_false (by simp [Action.isPending]) fun hnone => hnone _ he _ _ hr

/-- The entries of a client's table whose action is pending. -/
def outstanding (h : Host) (c : Client) : List (UInt64 × ActionId) :=
  c.pending.entries.filter fun e => (h.actions.get? e.2).any (·.isPending)

theorem pendingCommands_eq_iff : c.pendingCommands = (h.outstanding c).length ↔
    ∀ id a, c.pending.get? id = some a → (h.actions.get? a).any (·.isPending) := by
  rw [Client.pendingCommands, SortedMap.size, outstanding, eq_comm,
    List.length_filter_eq_length_iff]
  constructor
  · intro hall id a ha
    exact hall (id, a) (SortedMap.get?_eq_some_iff_mem.1 ha)
  · rintro hall ⟨id, a⟩ he
    exact hall id a (SortedMap.get?_eq_some_iff_mem.2 he)

/-- What the table of a client holds between the steps of any run. The action of a command that the
client takes for pending exists and has not been terminated: it is pending, or it has been resolved
past the command. A step that resolves an action leaves all entries in the table but the one that it
answers. So the client counts outstanding commands only exactly if nothing has resolved an action
that is in its table. -/
theorem pending_commands_stand (steps : List Step) {c : Client}
    (hc : (start.after steps).clients.get? k = some c) :
    (∀ id, c.commandPending id → ∃ a x, c.pending.get? id = some a ∧
      (start.after steps).actions.get? a = some x ∧ Stands (start.history steps) k id a x) ∧
    (∀ s a result source, Resolves a result source (start.after steps, s) →
      ∀ id b, c.pending.get? id = some b → source ≠ some (k, id) →
        ∃ c', ((start.after steps).perform s).host.clients.get? k = some c' ∧
          c'.pending.get? id = some b) ∧
    (c.pendingCommands = ((start.after steps).outstanding c).length ↔
      ∀ id a, c.pending.get? id = some a → Unresolved (start.history steps) a) := by
  have hi := accounted_after steps
  refine ⟨?_, fun s a result source hr id b hb hsource => hr.entry hc hb hsource, ?_⟩
  · intro id hid
    obtain ⟨a, ha⟩ := Option.isSome_iff_exists.1 hid
    obtain ⟨x, hx, hs⟩ := hi.stands hc ha
    exact ⟨a, x, ha, hx, hs⟩
  · refine pendingCommands_eq_iff.trans (forall₃_congr fun id a ha => ?_)
    obtain ⟨x, hx, hs⟩ := hi.stands hc ha
    rw [hx, Option.any_some]
    exact hs.isPending_iff

/-- One action is passed to two commands, and another one to a third. The answer to the second
command comes first. -/
def overtaken : List Step :=
  let run : Invocation := ⟨"notes", "run", .null, none⟩
  let answer := messageOf .commandSuccess
    [("id", .number (.ofUInt64 1001)), ("result", .bool true)]
  [.createServices (.startingAt 1000) (.startingAt 1), .createClient "notes" .standard 0,
    .createAction, .createAction, .receive 1 "" notesConsent, .issue 1 run (some 2),
    .issue 1 run (some 2), .issue 1 run (some 3), .receive 1 "" answer]

/-- The first command stays in the table, although its action has been resolved. -/
theorem pending_commands_stand_overtaken :
    ∃ c, (start.after overtaken).clients.get? 1 = some c ∧ c.commandPending 1000 ∧
      c.commandPending 1002 ∧ ¬ Unresolved (start.history overtaken) 2 ∧
      Unresolved (start.history overtaken) 3 ∧
      c.pendingCommands ≠ ((start.after overtaken).outstanding c).length := by
  have hclient : ((start.after overtaken).clients.get? 1).any fun c =>
      c.pending.get? 1000 = some 2 ∧ c.pending.get? 1002 = some 3 := by decide +kernel
  obtain ⟨c, hc, hentries⟩ := (Option.any_eq_true ..).1 hclient
  obtain ⟨hfirst, hthird⟩ := of_decide_eq_true hentries
  have hresolved : (start.after overtaken).actions.get? 2 =
      some ⟨.resolved (some (.bool true)), []⟩ := by decide +kernel
  have hpending : ((start.after overtaken).actions.get? 3).any (·.isPending) := by decide +kernel
  have hin : ∀ {id a}, c.pending.get? id = some a → c.commandPending id := fun ha => by
    simp [Client.commandPending, SortedMap.contains, ha]
  obtain ⟨hstand, -, hcount⟩ := pending_commands_stand overtaken hc
  have hpast : ¬ Unresolved (start.history overtaken) 2 := by
    intro hnone
    obtain ⟨a, x, ha, hx, hs⟩ := hstand 1000 (hin hfirst)
    obtain rfl : a = 2 := by simpa [hfirst] using ha.symm
    obtain rfl := Option.some.inj (hresolved.symm.trans hx)
    cases hs.isPending_iff.2 hnone
  have hopen : Unresolved (start.history overtaken) 3 := by
    obtain ⟨a, x, ha, hx, hs⟩ := hstand 1002 (hin hthird)
    obtain rfl : a = 3 := by simpa [hthird] using ha.symm
    exact hs.isPending_iff.1 (by simpa [hx] using hpending)
  exact ⟨c, hc, hin hfirst, hin hthird, hpast, hopen,
    fun heq => hpast (hcount.1 heq 1000 2 hfirst)⟩

/-- An action is passed to a command, and its owner resolves it. -/
def preempted : List Step :=
  [.createServices (.startingAt 1000) (.startingAt 1), .createClient "notes" .standard 0,
    .createAction, .receive 1 "" notesConsent, .issue 1 ⟨"notes", "run", .null, none⟩ (some 2),
    .resolve 2 none]

/-- A resolution by the owner leaves the entry in the table, too. -/
theorem resolved_command_pending :
    ¬ ∀ steps k c, (start.after steps).clients.get? k = some c → ∀ id a,
      c.pending.get? id = some a → ((start.after steps).actions.get? a).any (·.isPending) := by
  intro hall
  have hclient : ((start.after preempted).clients.get? 1).any fun c =>
      c.pending.get? 1000 = some 2 := by decide +kernel
  obtain ⟨c, hc, ha⟩ := (Option.any_eq_true ..).1 hclient
  have hpending := hall preempted 1 c hc 1000 2 (of_decide_eq_true ha)
  have hresolved : ¬ ((start.after preempted).actions.get? 2).any (·.isPending) := by
    decide +kernel
  exact hresolved hpending

end ExtensionHost.Host
