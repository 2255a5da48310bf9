import ExtensionHost.Proofs.Turn

namespace ExtensionHost.Host

variable {h : Host} {s : Step} {k : ClientId} {c : Client} {conn : Connection}

/-- What a step makes of an unregistered client: it stays unregistered, or it accepts its
registration and is connected as registration makes it. It has nothing to say. -/
structure Awaits (h : Host) (k : ClientId) (c : Client) (s : Step) : Prop where
  connection : (h.act c s).1.connection? = none ∨ ∃ conn m,
    (h.act c s).1.connection? = some conn ∧ Client.Connection.IsNew conn ∧
      h.accepted? k s = some (.registerSuccess, m)
  queue : ((h.boundDocument c).isSome → c.held = []) →
    Client.Queued (h.destination c s) c.held ((h.act c s).2.filterMap Effect.handled?)
      (h.act c s).1.held

theorem awaits_idle (hd : h.destination c s = (h.boundDocument c).map (·.1))
    (hconnection : (h.act c s).1.connection? = none) (hheld : (h.act c s).1.held = c.held)
    (hhandled : (h.act c s).2.filterMap Effect.handled? = []) : Awaits h k c s where
  connection := .inl hconnection
  queue := by
    intro hb
    rw [hd, hheld, hhandled]
    exact Client.queued_idle (by simpa using hb)

theorem awaits_of_inbound {message : Json} (hs : s.actor? = some k)
    (hc : h.clients.get? k = some c) (hconn : c.connection? = none)
    (hi : s.inbound? = some message) : Awaits h k c s := by
  obtain ⟨m, r, hh, hclient, hhandled, -, hacc⟩ := handled_of_inbound hs hc hi
  have hd := destination_of_inbound h c hi
  cases hh with
  | refused fault =>
    exact awaits_idle hd ((congrArg Client.connection? hclient).trans hconn)
      (congrArg Client.held hclient) hhandled
  | unregistrable | declined =>
    exact awaits_idle hd ((congrArg Client.connection? hclient).trans rfl)
      ((congrArg Client.held hclient).trans rfl) hhandled
  | @registered keys conn es _ hm hnew hes =>
    constructor
    · refine .inr ⟨conn, m, (congrArg Client.connection? hclient).trans rfl, hnew, ?_⟩
      simpa [hm, Except.toOption] using hacc
    · intro hb
      have hheld : (h.act c s).1.held = c.held := (congrArg Client.held hclient).trans rfl
      rw [hd, hheld, hhandled, handled_of_logs hes]
      exact Client.queued_idle (by simpa using hb)
  | accepted hsome =>
    rw [hconn] at hsome
    cases hsome

theorem awaits_act (hs : s.actor? = some k) (hc : h.clients.get? k = some c)
    (hconn : c.connection? = none) : Awaits h k c s := by
  have hfeeds := Client.feeds_of_unregistered hconn
  cases hi : s.inbound? with
  | some message => exact awaits_of_inbound hs hc hconn hi
  | none =>
    cases s with
    | receive => cases hi
    | receiveText client fresh text =>
      cases hr : readMessage text with
      | ok m => simp [Step.inbound?, hr, Except.toOption] at hi
      | error fault =>
        refine awaits_idle rfl ?_ ?_ ?_ <;>
          simp [act, Client.receiveText, hr, hconn, Effect.handled?]
    | requestRegistration client settings =>
      refine awaits_idle rfl ((c.requestRegistration_connection? settings).trans hconn) rfl ?_
      simp [act, Client.requestRegistration]
    | componentChange client component =>
      refine awaits_idle rfl hconn rfl ?_
      simp only [act]
      split <;> simp
    | disconnect client code message => exact awaits_idle rfl hconn rfl (by simp [act])
    | bind client d =>
      by_cases hdoc : h.documents.contains d
      · have hact : h.act c (.bind client d) = c.bind d := by simp [act, hdoc]
        have hdest : h.destination c (.bind client d) = some d := by simp [destination, hdoc]
        -- There are no feeds yet, so binding replays what is held and reports nothing.
        have hsilent : c.emitted .bind = [] := by simp [Client.emitted, hfeeds, SortedMap.empty]
        constructor
        · left
          rw [hact, Client.bind_connection?, hconn]
          rfl
        · intro _
          have hq := c.bind_queue d
          rw [hsilent, List.append_nil] at hq
          rw [hdest, hact]
          exact hq
      · refine awaits_idle ?_ ?_ ?_ ?_ <;> simp [act, destination, hdoc, hconn]
    | edit | discard => refine awaits_idle rfl ?_ ?_ ?_ <;> simp [act, hconn]
    | flush client name =>
      refine awaits_idle rfl ?_ ?_ ?_ <;> simp [act, Client.flush, hfeeds, hconn, Effect.handled?]
    | flushAll client =>
      obtain ⟨hclient, hhandled⟩ := c.reportFeeds_eq ((h.boundDocument c).map (·.1))
        Client.hasNews Feed.changeNotices
      simp only [hfeeds, SortedMap.empty, List.filterMap_nil, List.flatMap_nil,
        Client.deliver_nil] at hclient hhandled
      refine awaits_idle rfl ?_ ?_ hhandled
      · refine (congrArg Client.connection? hclient).trans ?_
        simp [hconn]
      · refine (congrArg Client.held hclient).trans ?_
        simp
    | _ => simp [Step.actor?] at hs

theorem queued_act (hs : s.actor? = some k) (hc : h.clients.get? k = some c)
    (hb : (h.boundDocument c).isSome → c.held = []) :
    Client.Queued (h.destination c s) (c.held ++ (h.turn? k s).elim [] c.emitted)
      ((h.act c s).2.filterMap Effect.handled?) (h.act c s).1.held := by
  cases hconn : c.connection? with
  | some conn => exact (turned_act hs hc hconn).queue hb
  | none =>
    rw [turn?_of_unregistered hc hconn, Option.elim_none, List.append_nil]
    exact (awaits_act hs hc hconn).queue hb

theorem boundDocument_act (hs : s.actor? = some k) (hc : h.clients.get? k = some c) :
    (((h.perform s).host.boundDocument (h.act c s).1).map (·.1)) = h.destination c s := by
  have hdocuments := (acted_perform hs hc).1.documents
  rw [boundDocument_fst]
  by_cases hbind : ∃ d, s = .bind k d ∧ h.documents.contains d
  · obtain ⟨d, rfl, hd⟩ := hbind
    have hdoc : (h.act c (.bind k d)).1.document = some d := by
      simp only [act, hd, if_true, Client.bind, (reportFeeds_frame ..).1, Client.deliver_fst]
    have hsome : ((h.perform (.bind k d)).host.documents.get? d).isSome := by
      rw [hdocuments]
      exact hd
    simp [hdoc, destination, hd, Option.filter, hsome]
  · have hdoc : (h.act c s).1.document = c.document := by
      rcases h.act_document c s with hdoc | ⟨j, d, rfl, hd, -⟩
      · exact hdoc
      · cases hs
        exact (hbind ⟨d, rfl, hd⟩).elim
    have hdest : h.destination c s = (h.boundDocument c).map (·.1) := by
      unfold destination
      split
      · rename_i j d
        cases hs
        rw [if_neg fun hd => hbind ⟨d, rfl, hd⟩]
      · rfl
    rw [hdest, boundDocument_fst, hdoc]
    simp only [hdocuments]

theorem bound_before (hn : h.Numbered) (hc : h.clients.get? k = some c) {c' : Client}
    (hc' : (h.perform s).host.clients.get? k = some c') (hconn : c.connection? = some conn)
    (hb : ((h.perform s).host.boundDocument c').isSome) :
    (h.boundDocument c).isSome ∨ h.turn? k s = some .bind := by
  by_cases hs : s.actor? = some k
  · obtain rfl := act_of_perform hs hc hc'
    have hdest := congrArg Option.isSome (boundDocument_act hs hc)
    rw [Option.isSome_map, hb] at hdest
    unfold destination at hdest
    split at hdest
    · rename_i j d
      split at hdest
      · rename_i hd
        right
        simp [turn?, hc, hs, hconn, hd]
      · left
        simpa using hdest.symm
    · left
      simpa using hdest.symm
  · left
    obtain ⟨p, rfl⟩ := get?_perform_of_idle hn hs hc hc'
    exact bound_of_perform hn hc rfl hb

theorem feeds_perform {t : Turn} (hc : h.clients.get? k = some c) (ht : h.turn? k s = some t) :
    ∃ c', (h.perform s).host.clients.get? k = some c' ∧
      ∀ name, c'.feeds.get? name = (c.feeds.get? name).map fun f => f.turned name t := by
  have hs := actor?_of_turn? ht
  cases hconn : c.connection? with
  | none =>
    rw [turn?_of_unregistered hc hconn] at ht
    cases ht
  | some conn =>
    obtain ⟨conn', hconn', -, hfeeds⟩ := (turned_act hs hc hconn).feeds
    refine ⟨_, get?_perform_of_actor hs hc, fun name => ?_⟩
    rw [Client.feeds_of_connection hconn', Client.feeds_of_connection hconn, hfeeds, ht]
    rfl

/-- The induction for what is true of one connection along every run: it holds of a new connection,
before which there has been no turn, and each step keeps it. -/
theorem connection_induction (k : ClientId)
    {P : List (Host × Step) → Host → Client → Connection → Prop}
    (registered : ∀ hist h s c c' conn m, h.Numbered → h.clients.get? k = some c →
      (h.perform s).host.clients.get? k = some c' → c'.connection? = some conn →
      Client.Connection.IsNew conn → h.accepted? k s = some (.registerSuccess, m) →
      (∀ e ∈ hist ++ [(h, s)], e.1.turn? k e.2 = none) →
      P (hist ++ [(h, s)]) (h.perform s).host c' conn)
    (step : ∀ hist h s c c' conn conn', h.Numbered → h.clients.get? k = some c →
      (h.perform s).host.clients.get? k = some c' → c.connection? = some conn →
      c'.connection? = some conn' → conn'.schema = conn.schema →
      (∀ name, conn'.feeds.get? name =
        (conn.feeds.get? name).map fun f => (h.turn? k s).elim f (f.turned name)) →
      P hist h c conn → P (hist ++ [(h, s)]) (h.perform s).host c' conn')
    (steps : List Step) {c : Client} {conn : Connection}
    (hc : (start.after steps).clients.get? k = some c) (hconn : c.connection? = some conn) :
    P (start.history steps) (start.after steps) c conn := by
  -- Before registration there is no turn, and this is what the induction has to carry until then.
  have hall := client_induction k
    (P := fun hist h c => (c.connection? = none → ∀ e ∈ hist, e.1.turn? k e.2 = none) ∧
      ∀ conn, c.connection? = some conn → P hist h c conn) ?_ ?_ steps hc
  · exact hall.2 conn hconn
  · intro hist h uri config services hnone
    refine ⟨fun _ e he => turn?_of_absent (hnone e he), fun conn hconn => ?_⟩
    cases hconn
  · intro hist h s c c' hn hc hc' ⟨hfree, hold⟩
    by_cases hs : s.actor? = some k
    · have hclient := act_of_perform hs hc hc'
      cases hconn : c.connection? with
      | some conn =>
        obtain ⟨conn', hconn', hschema, hfeeds⟩ := (turned_act hs hc hconn).feeds
        rw [hclient] at hconn'
        refine ⟨fun hnone => ?_, fun conn'' hconn'' => ?_⟩
        · rw [hconn'] at hnone
          cases hnone
        · obtain rfl : conn' = conn'' := Option.some.inj (hconn'.symm.trans hconn'')
          exact step hist h s c c' conn conn' hn hc hc' hconn hconn' hschema hfeeds
            (hold conn hconn)
      | none =>
        have hturns : ∀ e ∈ hist ++ [(h, s)], e.1.turn? k e.2 = none := by
          intro e he
          rcases List.mem_append.1 he with he | he
          · exact hfree hconn e he
          · obtain rfl := List.mem_singleton.1 he
            exact turn?_of_unregistered hc hconn
        refine ⟨fun _ => hturns, fun conn hconn' => ?_⟩
        rcases (awaits_act hs hc hconn).connection with hnone | ⟨conn', m, hsome, hnew, hacc⟩
        · rw [hclient, hconn'] at hnone
          cases hnone
        · rw [hclient, hconn'] at hsome
          cases hsome
          exact registered hist h s c c' conn m hn hc hc' hconn' hnew hacc hturns
    · have hturn := turn?_of_not_actor (h := h) hs
      obtain ⟨p, rfl⟩ := get?_perform_of_idle hn hs hc hc'
      refine ⟨fun hnone e he => ?_, fun conn hconn => ?_⟩
      · rcases List.mem_append.1 he with he | he
        · exact hfree hnone e he
        · obtain rfl := List.mem_singleton.1 he
          exact hturn
      · refine step hist h s c _ conn conn hn hc hc' hconn hconn rfl (fun name => ?_)
          (hold conn hconn)
        simp [hturn]

end ExtensionHost.Host
