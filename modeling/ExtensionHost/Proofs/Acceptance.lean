import ExtensionHost.Proofs.Delivery
import ExtensionHost.Proofs.History
import ExtensionHost.Proofs.Messages

namespace ExtensionHost

def Host.Step.inbound? : Host.Step → Option Json
  | .receive _ _ message => some message
  | .receiveText _ _ text => (readMessage text).toOption
  | _ => none

namespace Host

/-- The message that client `k` accepts in a step, as it is handled, with its method. -/
def accepted? (h : Host) (k : ClientId) (s : Step) : Option (Method × Json) :=
  match h.clients.get? k, s.inbound?, (h.perform s).result with
  | some c, some message, some (.accepted (.ok ())) =>
    if s.actor? = some k then
      let message := Client.evaluated (h.boundDocument c) message
      (c.methodOf message).toOption.map fun method => (method, message)
    else none
  | _, _, _ => none

/-- The answer to a command that client `k` accepts in a step. -/
def answered? (h : Host) (k : ClientId) (s : Step) : Option CommandResponse :=
  match h.accepted? k s with
  | some (.commandSuccess, message) => (CommandResponse.decode .commandSuccess message).toOption
  | some (.commandFailure, message) => (CommandResponse.decode .commandFailure message).toOption
  | _ => none

variable {h : Host} {s : Step} {k : ClientId} {c : Client}

theorem actor?_of_accepted? {m : Method × Json} (hm : h.accepted? k s = some m) :
    s.actor? = some k ∧ ∃ c, h.clients.get? k = some c := by
  unfold accepted? at hm
  split at hm
  · rename_i c _ hc _ _
    split at hm
    · rename_i hs
      exact ⟨hs, c, hc⟩
    · cases hm
  · cases hm

theorem accepted?_of_not_inbound (hi : s.inbound? = none) : h.accepted? k s = none := by
  simp [accepted?, hi]

theorem accepted?_eq {message : Json} {result : Except ClientFault Unit}
    (hs : s.actor? = some k) (hc : h.clients.get? k = some c) (hi : s.inbound? = some message)
    (hr : (h.perform s).result = some (.accepted result)) :
    h.accepted? k s = result.toOption.bind fun _ =>
      (c.methodOf (Client.evaluated (h.boundDocument c) message)).toOption.map
        (·, Client.evaluated (h.boundDocument c) message) := by
  cases result with
  | ok u => simp [accepted?, hc, hi, hr, hs, Except.toOption]
  | error fault => simp [accepted?, hc, hi, hr, Except.toOption]

theorem handled_of_inbound {message : Json} (hs : s.actor? = some k)
    (hc : h.clients.get? k = some c) (hi : s.inbound? = some message) :
    ∃ m r, Client.Handled c (h.servicesOf c) (h.boundDocument c) m r ∧
      (h.act c s).1 = r.client ∧
      (h.act c s).2.filterMap Effect.handled? = r.effects.filterMap Effect.handled? ∧
      (h.act c s).2.filterMap Effect.resolution? = r.effects.filterMap Effect.resolution? ∧
      h.accepted? k s =
        r.result.toOption.bind fun _ => (c.methodOf m).toOption.map (·, m) := by
  cases s with
  | receive client fresh m =>
    cases hs
    cases hi
    refine ⟨_, _, c.handled_handle _ _ fresh (Client.evaluated (h.boundDocument c) message), rfl,
      Client.receive_handled, Client.receive_resolutions, ?_⟩
    apply accepted?_eq rfl hc rfl
    simp [perform, receive, hc, accept, Outcome.map]
  | receiveText client fresh text =>
    cases hs
    cases hr : readMessage text with
    | error fault => simp [Step.inbound?, hr, Except.toOption] at hi
    | ok m =>
      refine ⟨_, _, c.handled_handle _ _ fresh (Client.evaluated (h.boundDocument c) m), ?_, ?_, ?_,
        ?_⟩
      · simp [act, Client.receiveText, hr]
      · simp [act, Client.receiveText, hr]
      · simp [act, Client.receiveText, hr]
      · apply accepted?_eq rfl hc (by simp [Step.inbound?, hr, Except.toOption])
        simp [perform, receiveText, hc, accept, Outcome.map, Client.receiveText, hr]
  | _ => simp [Step.inbound?] at hi

theorem resolutions_reportFeeds (c : Client) (bound : Option DocumentId) (due : Feed → Bool)
    (notices : Feed → List Notice) :
    (c.reportFeeds bound due notices).2.filterMap Effect.resolution? = [] := by
  simp [Client.reportFeeds]

theorem pending_reportFeeds (c : Client) (bound : Option DocumentId) (due : Feed → Bool)
    (notices : Feed → List Notice) :
    (c.reportFeeds bound due notices).1.pending = c.pending := by
  simp [Client.reportFeeds, Client.announceAll_fst, Client.deliver_fst]

theorem pending_of_not_inbound (h : Host) (c : Client) (hi : s.inbound? = none) :
    (h.act c s).1.pending = c.pending ∧
      (h.act c s).2.filterMap Effect.resolution? = [] := by
  cases s with
  | receive => cases hi
  | receiveText client fresh text =>
    cases hr : readMessage text with
    | ok m => simp [Step.inbound?, hr, Except.toOption] at hi
    | error fault => simp [act, Client.receiveText, hr, Effect.resolution?]
  | requestRegistration => simp [act, Client.requestRegistration]
  | bind client d =>
    simp only [act]
    split
    · simp only [Client.bind, List.filterMap_append, resolutions_reportFeeds, pending_reportFeeds,
        Client.resolutions_deliver, Client.deliver_fst]
      split <;> simp [Effect.resolution?]
    · exact ⟨rfl, rfl⟩
  | edit | discard => simp [act]
  | flush client name =>
    simp only [act, Client.flush]
    split <;> simp [Client.deliver_fst, Effect.resolution?]
  | flushAll => simp [act, Client.flushAll, resolutions_reportFeeds, pending_reportFeeds]
  | componentChange client component =>
    simp only [act]
    split <;> simp
  | disconnect => simp [act]
  | _ => exact ⟨rfl, rfl⟩

theorem answered?_eq_some {r : CommandResponse} :
    h.answered? k s = some r ↔ ∃ method m, h.accepted? k s = some (method, m) ∧
      (method = .commandSuccess ∨ method = .commandFailure) ∧
      CommandResponse.decode method m = .ok r := by
  constructor
  · intro hr
    unfold answered? at hr
    split at hr
    · rename_i m hm
      refine ⟨_, m, hm, .inl rfl, ?_⟩
      cases hd : CommandResponse.decode .commandSuccess m <;> simp_all [Except.toOption]
    · rename_i m hm
      refine ⟨_, m, hm, .inr rfl, ?_⟩
      cases hd : CommandResponse.decode .commandFailure m <;> simp_all [Except.toOption]
    · cases hr
  · rintro ⟨method, m, hm, rfl | rfl, hd⟩ <;> simp [answered?, hm, hd, Except.toOption]

theorem methodOf_of_accepted? {method : Method} {m : Json}
    (ha : h.accepted? k s = some (method, m)) : ∃ c : Client, c.methodOf m = .ok method := by
  unfold accepted? at ha
  split at ha
  · rename_i c message hc _ _
    split at ha
    · obtain ⟨method', hmethod, he⟩ := Option.map_eq_some_iff.1 ha
      cases he
      refine ⟨c, ?_⟩
      cases hm : c.methodOf (Client.evaluated (h.boundDocument c) message) <;>
        simp_all [Except.toOption]
    · cases ha
  · cases ha

theorem answered?_iff {id : UInt64} {result : Option Json} :
    (∃ r, h.answered? k s = some r ∧ r.id = id ∧ r.result = result) ↔
      ∃ method m, h.accepted? k s = some (method, m) ∧ CommandAnswer m id result := by
  constructor
  · rintro ⟨r, hr, hid, hresult⟩
    obtain ⟨method, m, ha, hanswer, hd⟩ := answered?_eq_some.1 hr
    obtain ⟨c, hm⟩ := methodOf_of_accepted? ha
    exact ⟨method, m, ha, (commandAnswer_iff hm).2 ⟨hanswer, r, hd, hid, hresult⟩⟩
  · rintro ⟨method, m, ha, hanswer⟩
    obtain ⟨c, hm⟩ := methodOf_of_accepted? ha
    obtain ⟨hanswer, r, hd, hid, hresult⟩ := (commandAnswer_iff hm).1 hanswer
    exact ⟨r, answered?_eq_some.2 ⟨method, m, ha, hanswer, hd⟩, hid, hresult⟩

theorem answered?_of_accepted {method : Method} {m : Json}
    (ha : h.accepted? k s = some (method, m))
    (hmethod : method = .commandSuccess ∨ method = .commandFailure) :
    ∃ r, h.answered? k s = some r := by
  obtain ⟨hs, c, hc⟩ := actor?_of_accepted? ha
  cases hi : s.inbound? with
  | none =>
    rw [accepted?_of_not_inbound hi] at ha
    cases ha
  | some message =>
    obtain ⟨m', receipt, hh, -, -, -, hacc⟩ := handled_of_inbound hs hc hi
    have hsome := hacc.symm.trans ha
    cases hh with
    | refused | unregistrable => cases hsome
    | declined _ hm' | registered _ hm' =>
      simp only [hm', Except.toOption, Option.map_some, Option.bind_some,
        Option.some.injEq, Prod.mk.injEq] at hsome
      obtain ⟨rfl, rfl⟩ := hsome
      simp at hmethod
    | accepted _ hm' hreact =>
      simp only [hm', Except.toOption, Option.map_some, Option.bind_some,
        Option.some.injEq, Prod.mk.injEq] at hsome
      obtain ⟨rfl, rfl⟩ := hsome
      cases hreact with
      | answered _ hd | unawaited _ hd => exact ⟨_, answered?_eq_some.2 ⟨_, _, ha, hmethod, hd⟩⟩
      | event hmethod' | updated hmethod' | reported hmethod' =>
        subst hmethod'
        simp at hmethod
      | component hmethod' => exact (hmethod.elim hmethod'.2.2.1 hmethod'.2.2.2).elim

/-- An answer takes the entry for its id out of the table, and the action found there is to be
resolved with the result. -/
theorem act_of_answered {r : CommandResponse} (hc : h.clients.get? k = some c)
    (hr : h.answered? k s = some r) :
    (h.act c s).1 = { c with pending := c.pending.erase r.id } ∧
      (h.act c s).2.filterMap Effect.resolution? =
        ((c.pending.get? r.id).map (·, r.result)).toList := by
  obtain ⟨method, m, hm, hmethod, hd⟩ := answered?_eq_some.1 hr
  have hs := (actor?_of_accepted? hm).1
  cases hi : s.inbound? with
  | none =>
    rw [accepted?_of_not_inbound hi] at hm
    cases hm
  | some message =>
    obtain ⟨m', receipt, hh, hclient, -, hres, hacc⟩ := handled_of_inbound hs hc hi
    rw [hacc] at hm
    rw [hclient, hres]
    cases hh with
    | refused | unregistrable => cases hm
    | declined _ hm' | registered _ hm' =>
      simp only [hm', Except.toOption, Option.map_some, Option.bind_some,
        Option.some.injEq, Prod.mk.injEq] at hm
      -- These answer a request to register, not a command.
      obtain ⟨rfl, rfl⟩ := hm
      simp at hmethod
    | accepted _ hm' hreact =>
      simp only [hm', Except.toOption, Option.map_some, Option.bind_some,
        Option.some.injEq, Prod.mk.injEq] at hm
      obtain ⟨rfl, rfl⟩ := hm
      cases hreact with
      | answered _ hd' _ ha =>
        obtain rfl : _ = r := Except.ok.inj (hd'.symm.trans hd)
        simp [ha, Effect.resolution?]
      | unawaited _ hd' _ ha =>
        obtain rfl : _ = r := Except.ok.inj (hd'.symm.trans hd)
        simp [ha, SortedMap.erase_eq_self, Effect.resolution?]
      | event hmethod' | updated hmethod' | reported hmethod' =>
        subst hmethod'
        simp at hmethod
      | component hmethod' => exact (hmethod.elim hmethod'.2.2.1 hmethod'.2.2.2).elim

theorem act_of_unanswered (hs : s.actor? = some k) (hc : h.clients.get? k = some c)
    (hr : h.answered? k s = none) :
    (h.act c s).1.pending = c.pending ∧
      (h.act c s).2.filterMap Effect.resolution? = [] := by
  cases hi : s.inbound? with
  | none => exact pending_of_not_inbound h c hi
  | some message =>
    obtain ⟨m', receipt, hh, hclient, -, hres, hacc⟩ := handled_of_inbound hs hc hi
    rw [hclient, hres]
    cases hh with
    | refused | unregistrable | declined => exact ⟨rfl, rfl⟩
    | registered _ _ _ hes => exact ⟨rfl, resolutions_of_logs hes⟩
    | accepted _ hm' hreact =>
      have hanswer : ∀ r, h.answered? k s ≠ some r := by simp [hr]
      simp only [hm', Except.toOption, Option.map_some] at hacc
      cases hreact with
      | answered hmethod hd | unawaited hmethod hd =>
        exact (hanswer _ (answered?_eq_some.2 ⟨_, _, hacc, hmethod, hd⟩)).elim
      | event => simp [Client.deliver_fst]
      | updated => simp [Effect.resolution?, Function.comp_def]
      | reported => simp [Client.deliver_fst, Effect.resolution?, Function.comp_def]
      | component _ hes => exact ⟨rfl, hes.2⟩

def blankPage : Document := ⟨[], fun _ => none, id⟩

def messageOf (method : Method) (fields : List (String × Json)) : Json :=
  .object ([("version", .string interfaceVersion), ("method", .string method.name)] ++ fields)

/-- The consent of the extension `notes` to register. It raises the event `opened` and shares the
list `tags`. -/
def notesConsent : Json :=
  messageOf .registerSuccess [("token", .string "secret"), ("schema", .object [
    ("type", .string "Schema"), ("version", .string "1.0"), ("uri", .string "notes"),
    ("events", .array [.object [("name", .string "opened")]]),
    ("liveData", .array [.object [("name", .string "tags"), ("type", .string "string[]"),
      ("events", .object [("add", .object [("eventHandler", .string "tagged")])])]])])]

def tagInsertion (tag : String) : Json :=
  .object [("type", .string "Insert"), ("index", .number .zero), ("item", .string tag)]

def tagUpdate (operations : List Json) : Json :=
  messageOf .liveDataUpdate [("name", .string "tags"), ("target", .string "notes"),
    ("operations", .array operations)]

end Host

end ExtensionHost
