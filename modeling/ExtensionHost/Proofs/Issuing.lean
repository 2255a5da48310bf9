import Mathlib.Algebra.Group.Nat.Defs
import Mathlib.Data.List.Range
import ExtensionHost.Proofs.Correlation
import ExtensionHost.Proofs.Refusal

namespace ExtensionHost

def commandId? (message : Json) : Option ℕ :=
  match message.fields.get? "method", message.fields.get? "id" with
  | some (.string "Command"), some (.number n) => n.toUInt64?.map (·.toNat)
  | _, _ => none

theorem commandId?_encode (r : CommandRequest) : commandId? r.encode = some r.id.toNat := by
  obtain ⟨token, id, name, target, payload, resourceId⟩ := r
  have hword : (Number.ofUInt64 id).toUInt64? = some id := by
    simp [Number.ofUInt64, Number.toUInt64?]
  cases resourceId <;>
    simp [commandId?, CommandRequest.encode, Json.fields, Json.asObject?_ofObject, Method.name,
      hword]

namespace Client

variable {c : Client} {ids : CommandIds} {i : Invocation} {id : UInt64} {message : Json}

/-- A command that a client can issue: it is one of its own, it has a name, and the resource, if
any, is named by a string. -/
structure CanIssue (c : Client) (i : Invocation) : Prop where
  uri : i.uri = c.uri
  name : i.name ≠ ""
  resource : ∀ v, i.resourceId = some v → v = .null ∨ ∃ s, v = .string s

theorem resourceIdOf_eq_ok {v : Option Json} :
    (∃ r, resourceIdOf v = .ok r) ↔ ∀ w, v = some w → w = .null ∨ ∃ s, w = .string s := by
  cases v with
  | none => simp [resourceIdOf]
  | some w => cases w <;> simp [resourceIdOf]

theorem checkInvocation_eq_ok : (∃ r, c.checkInvocation i = .ok r) ↔ c.CanIssue i := by
  unfold checkInvocation
  rw [exists_bind_eq_ok]
  constructor
  · rintro ⟨_, huri, hrest⟩
    split at hrest
    · obtain ⟨r, hr⟩ := hrest
      simp [bind_eq_ok, throw_ne_ok] at hr
    · rename_i hname
      exact ⟨checkTarget_eq_ok.1 huri, by simpa using hname, resourceIdOf_eq_ok.1 hrest⟩
  · rintro ⟨huri, hname, hresource⟩
    refine ⟨(), checkTarget_eq_ok.2 huri, ?_⟩
    rw [if_neg (by simpa using hname)]
    exact resourceIdOf_eq_ok.2 hresource

section Refusals

variable {bound : Option (DocumentId × Document)} {method : Method} {last : UInt64}

theorem checkTarget_ne_unissued {target : String} :
    ¬ c.checkTarget target = .error (.unissuedId id last) := by
  unfold checkTarget
  split <;> simp

variable {p : Progress}

theorem receiveResponse_eq_unissued :
    ((receiveResponse ids method message).runFrom p).1 = .error (.unissuedId id last) ↔
      ∃ r, CommandResponse.decode method message = .ok r ∧ ids.lastIssued < r.id ∧ r.id = id ∧
        ids.lastIssued = last := by
  rw [runFrom_receiveResponse]
  cases CommandResponse.decode method message with
  | error fault => simp
  | ok r =>
    dsimp only
    split
    · rename_i hid
      simp [hid]
    · rename_i hid
      split <;> simp [hid]

theorem receiveEvent_ne_unissued {bound : Option DocumentId} :
    ((receiveEvent bound message).runFrom p).1 ≠ .error (.unissuedId id last) := by
  rw [runFrom_receiveEvent]
  split
  · simp
  · split
    · simp
    · split
      · rename_i fault ht
        simp only [ne_eq, Except.error.injEq]
        rintro rfl
        exact checkTarget_ne_unissued ht
      · simp

theorem receiveLiveUpdate_ne_unissued {bound : Option DocumentId} :
    ((receiveLiveUpdate bound message).runFrom p).1 ≠ .error (.unissuedId id last) := by
  rw [runFrom_receiveLiveUpdate]
  split
  · simp
  · split
    · simp
    · split
      · rename_i fault ht
        simp only [ne_eq, Except.error.injEq]
        rintro rfl
        exact checkTarget_ne_unissued ht
      · dsimp only
        split <;> simp

theorem receiveComponent_ne_unissued :
    ((receiveComponent bound method message).runFrom p).1 ≠ .error (.unissuedId id last) := by
  rw [runFrom_receiveComponent]
  split
  · simp
  · split <;> simp

theorem receiveRegistered_eq_unissued :
    ((receiveRegistered ids bound method message).runFrom p).1 = .error (.unissuedId id last) ↔
      (method = .commandSuccess ∨ method = .commandFailure) ∧
        ∃ r, CommandResponse.decode method message = .ok r ∧ ids.lastIssued < r.id ∧ r.id = id ∧
          ids.lastIssued = last := by
  cases method with
  | commandSuccess | commandFailure => simp [receiveRegistered, receiveResponse_eq_unissued]
  | event => simp [receiveRegistered, receiveEvent_ne_unissued]
  | liveDataUpdate => simp [receiveRegistered, receiveLiveUpdate_ne_unissued]
  | componentSuccess | componentFailure | componentUpdate =>
    simp [receiveRegistered, receiveComponent_ne_unissued]
  | registerSuccess | registerFailure | register | command | component =>
    simp [receiveRegistered]

/-- The message is an answer to command `id`. -/
def AnswersTo (c : Client) (message : Json) (id : UInt64) : Prop :=
  ∃ method r, c.methodOf message = .ok method ∧
    (method = .commandSuccess ∨ method = .commandFailure) ∧
    CommandResponse.decode method message = .ok r ∧ r.id = id

theorem receive_eq_unissued {services : Services} {fresh : String}
    (hphase : c.phase = .registered) :
    (c.receive services bound fresh message).result = .error (.unissuedId id last) ↔
      c.AnswersTo (evaluated bound message) id ∧ services.commandIds.lastIssued < id ∧
        services.commandIds.lastIssued = last := by
  obtain ⟨conn, hconn⟩ := phase_eq_registered.1 hphase
  rw [receive_result, AnswersTo]
  cases hm : c.methodOf (evaluated bound message) with
  | error fault => simp [handle, Handling.receipt, runFrom_process, hm]
  | ok method =>
    have hhandle : (c.handle services bound fresh (evaluated bound message)).result =
        ((receiveRegistered services.commandIds bound method (evaluated bound message)).runFrom
          ⟨c, services.keys, []⟩).1 := by
      rw [← runFrom_process_registered _ _ _ _ _ fresh (connection?_eq_some.1 hconn) hm]
      rfl
    rw [hhandle, receiveRegistered_eq_unissued]
    constructor
    · rintro ⟨hanswer, r, hr, hlt, rfl, hlast⟩
      exact ⟨⟨method, r, rfl, hanswer, hr, rfl⟩, hlt, hlast⟩
    · rintro ⟨⟨method', r, hmethod, hanswer, hr, rfl⟩, hlt, hlast⟩
      cases hmethod
      exact ⟨hanswer, r, hr, hlt, rfl, hlast⟩

end Refusals

end Client

namespace CommandIds

theorem lastIssued_toNat {ids : CommandIds} (hnext : ids.next ≠ 0) :
    ids.lastIssued.toNat + 1 = ids.next.toNat := by
  have hpos : ids.next.toNat ≠ 0 := fun h => hnext (UInt64.toNat_inj.1 h)
  have hone : (1 : UInt64) ≤ ids.next := UInt64.le_iff_toNat_le.2 (Nat.one_le_iff_ne_zero.2 hpos)
  rw [lastIssued, if_neg hnext, UInt64.toNat_sub_of_le _ _ hone]
  exact Nat.sub_add_cancel (Nat.one_le_iff_ne_zero.2 hpos)

end CommandIds

namespace Host

variable {h : Host} {s : Step} {k : ClientId} {c : Client} {sv : ServicesId}

/-- The message of the command that a step issues under an id of services `sv`. -/
def sent? (h : Host) (sv : ServicesId) (s : Step) : Option Json :=
  match s with
  | .issue k _ _ =>
    match h.clients.get? k, (h.perform s).result with
    | some c, some (.message (.ok message)) => if c.services = sv then some message else none
    | _, _ => none
  | _ => none

def sent (sv : ServicesId) (hist : List (Host × Step)) : List Json :=
  hist.filterMap fun e => e.1.sent? sv e.2

/-- A step either leaves the source of ids alone or sends a command under the next id. -/
inductive Draws (h : Host) (sv : ServicesId) (s : Step) (next next' : UInt64) : Prop
  | nothing (hs : h.sent? sv s = none) (hnext : next' = next)
  | next {message : Json} (hs : h.sent? sv s = some message)
      (hid : commandId? message = some next.toNat) (hnext : next' = next + 1)

theorem commandIds_perform (hsv : sv < h.next) (hs : ∀ k i action, s ≠ .issue k i action) :
    ((h.perform s).host.services.get? sv).map (·.commandIds) =
      (h.services.get? sv).map (·.commandIds) := by
  have hp := h.performed s
  generalize (h.perform s).host = h' at hp
  cases hp with
  | same | client | clientDropped | document | documentChanged | documentDropped | action
  | resolved | terminated => rfl
  | acted _ _ ha => exact ha.commandIds sv
  | services commandIds keys =>
    have hne : sv ≠ h.next := Nat.ne_of_lt hsv
    simp [createServices, hne]
  | issued i action => exact (hs _ i action rfl).elim

theorem draws_issue {v : Services} (hv : h.services.get? sv = some v) (k : ClientId)
    (i : Invocation) (action : Option ActionId) :
    ∃ v', (h.perform (.issue k i action)).host.services.get? sv = some v' ∧
      Draws h sv (.issue k i action) v.commandIds.next v'.commandIds.next := by
  cases hc : h.clients.get? k with
  | none =>
    rw [perform_issue_of_absent hc i action]
    exact ⟨v, hv, .nothing (by simp [sent?, hc]) rfl⟩
  | some c =>
    cases hi : c.issue (h.servicesOf c).commandIds i with
    | error fault =>
      have hperform := perform_issue_error hc hi action
      rw [hperform]
      exact ⟨v, hv, .nothing (by simp [sent?, hc, hperform]) rfl⟩
    | ok r =>
      obtain ⟨ids, id, message⟩ := r
      have hperform := perform_issue_ok hc hi action
      obtain ⟨resourceId, -, rfl, rfl, rfl⟩ := Client.issue_eq_ok.1 hi
      rw [hperform, issued_services]
      by_cases hsame : c.services = sv
      · have hservices : h.servicesOf c = v := by simp [servicesOf, hsame, hv]
        have hsent : h.sent? sv (.issue k i action) = some (CommandRequest.mk c.token
            (h.servicesOf c).commandIds.next i.name i.uri i.payload resourceId).encode := by
          simp [sent?, hc, hperform, hsame]
        rw [hservices] at hsent ⊢
        exact ⟨{ v with commandIds := ⟨v.commandIds.next + 1⟩ }, by simp [hsame],
          .next hsent (commandId?_encode _) rfl⟩
      · refine ⟨v, ?_, .nothing (by simp [sent?, hc, hperform, hsame]) rfl⟩
        simpa [Ne.symm hsame] using hv

theorem draws_perform (hsv : sv < h.next) {v : Services} (hv : h.services.get? sv = some v) :
    ∃ v', (h.perform s).host.services.get? sv = some v' ∧
      Draws h sv s v.commandIds.next v'.commandIds.next := by
  have hkept : (∀ k i action, s ≠ .issue k i action) →
      ∃ v', (h.perform s).host.services.get? sv = some v' ∧ v'.commandIds = v.commandIds := by
    intro hs
    have hids := commandIds_perform hsv hs
    rwa [hv, Option.map_some, Option.map_eq_some_iff] at hids
  cases s with
  | issue k i action => exact draws_issue hv k i action
  | _ =>
    obtain ⟨v', hv', hids⟩ := hkept (by simp)
    exact ⟨v', hv', .nothing rfl (congrArg CommandIds.next hids)⟩

/-- What ties a source of ids that has started at `first` to the commands that have been issued
since then. -/
structure Counting (sv : ServicesId) (first : ℕ) (hist : List (Host × Step)) (h : Host) : Prop where
  old : sv < h.next
  source : ∃ v, h.services.get? sv = some v ∧
    v.commandIds.next.toNat = first + (sent sv hist).length
  ids : (sent sv hist).map commandId? = (List.range' first (sent sv hist).length).map some

theorem sent_concat (sv : ServicesId) (hist : List (Host × Step)) (h : Host) (s : Step) :
    sent sv (hist ++ [(h, s)]) = sent sv hist ++ (h.sent? sv s).toList := by
  rw [sent, List.filterMap_append, ← sent]
  cases hs : h.sent? sv s <;> simp [hs]

theorem counting_perform {first : ℕ} {hist : List (Host × Step)}
    (hroom : first + (sent sv (hist ++ [(h, s)])).length < 2 ^ 64)
    (hi : Counting sv first hist h) : Counting sv first (hist ++ [(h, s)]) (h.perform s).host := by
  obtain ⟨v, hv, hnext⟩ := hi.source
  obtain ⟨v', hv', hdraws⟩ := draws_perform hi.old hv (s := s)
  rw [sent_concat] at hroom
  refine ⟨Nat.lt_of_lt_of_le hi.old (next_le_perform h s), ⟨v', hv', ?_⟩, ?_⟩
  · cases hdraws with
    | nothing hs hsame => simpa [sent_concat, hs, hsame] using hnext
    | next hs _ hsucc =>
      have h1 : (1 : UInt64).toNat = 1 := rfl
      rw [sent_concat, hsucc, UInt64.toNat_add, hnext, h1]
      simp only [hs, Option.toList_some, List.length_append, List.length_singleton] at hroom ⊢
      omega
  · cases hdraws with
    | nothing hs => simpa [sent_concat, hs] using hi.ids
    | next hs hid =>
      rw [sent_concat, hs]
      simp [hi.ids, hid, hnext, List.range'_concat]

theorem counting_after {first : UInt64} (keys : PropertyKeys) {h₀ : Host}
    (hopen : h.createServices (.startingAt first) keys = (h₀, sv)) (steps : List Step)
    (hroom : first.toNat + (sent sv (h₀.history steps)).length < 2 ^ 64) :
    Counting sv first.toNat (h₀.history steps) (h₀.after steps) := by
  induction steps using List.reverseRecOn with
  | nil =>
    simp only [createServices, Prod.mk.injEq] at hopen
    obtain ⟨rfl, rfl⟩ := hopen
    refine ⟨Nat.lt_succ_self _, ⟨⟨.startingAt first, keys⟩, ?_, rfl⟩, rfl⟩
    simp [after]
  | append_singleton steps s ih =>
    rw [history_concat] at hroom ⊢
    rw [after_concat]
    refine counting_perform hroom (ih ?_)
    rw [sent_concat, List.length_append] at hroom
    omega

/-- How a client answers to the request to issue a command when `next` is the next id. It refuses,
and nothing at all changes; or it sends the command under this id, which an action that is pending
is then waiting for. -/
inductive Issues (h : Host) (k : ClientId) (c : Client) (i : Invocation)
    (action : Option ActionId) (next : ℕ) : Outcome Answer → Prop
  | refused {fault : ClientFault} (hi : ¬ c.CanIssue i) :
      Issues h k c i action next ⟨h, [], some (.message (.error fault))⟩
  | sent {o : Outcome Answer} {message : Json} {id : UInt64} (hi : c.CanIssue i)
      (result : o.result = some (.message (.ok message)))
      (command : commandId? message = some next) (number : id.toNat = next)
      (waiting : ∀ a x, action = some a → h.actions.get? a = some x → x.isPending →
        o.host.clients.get? k = some { c with pending := c.pending.insert id a } ∧
          o.host.actions.get? a = some (x.onTerminate ⟨k, id⟩))
      (idle : (∀ a x, action = some a → h.actions.get? a = some x → ¬ x.isPending) →
        o.host.clients.get? k = some c)
      (others : ∀ j, j ≠ k → o.host.clients.get? j = h.clients.get? j) :
      Issues h k c i action next o

theorem issues_perform (hc : h.clients.get? k = some c) (i : Invocation)
    (action : Option ActionId) :
    Issues h k c i action (h.servicesOf c).commandIds.next.toNat
      (h.perform (.issue k i action)) := by
  cases hi : c.issue (h.servicesOf c).commandIds i with
  | error fault =>
    rw [perform_issue_error hc hi]
    refine .refused fun hcan => ?_
    obtain ⟨resourceId, hcheck⟩ := Client.checkInvocation_eq_ok.2 hcan
    simp [Client.issue, hcheck, Except.map] at hi
  | ok r =>
    obtain ⟨ids, id, message⟩ := r
    rw [perform_issue_ok hc hi]
    obtain ⟨resourceId, hcheck, rfl, rfl, rfl⟩ := Client.issue_eq_ok.1 hi
    refine .sent (Client.checkInvocation_eq_ok.1 ⟨resourceId, hcheck⟩) rfl (commandId?_encode _)
      rfl ?_ ?_ ?_
    · rintro a x rfl hx hp
      exact ⟨by simp [issued, get?_track_clients, hx, hp], by simp [issued, get?_track_actions, hx]⟩
    · intro hsettled
      cases action with
      | none => exact hc
      | some a =>
        have hnone : ¬ (h.actions.get? a).any (·.isPending) := by
          intro hp
          obtain ⟨x, hx, hp⟩ := (Option.any_eq_true _ _).1 hp
          exact hsettled a x rfl hx hp
        simp [issued, get?_track_clients, hnone, hc]
    · intro j hj
      cases action with
      | none => rfl
      | some a => simp [issued, get?_track_clients, hj]

/-- Clients that share a source of ids number their commands together. As long as ids do not start
over, the commands carry consecutive ids from the first one on, whoever issues them and whatever
happens in between, and a request that is refused takes no id. Each client tells answers to commands
that have been issued from answers to commands that have not. -/
theorem ids_consecutive (h : Host) {first : UInt64} (hfirst : first ≠ 0) (keys : PropertyKeys)
    {h₀ : Host} {sv : ServicesId}
    (hopen : h.createServices (.startingAt first) keys = (h₀, sv)) (steps : List Step)
    (hroom : first.toNat + (sent sv (h₀.history steps)).length < 2 ^ 64) :
    (sent sv (h₀.history steps)).map commandId? =
        (List.range' first.toNat (sent sv (h₀.history steps)).length).map some ∧
      ∀ k c, (h₀.after steps).clients.get? k = some c → c.services = sv →
        (∀ i action, Issues (h₀.after steps) k c i action
          (first.toNat + (sent sv (h₀.history steps)).length)
          ((h₀.after steps).perform (.issue k i action))) ∧
        ∀ s m, s.delivery? = some (k, some m) → c.phase = .registered → ∀ id last,
          ((h₀.after steps).perform s).result = some (.accepted (.error (.unissuedId id last))) ↔
            c.AnswersTo (Client.evaluated ((h₀.after steps).boundDocument c) m) id ∧
              first.toNat + (sent sv (h₀.history steps)).length ≤ id.toNat ∧
              first.toNat + (sent sv (h₀.history steps)).length = last.toNat + 1 := by
  obtain ⟨-, ⟨v, hv, hnext⟩, hids⟩ := counting_after keys hopen steps hroom
  refine ⟨hids, fun k c hc hsame => ?_⟩
  subst hsame
  have hservices : (h₀.after steps).servicesOf c = v := by simp [servicesOf, hv]
  have hstarted : v.commandIds.next ≠ 0 := by
    rw [ne_eq, ← UInt64.toNat_inj, hnext]
    have hpos : first.toNat ≠ 0 := fun h => hfirst (UInt64.toNat_inj.1 h)
    exact fun h => hpos (Nat.eq_zero_of_add_eq_zero_right h)
  have hlast := CommandIds.lastIssued_toNat hstarted
  rw [← hnext]
  refine ⟨fun i action => hservices ▸ issues_perform hc i action,
    fun s m hs hphase id last => ?_⟩
  obtain ⟨fresh, hperform⟩ := perform_of_delivery hc hs
  rw [hperform, hservices]
  simp only [accept, Outcome.map, Option.map_some, Option.some.injEq, Answer.accepted.injEq]
  rw [Client.receive_eq_unissued hphase, UInt64.lt_iff_toNat_lt, ← UInt64.toNat_inj]
  refine and_congr_right fun _ => ?_
  omega

/-- Two clients issue three commands, the last one after an answer to the first and after an answer
that nobody waits for. An answer to a fourth command is refused. -/
theorem ids_consecutive_exchange : ∃ h₀, start.createServices (.startingAt 1000) (.startingAt 1) =
      (h₀, 0) ∧
    (sent 0 (h₀.history exchange.tail)).map commandId? = [some 1000, some 1001, some 1002] ∧
    ((h₀.after exchange.tail).perform (.receive 2 "" (messageOf .commandSuccess
        [("id", .number (.ofUInt64 1003)), ("result", .bool true)]))).result =
      some (.accepted (.error (.unissuedId 1003 1002))) := by
  have hrun : ∃ h₀, start.createServices (.startingAt 1000) (.startingAt 1) = (h₀, 0) ∧
      (sent 0 (h₀.history exchange.tail)).length = 3 ∧
      ∃ c, (h₀.after exchange.tail).clients.get? 2 = some c ∧ c.services = 0 ∧
        c.phase = .registered ∧
        c.AnswersTo (Client.evaluated ((h₀.after exchange.tail).boundDocument c) (messageOf
          .commandSuccess [("id", .number (.ofUInt64 1003)), ("result", .bool true)])) 1003 :=
    ⟨_, rfl, by decide +kernel, _, rfl, by decide +kernel, by decide +kernel,
      .commandSuccess, _, rfl, .inl rfl, rfl, rfl⟩
  obtain ⟨h₀, hopen, hlength, c, hc, hservices, hphase, hanswer⟩ := hrun
  obtain ⟨hids, hclients⟩ := ids_consecutive start (by decide) (.startingAt 1) hopen exchange.tail
    (by rw [hlength]; decide)
  rw [hlength] at hids hclients
  exact ⟨h₀, hopen, hids,
    ((hclients 2 c hc hservices).2 _ _ rfl hphase 1003 1002).2 ⟨hanswer, by decide, by decide⟩⟩

end Host

end ExtensionHost
