import ExtensionHost.Proofs.Mutations
import ExtensionHost.Proofs.Registered

namespace ExtensionHost.Host

def contents? (h : Host) (k : ClientId) (name : String) : Option Json :=
  ((h.clients.get? k).bind (·.feeds.get? name)).map (·.replica.snapshot)

/-- Live data as the schema of a registered client declares it. -/
def declared? (h : Host) (k : ClientId) (name : String) : Option LiveDefinition :=
  ((h.clients.get? k).bind (·.connection?)).bind (·.schema.liveData? name)

def isRegistered (h : Host) (k : ClientId) : Bool :=
  (h.clients.get? k).any (·.connection?.isSome)

/-- The mutations of live data in a step: the operations of an update that is accepted, or an
edit. -/
def mutations (k : ClientId) (name : String) (e : Host × Step) : List Mutation :=
  match e.2 with
  | .edit client n ed => if client = k ∧ n = name ∧ e.1.isRegistered k then [.edit ed] else []
  | s =>
    match e.1.accepted? k s with
    | some (.liveDataUpdate, message) =>
      if message.fields.string? "name" = some name then
        match message.fields.get? "operations" with
        | some (.array operations) => operations.map .operation
        | _ => []
      else []
    | _ => []

theorem mutations_of_accepted {h : Host} {k : ClientId} {s : Step} {method : Method} {m : Json}
    (name : String) (ha : h.accepted? k s = some (method, m)) :
    mutations k name (h, s) = (h.turn? k s).elim [] (·.mutations name) := by
  have hedit : ∀ j n ed, s ≠ .edit j n ed := by
    rintro j n ed rfl
    rw [accepted?_of_not_inbound rfl] at ha
    cases ha
  unfold mutations
  split
  · rename_i j n ed heq
    exact (hedit j n ed heq).elim
  · dsimp only
    rw [ha]
    split
    · rename_i message hm
      cases hm
      obtain ⟨c, u, -, hu, hturn⟩ := turn?_of_accepted_update ha
      obtain ⟨body, hbody, -⟩ := bind_eq_ok.1 hu
      rw [Json.body_eq_ok] at hbody
      obtain ⟨hname, -, hoperations⟩ := (LiveUpdate.decode_eq_ok hbody).1 hu
      have hnamed := (Option.filter_eq_some_iff.1 hname).1
      rw [Json.fields_of_asObject? hbody, hnamed, hoperations, hturn]
      simp [Turn.mutations]
    · -- Other messages are turns without mutations, or no turns.
      rename_i hne
      obtain ⟨c, hc, ⟨hnone, -⟩ | ⟨conn, c', es, -, hturn, -⟩⟩ := reacted_of_accepted ha
      · rw [turn?_of_unregistered hc hnone]
        rfl
      · rw [hturn]
        unfold Client.turnOf?
        split
        · rename_i message _
          cases hd : EventMessage.decode message with
          | error fault => simp [Except.toOption]
          | ok e =>
            cases hmode : c.schema.eventMode? e.name <;>
              simp [Except.toOption, hmode, Turn.mutations]
        · rename_i message hm
          exact (hne message (by rw [hm])).elim
        · rfl

theorem mutations_edit (h : Host) (k j : ClientId) (name n : String) (ed : Edit) :
    mutations k name (h, .edit j n ed) = (h.turn? k (.edit j n ed)).elim [] (·.mutations name) := by
  by_cases hj : j = k
  · subst hj
    cases hc : h.clients.get? j with
    | none => simp [mutations, isRegistered, turn?, hc]
    | some c =>
      by_cases hconn : c.connection?.isSome <;>
        simp [mutations, isRegistered, turn?, hc, hconn, Step.actor?, Turn.mutations]
  · have hs : (Step.edit j n ed).actor? ≠ some k := by simpa [Step.actor?] using hj
    simp [mutations, hj, turn?_of_not_actor hs]

theorem mutations_eq (h : Host) (k : ClientId) (name : String) (s : Step) :
    mutations k name (h, s) = (h.turn? k s).elim [] (·.mutations name) := by
  cases ha : h.accepted? k s with
  | some message => exact mutations_of_accepted name ha
  | none =>
    by_cases hedit : ∃ j n ed, s = .edit j n ed
    · obtain ⟨j, n, ed, rfl⟩ := hedit
      exact mutations_edit h k j name n ed
    · have hnone : mutations k name (h, s) = [] := by
        unfold mutations
        split
        · rename_i j n ed heq
          exact (hedit ⟨j, n, ed, heq⟩).elim
        · simp [ha]
      rw [hnone]
      cases ht : h.turn? k s with
      | none => rfl
      | some t =>
        cases hc : h.clients.get? k with
        | none =>
          rw [turn?_of_absent hc] at ht
          cases ht
        | some c =>
          cases caused_of_turn? hc ht with
          | event _ ha' | update ha' =>
            rw [ha] at ha'
            cases ha'
          | edit n ed => exact (hedit ⟨k, n, ed, rfl⟩).elim
          | bind | discard | flush | flushAll => rfl

structure Replicated (k : ClientId) (hist : List (Host × Step)) (conn : Connection) : Prop where
  contents : ∀ name, (conn.feeds.get? name).map (·.replica.snapshot) =
    (conn.schema.liveData? name).map fun d =>
      ((hist.flatMap (mutations k name)).foldl Replica.mutated
        (.ofInitial d.kind d.initial)).snapshot
  begins : ∀ name d, conn.schema.liveData? name = some d → ∃ v, d.Begins v

variable {h : Host} {s : Step} {k : ClientId} {hist : List (Host × Step)}
  {conn conn' : Connection}

theorem replicated_new (hnew : Client.Connection.IsNew conn)
    (hturns : ∀ e ∈ hist, e.1.turn? k e.2 = none) : Replicated k hist conn where
  contents name := by
    have hnone : hist.flatMap (mutations k name) = [] := by
      refine List.flatMap_eq_nil_iff.2 fun e he => ?_
      rw [mutations_eq, hturns e he]
      rfl
    rw [hnone, hnew.feeds name, Option.map_map]
    rfl
  begins := hnew.contents

theorem replicated_step (hi : Replicated k hist conn) (hschema : conn'.schema = conn.schema)
    (hfeeds : ∀ name, conn'.feeds.get? name =
      (conn.feeds.get? name).map fun f => (h.turn? k s).elim f (f.turned name)) :
    Replicated k (hist ++ [(h, s)]) conn' where
  contents name := by
    have hold := hi.contents name
    have hlast : (hist ++ [(h, s)]).flatMap (mutations k name) =
        hist.flatMap (mutations k name) ++ mutations k name (h, s) := by simp
    simp only [hfeeds, hschema, Option.map_map, hlast, List.foldl_append]
    cases hf : conn.feeds.get? name with
    | none =>
      rw [hf] at hold
      cases hd : conn.schema.liveData? name with
      | none => rfl
      | some d => simp [hd] at hold
    | some f =>
      cases hd : conn.schema.liveData? name with
      | none => simp [hf, hd] at hold
      | some d =>
        simp only [hf, hd, Option.map_some, Option.some.injEq] at hold
        simp only [Option.map_some, Function.comp_apply, mutations_eq]
        cases ht : h.turn? k s with
        | none => simpa using hold
        | some t =>
          simp only [Option.elim_some, Feed.turned_contents]
          exact congrArg some (Replica.snapshot_foldl_congr _ hold)
  begins name d hd := hi.begins name d (hschema ▸ hd)

theorem replicated_after (steps : List Step) {c : Client} {conn : Connection}
    (hc : (start.after steps).clients.get? k = some c) (hconn : c.connection? = some conn) :
    Replicated k (start.history steps) conn := by
  refine connection_induction k (P := fun hist _ _ conn => Replicated k hist conn)
    (fun hist h s c c' conn m _ _ _ _ hnew _ hturns => ?_)
    (fun hist h s c c' conn conn' _ _ _ _ _ hschema hfeeds hi => ?_) steps hc hconn
  · exact replicated_new hnew hturns
  · exact replicated_step hi hschema hfeeds

/-- Along every run, the contents of live data are what the operations of accepted updates and the
host's edits, in the order of their arrival, make of the declared contents. Nothing else has an
influence on them. -/
theorem contents_replicate (steps : List Step) (k : ClientId) (name : String) (contents : Json) :
    (start.after steps).contents? k name = some contents ↔
      ∃ d first, (start.after steps).declared? k name = some d ∧ d.Begins first ∧
        Replays ((start.history steps).flatMap (mutations k name)) first contents := by
  unfold contents? declared?
  cases hc : (start.after steps).clients.get? k with
  | none => simp
  | some c =>
    cases hconn : c.connection? with
    | none => simp [Client.feeds_of_unregistered hconn, hconn]
    | some conn =>
      have hi := replicated_after steps hc hconn
      simp only [Option.bind_some, Client.feeds_of_connection hconn, hconn, hi.contents name,
        Option.map_eq_some_iff, Replica.snapshot_foldl_mutated_iff]
      constructor
      · rintro ⟨d, hd, hreplays⟩
        obtain ⟨first, hfirst⟩ := hi.begins name d hd
        rw [Replica.snapshot_ofInitial hfirst] at hreplays
        exact ⟨d, first, hd, hfirst, hreplays⟩
      · rintro ⟨d, first, hd, hfirst, hreplays⟩
        refine ⟨d, hd, ?_⟩
        rw [Replica.snapshot_ofInitial hfirst]
        exact hreplays

def tagRemoval : Json :=
  .object [("type", .string "Remove"), ("index", .number (.integer 7 (by decide)))]

/-- Two tags are put in front of the others, and in between one is removed that is not there. Then
the host adds a tag of its own at the end. -/
def tagging : List Step :=
  [.createServices (.startingAt 1000) (.startingAt 1), .createClient "notes" .standard 0,
    .receive 1 "" notesConsent,
    .receive 1 "" (tagUpdate [tagInsertion "urgent", tagRemoval, tagInsertion "late"]),
    .edit 1 "tags" (.push (.string "own"))]

theorem contents_replicate_tagging : (start.after tagging).contents? 1 "tags" =
    some (.array [.string "late", .string "urgent", .string "own"]) := by
  have hmutations : (start.history tagging).flatMap (mutations 1 "tags") =
      [.operation (tagInsertion "urgent"), .operation tagRemoval, .operation (tagInsertion "late"),
        .edit (.push (.string "own"))] := by decide +kernel
  have hdeclared : ∃ d, (start.after tagging).declared? 1 "tags" = some d ∧ d.Begins (.array []) :=
    ⟨_, rfl, .array rfl rfl⟩
  have hurgent : Operation.Reads (tagInsertion "urgent")
      ⟨.insert, none, some 0, some (.string "urgent"), none⟩ := Operation.decode_eq_ok_iff.1 rfl
  have hlate : Operation.Reads (tagInsertion "late")
      ⟨.insert, none, some 0, some (.string "late"), none⟩ := Operation.decode_eq_ok_iff.1 rfl
  -- There is no eighth tag, so the removal is passed over.
  have hbeyond : ∀ op after, Operation.Reads tagRemoval op →
      ¬ op.Outcome (.array (.ofItems [.string "urgent"])) after := by
    intro op after hop h
    have hremoval : Operation.decode tagRemoval = .ok ⟨.remove, none, some 7, none, none⟩ := rfl
    rw [← Operation.decode_eq_ok_iff, hremoval] at hop
    cases hop
    cases h with
    | remove _ hindex _ _ hrange =>
      cases hindex
      exact absurd hrange (by decide)
    | clear hkind | insert hkind | update hkind => cases hkind
  obtain ⟨d, hd, hbegins⟩ := hdeclared
  refine (contents_replicate tagging 1 "tags" _).2 ⟨d, _, hd, hbegins, ?_⟩
  rw [hmutations]
  exact ⟨.array (.ofItems []), rfl, _, .operated hurgent (.insert rfl rfl rfl (by decide)),
    .array (.ofItems [.string "urgent"]), rfl, _, .passedOver hbeyond,
    .array (.ofItems [.string "urgent"]), rfl, _, .operated hlate (.insert rfl rfl rfl (by decide)),
    .array (.ofItems [.string "late", .string "urgent"]), rfl, _, .edited .push, rfl⟩

end ExtensionHost.Host
