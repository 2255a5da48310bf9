import ExtensionHost.Proofs.Operations
import ExtensionHost.Proofs.Turn

namespace ExtensionHost

/-- What can change the contents of live data: an operation as it arrives, and an edit. -/
inductive Mutation where
  | operation (operation : Json)
  | edit (edit : Edit)
  deriving DecidableEq

/-- What a mutation makes of contents. An operation that does not decode or cannot be applied to
them is passed over, and so is an edit that is not possible. -/
inductive Mutation.Outcome : Mutation → Replica → Json → Prop
  | operated {operation : Json} {op : Operation} {r : Replica} {after : Json}
      (hop : Operation.Reads operation op) (h : op.Outcome r after) :
      Outcome (.operation operation) r after
  | passedOver {operation : Json} {r : Replica}
      (h : ∀ op after, Operation.Reads operation op → ¬ op.Outcome r after) :
      Outcome (.operation operation) r r.snapshot
  | edited {e : Edit} {r : Replica} {after : Json} (h : e.Outcome r after) :
      Outcome (.edit e) r after
  | failed {e : Edit} {r : Replica} (h : ∀ after, ¬ e.Outcome r after) :
      Outcome (.edit e) r r.snapshot

/-- The contents that mutations lead to, each from what the one before has left. -/
def Replays : List Mutation → Json → Json → Prop
  | [], before, after => after = before
  | m :: rest, before, after =>
    ∃ r : Replica, r.snapshot = before ∧ ∃ next, m.Outcome r next ∧ Replays rest next after

/-- An operation among the mutations has an outcome when its turn comes. -/
def SomeApplied (mutations : List Mutation) (before : Json) : Prop :=
  ∃ earlier operation later, mutations = earlier ++ .operation operation :: later ∧
    ∃ r : Replica, Replays earlier before r.snapshot ∧
      ∃ op after, Operation.Reads operation op ∧ op.Outcome r after

section Recorded

/-! What has been recorded of earlier changes has no influence on outcomes. -/

variable {r r' : Replica} {after : Json}

theorem Replica.kind_of_snapshot (hsame : r.snapshot = r'.snapshot) : r.kind = r'.kind := by
  cases r <;> cases r' <;> simp_all [Replica.snapshot, Json.ofObject, Replica.kind]

theorem Edit.Outcome.congr {e : Edit} (hsame : r.snapshot = r'.snapshot) (h : e.Outcome r after) :
    e.Outcome r' after := by
  have hkind := Replica.kind_of_snapshot hsame
  cases r with
  | array a =>
    cases r' with
    | array a' =>
      obtain ⟨items, changes⟩ := a
      obtain ⟨items', changes'⟩ := a'
      obtain rfl : items = items' := by simpa [Replica.snapshot] using hsame
      cases h with
      | insert hrange => exact .insert hrange
      | update hrange hend => exact .update hrange hend
      | remove hone hrange => exact .remove hone hrange
      | push => exact .push
      | clear => exact .clear
      | foreign hforeign => exact .foreign hforeign
    | map m' => cases hkind
  | map m =>
    cases r' with
    | array a' => cases hkind
    | map m' =>
      obtain ⟨contents, changes⟩ := m
      obtain ⟨contents', changes'⟩ := m'
      obtain rfl : contents = contents' := by
        simpa [Replica.snapshot, Json.ofObject, SortedMap.ext_entries_iff] using hsame
      cases h with
      | set hset hothers => exact .set hset hothers
      | erase hpresent hgone hothers => exact .erase hpresent hgone hothers
      | foreign hforeign => exact .foreign hforeign

theorem Operation.Outcome.congr {op : Operation} (hsame : r.snapshot = r'.snapshot)
    (h : op.Outcome r after) : op.Outcome r' after := by
  obtain ⟨e, he, hedit⟩ := Replica.outcome_iff_edit.1 h
  rw [Replica.kind_of_snapshot hsame] at he
  exact Replica.outcome_iff_edit.2 ⟨e, he, hedit.congr hsame⟩

theorem Mutation.Outcome.congr {m : Mutation} (hsame : r.snapshot = r'.snapshot)
    (h : m.Outcome r after) : m.Outcome r' after := by
  cases h with
  | operated hop h => exact .operated hop (h.congr hsame)
  | passedOver hno =>
    rw [hsame]
    exact .passedOver fun op after hop h => hno op after hop (h.congr hsame.symm)
  | edited h => exact .edited (h.congr hsame)
  | failed hno =>
    rw [hsame]
    exact .failed fun after h => hno after (h.congr hsame.symm)

end Recorded

namespace Replica

def mutated (r : Replica) : Mutation → Replica
  | .operation operation =>
    ((Operation.decode operation).toOption.bind fun op => (r.apply op).toOption).getD r
  | .edit e => r.edited e

theorem snapshot_getD_iff {x : Option Replica} {r : Replica} {P : Json → Prop}
    (h : ∀ v, x.map snapshot = some v ↔ P v) {after : Json} :
    (x.getD r).snapshot = after ↔ P after ∨ (∀ v, ¬ P v) ∧ after = r.snapshot := by
  cases x with
  | none =>
    have hnone : ∀ v, ¬ P v := fun v hv => by cases (h v).2 hv
    simp [hnone, eq_comm]
  | some r' =>
    have hsome : P r'.snapshot := (h _).1 rfl
    have hno : ¬ ∀ v, ¬ P v := fun hall => hall _ hsome
    rw [Option.getD_some, ← h]
    simp [hno]

/-- Carrying out a mutation leads to what it makes of the contents. -/
theorem snapshot_mutated_iff {m : Mutation} {r : Replica} {after : Json} :
    (r.mutated m).snapshot = after ↔ m.Outcome r after := by
  cases m with
  | operation operation =>
    have hattempt : ∀ v, ((Operation.decode operation).toOption.bind fun op =>
        (r.apply op).toOption).map snapshot = some v ↔
          ∃ op, Operation.Reads operation op ∧ op.Outcome r v := by
      intro v
      simp only [Option.map_bind, Option.bind_eq_some_iff, Function.comp_apply,
        snapshot_apply_eq_some_iff, ← Operation.decode_eq_ok_iff]
      cases Operation.decode operation <;> simp [Except.toOption]
    refine (snapshot_getD_iff hattempt).trans ⟨?_, fun h => ?_⟩
    · rintro (⟨op, hop, h⟩ | ⟨hno, rfl⟩)
      · exact .operated hop h
      · exact .passedOver fun op v hop h => hno v ⟨op, hop, h⟩
    · cases h with
      | operated hop h => exact .inl ⟨_, hop, h⟩
      | passedOver hno =>
        refine .inr ⟨?_, rfl⟩
        rintro v ⟨op, hop, h⟩
        exact hno op v hop h
  | edit e =>
    refine (snapshot_getD_iff fun v => snapshot_edit_eq_some_iff).trans ⟨?_, fun h => ?_⟩
    · rintro (h | ⟨hno, rfl⟩)
      · exact .edited h
      · exact .failed hno
    · cases h with
      | edited h => exact .inl h
      | failed hno => exact .inr ⟨hno, rfl⟩

/-- Mutations see the contents only. -/
theorem snapshot_mutated_congr {a b : Replica} (m : Mutation) (hsame : a.snapshot = b.snapshot) :
    (a.mutated m).snapshot = (b.mutated m).snapshot :=
  snapshot_mutated_iff.2 ((snapshot_mutated_iff.1 rfl).congr hsame.symm)

theorem snapshot_foldl_congr (mutations : List Mutation) {a b : Replica}
    (hsame : a.snapshot = b.snapshot) :
    (mutations.foldl mutated a).snapshot = (mutations.foldl mutated b).snapshot := by
  induction mutations generalizing a b with
  | nil => exact hsame
  | cons m rest ih => exact ih (snapshot_mutated_congr m hsame)

theorem snapshot_foldl_mutated_iff {mutations : List Mutation} {r : Replica} {after : Json} :
    (mutations.foldl mutated r).snapshot = after ↔ Replays mutations r.snapshot after := by
  induction mutations generalizing r with
  | nil => exact eq_comm
  | cons m rest ih =>
    rw [List.foldl_cons, ih]
    constructor
    · intro h
      exact ⟨r, rfl, _, snapshot_mutated_iff.1 rfl, h⟩
    · rintro ⟨r', hr', next, hnext, h⟩
      rw [snapshot_mutated_iff.2 (hnext.congr hr')]
      exact h

theorem snapshot_ofInitial {d : LiveDefinition} {v : Json} (h : d.Begins v) :
    (ofInitial d.kind d.initial).snapshot = v := by
  cases h with
  | array hkind hinitial =>
    rw [hkind, hinitial]
    rfl
  | object hkind hinitial =>
    rw [hkind, hinitial]
    rfl

end Replica

namespace Client

theorem applyOperation_contents (heard : Bool) (f : Feed) (operation : Json) :
    match applyOperation heard f operation with
    | .ok next => next.replica.snapshot = (f.replica.mutated (.operation operation)).snapshot
    | .error _ => f.replica.mutated (.operation operation) = f.replica := by
  unfold applyOperation Replica.mutated
  cases hop : Operation.decode operation with
  | error fault => simp [hop, Except.toOption, Bind.bind, Except.bind]
  | ok op =>
    cases happ : f.replica.apply op <;> cases heard <;>
      simp [hop, Except.toOption, Bind.bind, Except.bind, Feed.apply,
        Feed.applyUnheard, happ, Except.map]

theorem applyOperations_contents (heard : Bool) (operations : List Json) (f : Feed) :
    (applyOperations heard f operations).1.replica.snapshot =
      ((operations.map Mutation.operation).foldl Replica.mutated f.replica).snapshot := by
  induction operations generalizing f with
  | nil => rfl
  | cons operation rest ih =>
    have hone := applyOperation_contents heard f operation
    unfold applyOperations
    -- Records may differ after the first operation, and the rest does not see them.
    split
    · rename_i next happ
      rw [happ] at hone
      rw [ih next, List.map_cons, List.foldl_cons]
      exact Replica.snapshot_foldl_congr _ hone
    · rename_i fault happ
      rw [happ] at hone
      rw [List.map_cons, List.foldl_cons, show f.replica.mutated (.operation operation) = f.replica
        from hone]
      exact ih f

end Client

def Turn.mutations (name : String) : Turn → List Mutation
  | .update _ u => if u.name = name then u.operations.map .operation else []
  | .edit n e => if n = name then [.edit e] else []
  | _ => []

namespace Feed

theorem touched_contents (name : String) (f : Feed) (t : Turn) :
    (f.touched name t).replica.snapshot =
      ((t.mutations name).foldl Replica.mutated f.replica).snapshot := by
  cases t with
  | update heard u =>
    by_cases hu : u.name = name
    · simpa [touched, Turn.mutations, hu] using
        Client.applyOperations_contents heard u.operations f
    · simp [touched, Turn.mutations, hu]
  | edit n e => by_cases hn : n = name <;> simp [touched, Turn.mutations, hn, Replica.mutated]
  | discard n => by_cases hn : n = name <;> simp [touched, Turn.mutations, hn]
  | _ => rfl

theorem turned_contents (name : String) (f : Feed) (t : Turn) :
    (f.turned name t).replica.snapshot =
      ((t.mutations name).foldl Replica.mutated f.replica).snapshot := by
  rw [← touched_contents]
  unfold turned
  split
  · exact Replica.snapshot_forgetChanges _
  · rfl

end Feed

end ExtensionHost
