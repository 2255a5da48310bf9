import ExtensionHost.Proofs.ChangeReport
import ExtensionHost.Proofs.Mutations

namespace ExtensionHost

namespace Replica

def accepts (r : Replica) (operation : Json) : Bool :=
  (Operation.decode operation).toOption.any fun op => (r.apply op).toOption.isSome

/-- Whether some operation of a batch is applied when its turn comes. -/
def acceptsAny : Replica → List Json → Bool
  | _, [] => false
  | r, operation :: rest =>
    r.accepts operation || (r.mutated (.operation operation)).acceptsAny rest

theorem accepts_iff {r : Replica} {operation : Json} :
    r.accepts operation = true ↔
      ∃ op after, Operation.Reads operation op ∧ op.Outcome r after := by
  simp only [accepts, ← Operation.decode_eq_ok_iff, ← snapshot_apply_eq_some_iff]
  cases Operation.decode operation with
  | error fault => simp [Except.toOption]
  | ok op => cases happ : r.apply op <;> simp [happ, Except.toOption]

theorem someApplied_cons {r : Replica} {operation : Json} {rest : List Mutation} :
    SomeApplied (.operation operation :: rest) r.snapshot ↔
      r.accepts operation = true ∨
        SomeApplied rest (r.mutated (.operation operation)).snapshot := by
  rw [accepts_iff]
  constructor
  · rintro ⟨earlier, next, later, heq, r', hreplays, op, after, hop, h⟩
    cases earlier with
    | nil =>
      cases heq
      exact .inl ⟨op, after, hop, h.congr hreplays⟩
    | cons m earlier =>
      cases heq
      obtain ⟨r₀, hsame, contents, hcontents, hreplays⟩ := hreplays
      rw [← snapshot_mutated_iff.2 (hcontents.congr hsame)] at hreplays
      exact .inr ⟨earlier, next, later, rfl, r', hreplays, op, after, hop, h⟩
  · rintro (⟨op, after, hop, h⟩ | ⟨earlier, next, later, rfl, r', hreplays, happlies⟩)
    · exact ⟨[], operation, rest, rfl, r, rfl, op, after, hop, h⟩
    · exact ⟨.operation operation :: earlier, next, later, rfl, r',
        ⟨r, rfl, _, snapshot_mutated_iff.1 rfl, hreplays⟩, happlies⟩

theorem acceptsAny_iff {r : Replica} {operations : List Json} :
    r.acceptsAny operations = true ↔ SomeApplied (operations.map .operation) r.snapshot := by
  induction operations generalizing r with
  | nil => simp [acceptsAny, SomeApplied]
  | cons operation rest ih => rw [acceptsAny, Bool.or_eq_true, ih, List.map_cons, someApplied_cons]

end Replica

theorem LiveArray.edit_of_no_changes {a a' : LiveArray} {e : Edit} (h : a.edit e = .ok a')
    (hlog : a'.changes = []) : a' = a := by
  cases e with
  | insert index items =>
    simp only [edit, insert] at h
    split at h
    · split at h <;> cases h
      · rfl
      · simp [record] at hlog
    · cases h
  | update index items =>
    simp only [edit, update] at h
    split at h
    · split at h <;> cases h
      · rfl
      · simp [record] at hlog
    · cases h
  | remove index count =>
    simp only [edit, remove] at h
    split at h
    · cases h
    · split at h <;> cases h
      simp [record] at hlog
  | push item =>
    cases h
    simp [push, record] at hlog
  | clear =>
    cases h
    unfold clear at hlog ⊢
    split
    · rfl
    · rename_i hitems
      rw [if_neg hitems] at hlog
      simp [record] at hlog
  | set | erase =>
    cases h
    rfl

theorem LiveMap.edit_of_no_changes {m m' : LiveMap} {e : Edit} (h : m.edit e = .ok m')
    (hlog : m'.changes = []) : m' = m := by
  cases e with
  | set key value =>
    cases h
    simp [set] at hlog
  | erase key =>
    simp only [edit, remove] at h
    cases hget : m.get? key with
    | none => simp [hget, Except.map] at h
    | some value =>
      simp only [hget, Except.map, Except.ok.injEq] at h
      subst h
      simp at hlog
  | _ =>
    cases h
    rfl

theorem Replica.edited_of_no_changes {r : Replica} {e : Edit}
    (hlog : (r.edited e).hasChanges = false) : r.edited e = r := by
  unfold edited at hlog ⊢
  cases he : r.edit e with
  | error fault => rfl
  | ok r' =>
    simp only [he, Except.toOption, Option.getD_some] at hlog ⊢
    cases r with
    | array a =>
      cases ha : a.edit e with
      | error fault => simp [edit, ha, Except.map] at he
      | ok a' =>
        simp only [edit, ha, Except.map, Except.ok.injEq] at he
        subst he
        rw [LiveArray.edit_of_no_changes ha (by simpa [hasChanges] using hlog)]
    | map m =>
      cases hm : m.edit e with
      | error fault => simp [edit, hm, Except.map] at he
      | ok m' =>
        simp only [edit, hm, Except.map, Except.ok.injEq] at he
        subst he
        rw [LiveMap.edit_of_no_changes hm (by simpa [hasChanges] using hlog)]

namespace Client

/-- An operation that is applied leaves its mark: it has to be reported, and if nobody hears of it,
the next report has to cover all contents. -/
theorem applyOperation_flags (heard : Bool) (f : Feed) (operation : Json) :
    match applyOperation heard f operation with
    | .ok next => f.replica.accepts operation = true ∧ next.pending = true ∧
        next.owesSnapshot = (f.owesSnapshot || !heard)
    | .error _ => f.replica.accepts operation = false := by
  unfold applyOperation Replica.accepts
  cases hop : Operation.decode operation with
  | error fault => simp [Except.toOption, Bind.bind, Except.bind]
  | ok op =>
    cases happ : f.replica.apply op <;> cases heard <;>
      simp [Except.toOption, Bind.bind, Except.bind, Feed.apply,
        Feed.applyUnheard, happ, Except.map]

theorem applyOperations_flags (heard : Bool) (operations : List Json) (f : Feed) :
    (applyOperations heard f operations).1.pending =
        (f.pending || f.replica.acceptsAny operations) ∧
      (applyOperations heard f operations).1.owesSnapshot =
        (f.owesSnapshot || (!heard && f.replica.acceptsAny operations)) := by
  induction operations generalizing f with
  | nil => simp [applyOperations, Replica.acceptsAny]
  | cons operation rest ih =>
    have hflags := applyOperation_flags heard f operation
    have hcontents := applyOperation_contents heard f operation
    unfold applyOperations Replica.acceptsAny
    split
    · -- The flags are set, and what happens to the rest of the batch does not matter.
      rename_i next happ
      rw [happ] at hflags hcontents
      obtain ⟨haccepts, hpending, howes⟩ := hflags
      obtain ⟨hp, ho⟩ := ih next
      rw [hp, ho, hpending, howes, haccepts]
      cases heard <;> simp
    · rename_i fault happ
      rw [happ] at hflags hcontents
      obtain ⟨hp, ho⟩ := ih f
      dsimp only at hflags hcontents ⊢
      rw [hp, ho, hflags, hcontents]
      simp

theorem applyOperations_idle (heard : Bool) (operations : List Json) (f : Feed)
    (hnone : f.replica.acceptsAny operations = false) :
    (applyOperations heard f operations).1 = f := by
  induction operations generalizing f with
  | nil => rfl
  | cons operation rest ih =>
    have hflags := applyOperation_flags heard f operation
    have hcontents := applyOperation_contents heard f operation
    rw [Replica.acceptsAny, Bool.or_eq_false_iff] at hnone
    unfold applyOperations
    split
    · rename_i next happ
      rw [happ] at hflags
      rw [hnone.1] at hflags
      exact absurd hflags.1 (by simp)
    · rename_i fault happ
      rw [happ] at hcontents
      dsimp only at hcontents ⊢
      rw [hcontents] at hnone
      exact ih f hnone.2

end Client

def Turn.applies (name : String) (f : Feed) : Turn → Bool
  | .update _ u => u.name = name && f.replica.acceptsAny u.operations
  | _ => false

theorem Turn.applies_iff {name : String} {f : Feed} {t : Turn} :
    t.applies name f = true ↔ SomeApplied (t.mutations name) f.replica.snapshot := by
  have hnone : ¬ SomeApplied [] f.replica.snapshot := by simp [SomeApplied]
  cases t with
  | update heard u =>
    by_cases hu : u.name = name
    · simp [applies, mutations, hu, Replica.acceptsAny_iff]
    · simp [applies, mutations, hu, hnone]
  | edit n e =>
    -- An edit is no operation.
    by_cases hn : n = name <;>
      simp [applies, mutations, hn, SomeApplied, List.singleton_eq_append_iff]
  | _ => simp [applies, mutations, hnone]

namespace Feed

variable {name : String} {f : Feed} {t : Turn}

theorem touched_pending (name : String) (f : Feed) (t : Turn) :
    (f.touched name t).pending = (f.pending || t.applies name f) := by
  cases t with
  | update heard u =>
    by_cases hu : u.name = name
    · simp [touched, Turn.applies, hu, (Client.applyOperations_flags heard u.operations f).1]
    · simp [touched, Turn.applies, hu]
  | edit n e => by_cases hn : n = name <;> simp [touched, Turn.applies, hn]
  | discard n => by_cases hn : n = name <;> simp [touched, Turn.applies, hn]
  | _ => simp [touched, Turn.applies]

theorem touched_owesSnapshot (name : String) (t : Turn) (ho : f.owesSnapshot = true) :
    (f.touched name t).owesSnapshot = true := by
  cases t with
  | update heard u =>
    by_cases hu : u.name = name
    · simp [touched, hu, (Client.applyOperations_flags heard u.operations f).2, ho]
    · simp [touched, hu, ho]
  | edit n e => by_cases hn : n = name <;> simp [touched, hn, ho]
  | discard n => by_cases hn : n = name <;> simp [touched, hn, ho]
  | _ => exact ho

theorem turned_of_report {notices : List Notice} (hr : f.report? name t = some notices) :
    f.turned name t = (f.touched name t).reported := by
  simp [turned, hr]

theorem turned_of_no_report (hr : f.report? name t = none) :
    f.turned name t = f.touched name t := by
  simp [turned, hr]

/-- What is left pending by a turn has not been heard, so a snapshot is owed. -/
theorem turned_owing (ho : f.pending = true → f.owesSnapshot = true)
    (hp : (f.turned name t).pending = true) : (f.turned name t).owesSnapshot = true := by
  cases hr : f.report? name t with
  | some notices =>
    rw [turned_of_report hr] at hp
    cases hp
  | none =>
    rw [turned_of_no_report hr] at hp ⊢
    have hflags := touched_pending name f t
    rw [hp] at hflags
    rcases Bool.or_eq_true_iff.1 hflags.symm with hold | happlies
    · exact touched_owesSnapshot name _ (ho hold)
    · cases t with
      | update heard u =>
        obtain ⟨hu, haccepts⟩ : u.name = name ∧ f.replica.acceptsAny u.operations = true := by
          simpa [Turn.applies] using happlies
        -- Had it been heard, there would have been a report.
        have hunheard : heard = false := by
          by_contra hheard
          simp [report?, hu, hheard, hp] at hr
        subst hunheard
        simp [touched, hu, (Client.applyOperations_flags false u.operations f).2, haccepts]
      | _ => cases happlies

theorem turned_bind_pending (name : String) (f : Feed) : (f.turned name .bind).pending = false := by
  rw [turned_bind]
  split
  · rfl
  · rename_i hp
    simpa using hp

theorem turned_pending_of_heard (hheard : ∀ heard u, t = .update heard u → heard = true)
    (hp : f.pending = false) : (f.turned name t).pending = false := by
  cases hr : f.report? name t with
  | some notices =>
    rw [turned_of_report hr]
    rfl
  | none =>
    have hflags := touched_pending name f t
    rw [turned_of_no_report hr, hflags, hp, Bool.false_or]
    cases t with
    | update heard u =>
      by_contra happlies
      obtain ⟨hu, haccepts⟩ : u.name = name ∧ f.replica.acceptsAny u.operations = true := by
        simpa [Turn.applies] using happlies
      rw [hp, Bool.false_or, eq_true_of_ne_false happlies] at hflags
      obtain rfl := hheard heard u rfl
      simp [report?, hu, hflags] at hr
    | _ => rfl

theorem changeNotices_of_owes (ho : f.owesSnapshot = true) :
    f.changeNotices = f.snapshotNotices := by
  simp [changeNotices, ho]

theorem report_of_owes {notices : List Notice} (ho : f.owesSnapshot = true)
    (hr : f.report? name t = some notices) : notices = (f.touched name t).snapshotNotices := by
  have hchange := changeNotices_of_owes (touched_owesSnapshot name t ho)
  cases t with
  | event | edit | discard => cases hr
  | bind | update | flush | flushAll =>
    simp only [report?, hchange] at hr
    split at hr
    · exact (Option.some.inj hr).symm
    · cases hr

@[simp] theorem snapshotNotices_reported (f : Feed) :
    f.reported.snapshotNotices = f.snapshotNotices := by
  cases hr : f.replica <;> simp [snapshotNotices, reported, Replica.forgetChanges, hr,
    LiveArray.forgetChanges, LiveMap.forgetChanges, LiveArray.length] <;> rfl

/-- A turn that leaves nothing pending and nothing recorded has done nothing, unless it has thrown
records away. -/
theorem touched_of_clean (hdiscard : ∀ n, t ≠ .discard n)
    (hp : (f.touched name t).pending = false)
    (hlog : (f.touched name t).replica.hasChanges = false) : f.touched name t = f := by
  have hflags := touched_pending name f t
  rw [hp] at hflags
  obtain ⟨-, happlies⟩ := Bool.or_eq_false_iff.1 hflags.symm
  cases t with
  | update heard u =>
    by_cases hu : u.name = name
    · simp only [touched, hu, if_true]
      exact Client.applyOperations_idle heard u.operations f
        (by simpa [Turn.applies, hu] using happlies)
    · simp [touched, hu]
  | edit n e =>
    by_cases hn : n = name
    · simp only [touched, hn, if_true] at hlog ⊢
      rw [Replica.edited_of_no_changes hlog]
    · simp [touched, hn]
  | discard n => exact (hdiscard n rfl).elim
  | _ => rfl

end Feed

/-- The notices show all contents. Those of an array are shown to the handler of additions. Those of
a map are shown to the handler of updates, if there is one: in the order of keys each field whose
changes are not collected, and then all fields whose changes are collected. -/
inductive Feed.Shows (f : Feed) (notices : List Notice) : Prop
  | array {items : List Json} (hcontents : f.replica.snapshot = .array items)
      (hnotices : notices = [⟨f.onAdd.handler?, .array items, none⟩]) : Shows f notices
  | map {contents : Object} {alone collected : List Notice}
      (hcontents : f.replica.snapshot = .ofObject contents)
      (hheard : notices.filter (·.handler.isSome) = alone ++ collected)
      (halone : List.Forall₂ (fun key n => n.Reports f.onUpdate contents (· = key))
        (contents.keys.filter fun key =>
          f.onUpdate.collapses? key == some false && f.onUpdate.handler?.isSome) alone)
      (hcollected : Collected f.onUpdate contents
        (fun key => key ∈ contents.keys ∧ f.onUpdate.collapses? key = some true) collected) :
      Shows f notices

namespace Feed

theorem shows_snapshotNotices (f : Feed) : f.Shows f.snapshotNotices := by
  cases hr : f.replica with
  | array a => exact .array (by rw [hr]; rfl) (by simp [snapshotNotices, hr, arrayNotices])
  | map m =>
    have hnotices : f.snapshotNotices =
        f.mapNotices m.contents (m.contents.keys.map .set) := by rw [snapshotNotices, hr]
    obtain ⟨alone, updated, removed, hheard, halone, hupdated, hremoved⟩ :=
      f.heard_mapNotices m.contents (m.contents.keys.map .set)
    -- Nothing counts as removed.
    have hnone : removed = [] := by
      cases hremoved with
      | one hkeys =>
        obtain ⟨key, hkey, -⟩ := hkeys
        simp at hkey
      | nothing | unheard => rfl
    rw [hnone, List.append_nil, ← hnotices] at hheard
    refine .map (by rw [hr]; rfl) hheard ?_ ?_
    · rw [List.filter_map, List.forall₂_map_left_iff] at halone
      exact halone
    · simpa using hupdated

end Feed

end ExtensionHost
