import Mathlib.Data.List.Forall2
import ExtensionHost.Proofs.Mirror

namespace ExtensionHost

open Feed (Call)

/-- What a call leaves on record of a map with the contents: the change of a key that it sets, or
that it removes where it is present. -/
def Feed.Call.record? (contents : Object) : Call → Option MapChange
  | .edit (.set key _) => some (.set key)
  | .edit (.erase key) => if contents.contains key then some (.remove key) else none
  | .apply op =>
    match op.kind, op.key with
    | .set, some key => some (.set key)
    | .remove, some key => if contents.contains key then some (.remove key) else none
    | _, _ => none
  | _ => none

namespace LiveMap

def called (m : LiveMap) : Call → LiveMap
  | .apply op => (m.apply op).toOption.getD m
  | .edit e => (m.edit e).toOption.getD m
  | .report => m.forgetChanges

def after (m : LiveMap) (calls : List Call) : LiveMap := calls.foldl called m

def recorded (m : LiveMap) : List Call → List MapChange
  | [] => []
  | call :: rest => (call.record? m.contents).toList ++ (m.called call).recorded rest

theorem changes_remove (m : LiveMap) (key : String) :
    (((m.remove key).map (·.2)).toOption.getD m).changes =
      m.changes ++ (if m.contents.contains key then some (.remove key) else none).toList := by
  cases hkey : m.contents.get? key <;>
    simp [remove, get?, hkey, SortedMap.contains, Except.map, Except.toOption]

theorem changes_called (m : LiveMap) {call : Call} (hcall : call ≠ .report) :
    (m.called call).changes = m.changes ++ (call.record? m.contents).toList := by
  cases call with
  | report => exact (hcall rfl).elim
  | edit e =>
    cases e with
    | set key value => rfl
    | erase key => exact m.changes_remove key
    | _ => simp [called, edit, Call.record?, Except.toOption]
  | apply op =>
    obtain ⟨kind, key, index, item, count⟩ := op
    cases key with
    | none => cases kind <;> simp [called, apply, Call.record?, Except.toOption]
    | some key =>
      cases kind with
      | set => rfl
      | remove => exact m.changes_remove key
      | _ => simp [called, apply, Call.record?, Except.toOption]

theorem changes_after (m : LiveMap) {calls : List Call} (hcalls : .report ∉ calls) :
    (m.after calls).changes = m.changes ++ m.recorded calls := by
  induction calls generalizing m with
  | nil => simp [after, recorded]
  | cons call rest ih =>
    obtain ⟨hcall, hrest⟩ := List.ne_and_not_mem_of_not_mem_cons hcalls
    have hrun := ih (m.called call) hrest
    rw [changes_called m (Ne.symm hcall), List.append_assoc] at hrun
    exact hrun

end LiveMap

/-- A notice that tells the trigger's handler of some keys of a map: it shows all contents, and for
each of these keys and no others the value that it has in them, or null if it is gone. -/
structure Notice.Reports (n : Notice) (t : Trigger) (contents : Object) (keys : String → Prop) :
    Prop where
  handler : ∃ name, t.handler? = some name ∧ n.handler = some name
  current : n.current = .ofObject contents
  changed : ∃ changed, n.changed = some changed ∧
    ∀ key v, changed.get? key = some v ↔ keys key ∧ v = (contents.get? key).getD .null

/-- The notices for keys whose changes are collected: a single one about all of them, if there are
any and the trigger has a handler. -/
inductive Collected (t : Trigger) (contents : Object) (keys : String → Prop) : List Notice → Prop
  | one {n : Notice} (hkeys : ∃ key, keys key) (hn : n.Reports t contents keys) :
    Collected t contents keys [n]
  | nothing (hkeys : ∀ key, ¬ keys key) : Collected t contents keys []
  | unheard (hhandler : t.handler? = none) : Collected t contents keys []

namespace Feed

variable {f : Feed} {m : LiveMap}

def after (f : Feed) (calls : List Call) : Feed := calls.foldl called f

/-- The feed `g` has the map `m` and is in all else that reports depend on as the feed `f`. -/
structure Carried (f g : Feed) (m : LiveMap) : Prop where
  replica : g.replica = .map m
  onUpdate : g.onUpdate = f.onUpdate
  onRemove : g.onRemove = f.onRemove
  owesSnapshot : g.owesSnapshot = f.owesSnapshot

theorem carried_called (hm : f.replica = .map m) {call : Call} (hcall : call ≠ .report) :
    Carried f (f.called call) (m.called call) := by
  cases call with
  | report => exact (hcall rfl).elim
  | apply op =>
    cases happ : m.apply op <;> constructor <;>
      simp [called, apply, LiveMap.called, hm, Replica.apply, happ, Except.map, Except.toOption]
  | edit e =>
    cases hedit : m.edit e <;> constructor <;>
      simp [called, LiveMap.called, hm, Replica.edited, Replica.edit, hedit, Except.map,
        Except.toOption]

theorem carried_after (hm : f.replica = .map m) {calls : List Call} (hcalls : .report ∉ calls) :
    Carried f (f.after calls) (m.after calls) := by
  induction calls generalizing f m with
  | nil => exact ⟨hm, rfl, rfl, rfl⟩
  | cons call rest ih =>
    obtain ⟨hcall, hrest⟩ := List.ne_and_not_mem_of_not_mem_cons hcalls
    have hone := carried_called hm (Ne.symm hcall)
    have hmore := ih hone.replica hrest
    exact ⟨hmore.replica, hmore.onUpdate.trans hone.onUpdate, hmore.onRemove.trans hone.onRemove,
      hmore.owesSnapshot.trans hone.owesSnapshot⟩

/-- A change that somebody is told of on its own. -/
def tellsAlone (f : Feed) (c : MapChange) : Bool :=
  (f.mapTrigger c).collapses? c.key == some false && (f.mapTrigger c).handler?.isSome

def noticeOf (t : Trigger) (contents : Object) (keys : List String) : Notice :=
  ⟨t.handler?, .ofObject contents, some (valuesOf contents keys)⟩

theorem reports_noticeOf {t : Trigger} (ht : t.handler?.isSome) (contents : Object)
    (keys : List String) : (noticeOf t contents keys).Reports t contents (· ∈ keys) where
  handler := by
    obtain ⟨name, hname⟩ := Option.isSome_iff_exists.1 ht
    exact ⟨name, hname, hname⟩
  current := rfl
  changed := by
    refine ⟨_, rfl, fun key v => ?_⟩
    rw [get?_valuesOf, SortedMap.valueAt]
    split <;> simp [*, eq_comm]

theorem reports_alone (f : Feed) (contents : Object) (changes : List MapChange) :
    List.Forall₂ (fun c n => n.Reports (f.mapTrigger c) contents (· = c.key))
      (changes.filter f.tellsAlone)
      ((changes.filter f.tellsAlone).map fun c => noticeOf (f.mapTrigger c) contents [c.key]) := by
  refine List.forall₂_map_right_iff.2 (List.forall₂_same.2 fun c hc => ?_)
  have halone := (List.mem_filter.1 hc).2
  simp only [tellsAlone, Bool.and_eq_true] at halone
  simpa using reports_noticeOf halone.2 contents [c.key]

def batchOf (t : Trigger) (contents : Object) (keys : List String) : List Notice :=
  if collectedKeys t keys = [] then [] else [noticeOf t contents (collectedKeys t keys)]

theorem collected_batchOf (t : Trigger) (contents : Object) {keys : List String}
    {p : String → Prop} (hp : ∀ key, key ∈ keys ↔ p key) :
    Collected t contents (fun key => p key ∧ t.collapses? key = some true)
      ((batchOf t contents keys).filter (·.handler.isSome)) := by
  have hcollected : (fun key => p key ∧ t.collapses? key = some true) =
      (· ∈ collectedKeys t keys) := by
    funext key
    rw [mem_collectedKeys, hp]
  rw [hcollected, batchOf]
  by_cases hkeys : collectedKeys t keys = []
  · rw [hkeys]
    exact .nothing (by simp)
  · obtain ⟨key, hkey⟩ := List.exists_mem_of_ne_nil _ hkeys
    cases ht : t.handler? with
    | none => simpa [hkeys, noticeOf, ht] using Collected.unheard ht
    | some name =>
      have hn := reports_noticeOf (t := t) (by simp [ht]) contents (collectedKeys t keys)
      simpa [hkeys, noticeOf, ht] using Collected.one ⟨key, hkey⟩ hn

def setKeys (changes : List MapChange) : List String :=
  changes.filterMap fun | .set key => some key | .remove _ => none

def removedKeys (changes : List MapChange) : List String :=
  changes.filterMap fun | .remove key => some key | .set _ => none

theorem mem_pickedKeys {pick : MapChange → Option String} {record : String → MapChange}
    (hpick : ∀ c key, pick c = some key ↔ c = record key) {changes : List MapChange}
    {key : String} : key ∈ changes.filterMap pick ↔ record key ∈ changes := by
  simp only [List.mem_filterMap, hpick, exists_eq_right]

theorem mem_setKeys {changes : List MapChange} {key : String} :
    key ∈ setKeys changes ↔ .set key ∈ changes :=
  mem_pickedKeys fun c _ => by cases c <;> simp

theorem mem_removedKeys {changes : List MapChange} {key : String} :
    key ∈ removedKeys changes ↔ .remove key ∈ changes :=
  mem_pickedKeys fun c _ => by cases c <;> simp

theorem mapNotices_eq (f : Feed) (contents : Object) (changes : List MapChange) :
    f.mapNotices contents changes =
      (changes.filterMap fun c =>
        if (f.mapTrigger c).collapses? c.key = some false then
          some (noticeOf (f.mapTrigger c) contents [c.key])
        else none) ++ batchOf f.onUpdate contents (setKeys changes) ++
      batchOf f.onRemove contents (removedKeys changes) := rfl

theorem heard_alone (f : Feed) (contents : Object) (changes : List MapChange) :
    (changes.filterMap fun c =>
      if (f.mapTrigger c).collapses? c.key = some false then
        some (noticeOf (f.mapTrigger c) contents [c.key])
      else none).filter (·.handler.isSome) =
    (changes.filter f.tellsAlone).map fun c => noticeOf (f.mapTrigger c) contents [c.key] := by
  induction changes with
  | nil => rfl
  | cons c rest ih =>
    by_cases hc : (f.mapTrigger c).collapses? c.key = some false <;>
      cases ht : (f.mapTrigger c).handler? <;>
        simpa [tellsAlone, noticeOf, hc, ht] using ih

/-- What somebody hears of recorded changes of a map: first each change that is told of on its own,
in order, then the updates that are collected, then the removals. -/
theorem heard_mapNotices (f : Feed) (contents : Object) (changes : List MapChange) :
    ∃ alone updated removed,
      (f.mapNotices contents changes).filter (·.handler.isSome) = alone ++ updated ++ removed ∧
      List.Forall₂ (fun c n => n.Reports (f.mapTrigger c) contents (· = c.key))
        (changes.filter f.tellsAlone) alone ∧
      Collected f.onUpdate contents
        (fun key => .set key ∈ changes ∧ f.onUpdate.collapses? key = some true) updated ∧
      Collected f.onRemove contents
        (fun key => .remove key ∈ changes ∧ f.onRemove.collapses? key = some true) removed := by
  refine ⟨_, _, _, ?_, f.reports_alone contents changes,
    collected_batchOf f.onUpdate contents fun _ => mem_setKeys,
    collected_batchOf f.onRemove contents fun _ => mem_removedKeys⟩
  rw [mapNotices_eq, List.filter_append, List.filter_append, heard_alone]

/-- What a map reports after calls. With no snapshot owed these are exactly: one notice for each
change on record that is not collected, in order, about its key; then one about the keys that have
been set and whose updates are collected; then one about the keys that have been removed and whose
removals are collected. Each of them shows the contents as they are at the report. A trigger without
a handler drops out and the others do not notice, and a key that a trigger does not have is left
out. Then the log is empty and nothing is pending, and reporting again says nothing. -/
theorem changes_reported (hm : f.replica = .map m) (howes : f.owesSnapshot = false)
    {calls : List Call} (hcalls : .report ∉ calls) :
    (f.after calls).replica = .map (m.after calls) ∧
    (m.after calls).changes = m.changes ++ m.recorded calls ∧
    (∃ alone updated removed,
      (f.after calls).returned .report = alone ++ updated ++ removed ∧
      List.Forall₂ (fun c n => n.Reports (f.mapTrigger c) (m.after calls).contents (· = c.key))
        ((m.changes ++ m.recorded calls).filter f.tellsAlone) alone ∧
      Collected f.onUpdate (m.after calls).contents
        (fun key => .set key ∈ m.changes ++ m.recorded calls ∧
          f.onUpdate.collapses? key = some true) updated ∧
      Collected f.onRemove (m.after calls).contents
        (fun key => .remove key ∈ m.changes ++ m.recorded calls ∧
          f.onRemove.collapses? key = some true) removed) ∧
    ((f.after calls).called .report).replica = .map (m.after calls).forgetChanges ∧
    ((f.after calls).called .report).pending = false ∧
    ((f.after calls).called .report).returned .report = [] := by
  obtain ⟨hreplica, hupdate, hremove, howed⟩ := carried_after hm hcalls
  have hreported : ((f.after calls).called .report).replica =
      .map (m.after calls).forgetChanges := by
    simp [called, reported, hreplica, Replica.forgetChanges]
  refine ⟨hreplica, m.changes_after hcalls, ?_, hreported, rfl, ?_⟩
  · have htrigger : (f.after calls).mapTrigger = f.mapTrigger := by
      funext c
      cases c with
      | set => exact hupdate
      | remove => exact hremove
    have htells : (f.after calls).tellsAlone = f.tellsAlone := by
      funext c
      rw [tellsAlone, htrigger, tellsAlone]
    have hnotices : (f.after calls).changeNotices =
        (f.after calls).mapNotices (m.after calls).contents (m.changes ++ m.recorded calls) := by
      rw [← LiveMap.changes_after m hcalls]
      simp [changeNotices, howed, howes, hreplica]
    have hheard := (f.after calls).heard_mapNotices (m.after calls).contents
      (m.changes ++ m.recorded calls)
    rw [htrigger, htells, hupdate, hremove, ← hnotices] at hheard
    exact hheard
  · have hquiet : ((f.after calls).called .report).changeNotices = [] := by
      have howes' : ((f.after calls).called .report).owesSnapshot = false := rfl
      rw [changeNotices, howes', hreported]
      rfl
    rw [returned, hquiet]
    rfl

def mixer : Feed where
  name := "mixer"
  typeName := "Mixer"
  onAdd := .empty
  onUpdate := ⟨some "tuned", .ofList [("track", false), ("volume", true)]⟩
  onRemove := ⟨some "muted", .ofList [("volume", true)]⟩
  replica := .map (.ofObject (.ofList [("volume", .string "low")]))
  pending := false
  owesSnapshot := false

/-- Two new tracks, and a volume that is set, removed and set again. The removal of a key that is
not there fails. -/
def retuned : List Call :=
  [.edit (.set "track" (.string "one")), .edit (.set "volume" (.string "high")),
    .edit (.erase "volume"), .edit (.set "track" (.string "two")), .edit (.erase "balance"),
    .apply ⟨.set, some "volume", none, some (.string "medium"), none⟩]

theorem changes_reported_mixer : mixer.owesSnapshot = false ∧ .report ∉ retuned ∧
    ∃ alone n removed, (mixer.after retuned).returned .report = alone ++ [n] ++ removed ∧
      alone.length = 2 ∧ n.value? "volume" = some (.string "medium") := by
  have hcalls : .report ∉ retuned := by simp [retuned]
  obtain ⟨-, -, ⟨alone, updated, removed, hnotices, halone, hupdated, -⟩, -⟩ :=
    changes_reported (f := mixer) rfl rfl hcalls
  have hlength : alone.length = 2 := by
    rw [← List.Forall₂.length_eq halone]
    decide +kernel
  have hvolume : MapChange.set "volume" ∈ [] ++ (LiveMap.ofObject
      (.ofList [("volume", .string "low")])).recorded retuned ∧
      mixer.onUpdate.collapses? "volume" = some true := by decide +kernel
  refine ⟨rfl, hcalls, alone, ?_⟩
  cases hupdated with
  | one _ hn =>
    obtain ⟨changed, hchanged, hvalues⟩ := hn.changed
    refine ⟨_, removed, hnotices, hlength, ?_⟩
    rw [Notice.value?, hchanged]
    exact (hvalues _ _).2 ⟨hvolume, by decide +kernel⟩
  | nothing hkeys => exact (hkeys _ hvolume).elim
  | unheard hhandler => exact absurd hhandler (by decide +kernel)

end Feed

end ExtensionHost
