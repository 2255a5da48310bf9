import ExtensionHost.Live.Edit
import ExtensionHost.Live.Feed

namespace ExtensionHost

def SortedMap.valueAt (o : Object) (key : String) : Json := (o.get? key).getD .null

/-- What a change to a live map has left on record: a key that is not on record had its value before
already. -/
structure LiveMap.Records (m m' : LiveMap) : Prop where
  log : m.changes <+: m'.changes
  contents : ∀ key, key ∉ m'.changes.map (·.key) → m'.contents.get? key = m.contents.get? key

namespace LiveMap

variable {m m' : LiveMap}

theorem records_refl (m : LiveMap) : m.Records m := ⟨List.prefix_rfl, fun _ _ => rfl⟩

theorem records_set (m : LiveMap) (key : String) (value : Json) : m.Records (m.set key value) where
  log := List.prefix_append _ _
  contents := by
    intro a ha
    have hne : a ≠ key := by
      rintro rfl
      simp [set, MapChange.key] at ha
    simp [set, hne]

theorem records_remove {key : String} {value : Json} (h : m.remove key = .ok (value, m')) :
    m.Records m' := by
  unfold remove at h
  split at h
  · cases h
  · cases h
    refine ⟨List.prefix_append _ _, fun a ha => ?_⟩
    have hne : key ≠ a := by
      rintro rfl
      simp [MapChange.key] at ha
    simp [hne]

theorem records_removed {key : String} (h : (m.remove key).map (·.2) = .ok m') : m.Records m' := by
  cases hr : m.remove key with
  | error fault => simp [hr, Except.map] at h
  | ok r =>
    obtain rfl : r.2 = m' := by simpa [hr, Except.map] using h
    exact records_remove hr

theorem records_apply {op : Operation} (h : m.apply op = .ok m') : m.Records m' := by
  unfold apply at h
  split at h
  · cases h
  · cases h
    exact m.records_set _ _
  · exact records_removed h
  · cases h

theorem records_edit {e : Edit} (h : m.edit e = .ok m') : m.Records m' := by
  cases e with
  | set key value =>
    cases h
    exact m.records_set _ _
  | erase key => exact records_removed h
  | _ =>
    cases h
    exact m.records_refl

end LiveMap

/-- The value that a notice gives for a key. -/
def Notice.value? (n : Notice) (key : String) : Option Json := n.changed.bind (·.get? key)

namespace Mirror

def assign (mirror : Object) (entry : String × Json) : Object :=
  if entry.2.isNull then mirror.erase entry.1 else mirror.insert entry.1 entry.2

def note (mirror : Object) (n : Notice) : Object :=
  match n.changed with
  | none => mirror
  | some changed => changed.entries.foldl assign mirror

theorem valueAt_assign (mirror : Object) (entry : String × Json) (key : String) :
    (assign mirror entry).valueAt key = if key = entry.1 then entry.2 else mirror.valueAt key := by
  obtain ⟨a, v⟩ := entry
  have hnull : v.isNull = true ↔ v = .null := by cases v <;> simp [Json.isNull]
  unfold assign SortedMap.valueAt
  by_cases hv : v = .null
  · subst hv
    by_cases hkey : key = a
    · simp [Json.isNull, hkey]
    · simp [Json.isNull, hkey, Ne.symm hkey]
  · rw [if_neg (mt hnull.1 hv)]
    by_cases hkey : key = a <;> simp [hkey]

theorem valueAt_foldl_assign {l : List (String × Json)}
    (hs : l.Pairwise fun a b => compare a.1 b.1 = .lt) (mirror : Object) (key : String) :
    (l.foldl assign mirror).valueAt key =
      (SortedMap.lookup key l).getD (mirror.valueAt key) := by
  induction l generalizing mirror with
  | nil => rfl
  | cons e rest ih =>
    have hp := List.pairwise_cons.1 hs
    rw [List.foldl_cons, ih hp.2, valueAt_assign]
    by_cases hkey : key = e.1
    · -- No later entry has the key, so none takes the value back.
      have hrest : SortedMap.lookup e.1 rest = none := SortedMap.lookup_of_lt hp.1
      simp [SortedMap.lookup, hrest, hkey]
    · simp [SortedMap.lookup, hkey]

theorem valueAt_note (mirror : Object) (n : Notice) (key : String) :
    (note mirror n).valueAt key = (n.value? key).getD (mirror.valueAt key) := by
  unfold note Notice.value?
  cases n.changed with
  | none => rfl
  | some changed => exact valueAt_foldl_assign changed.sorted mirror key

theorem valueAt_foldl_note {notices : List Notice} {mirror : Object} {key : String} {v : Json}
    (hv : ∀ n ∈ notices, ∀ w, n.value? key = some w → w = v)
    (htold : mirror.valueAt key = v ∨ ∃ n ∈ notices, (n.value? key).isSome) :
    (notices.foldl note mirror).valueAt key = v := by
  induction notices generalizing mirror with
  | nil => simpa using htold
  | cons n rest ih =>
    apply ih fun n' hn' => hv n' (List.mem_cons_of_mem _ hn')
    rw [valueAt_note]
    cases hn : n.value? key with
    | some w => exact .inl (hv n (List.mem_cons_self ..) w hn)
    | none =>
      rcases htold with hsame | ⟨n', hn', hsome⟩
      · exact .inl hsame
      · rcases List.mem_cons.1 hn' with rfl | hrest
        · simp [hn] at hsome
        · exact .inr ⟨n', hrest, hsome⟩

end Mirror

namespace Feed

theorem get?_valuesOf (contents : Object) (keys : List String) (key : String) :
    (valuesOf contents keys).get? key =
      if key ∈ keys then some (contents.valueAt key) else none := by
  unfold valuesOf
  induction keys with
  | nil => simp
  | cons a rest ih =>
    rw [List.map_cons, SortedMap.get?_ofList_cons, ih]
    by_cases hrest : key ∈ rest
    · simp [hrest]
    · by_cases hkey : key = a
      · subst hkey
        simp [hrest, SortedMap.valueAt]
      · simp [hrest, hkey]

variable {f : Feed} {contents : Object} {changes : List MapChange} {key : String}

theorem changed_of_mem_mapNotices {n : Notice} (hn : n ∈ f.mapNotices contents changes) :
    ∃ keys, n.changed = some (valuesOf contents keys) := by
  simp only [mapNotices, List.mem_append, List.mem_filterMap, List.mem_ite_nil_left,
    List.mem_singleton] at hn
  rcases hn with (⟨c, -, hc⟩ | ⟨-, rfl⟩) | ⟨-, rfl⟩
  · split at hc
    · cases hc
      exact ⟨_, rfl⟩
    · cases hc
  · exact ⟨_, rfl⟩
  · exact ⟨_, rfl⟩

theorem value?_of_mem_mapNotices {n : Notice} (hn : n ∈ f.mapNotices contents changes) {v : Json}
    (hv : n.value? key = some v) : v = contents.valueAt key := by
  obtain ⟨keys, hchanged⟩ := changed_of_mem_mapNotices hn
  simp only [Notice.value?, hchanged, Option.bind_some, get?_valuesOf] at hv
  split at hv
  · exact (Option.some.inj hv).symm
  · cases hv

/-- Both triggers have a handler, and changes of the key count for both. -/
structure Covers (f : Feed) (key : String) : Prop where
  updateHandler : f.onUpdate.handler?.isSome
  removeHandler : f.onRemove.handler?.isSome
  update : (f.onUpdate.collapses? key).isSome
  remove : (f.onRemove.collapses? key).isSome

theorem Covers.congr {g : Feed} (h : f.Covers key) (hupdate : g.onUpdate = f.onUpdate)
    (hremove : g.onRemove = f.onRemove) : g.Covers key := by
  constructor
  · exact hupdate ▸ h.updateHandler
  · exact hremove ▸ h.removeHandler
  · exact hupdate ▸ h.update
  · exact hremove ▸ h.remove

theorem Covers.trigger (h : f.Covers key) (c : MapChange) :
    (f.mapTrigger c).handler?.isSome ∧ ((f.mapTrigger c).collapses? key).isSome := by
  cases c with
  | set => exact ⟨h.updateHandler, h.update⟩
  | remove => exact ⟨h.removeHandler, h.remove⟩

theorem mem_collectedKeys {t : Trigger} {keys : List String} :
    key ∈ collectedKeys t keys ↔ key ∈ keys ∧ t.collapses? key = some true := by
  simp [collectedKeys]

theorem mem_collectedKeys_filterMap {t : Trigger} {c : MapChange} {g : MapChange → Option String}
    (hc : c ∈ changes) (hkey : g c = some key) (hcollapse : t.collapses? key = some true) :
    key ∈ collectedKeys t (changes.filterMap g) :=
  mem_collectedKeys.2 ⟨List.mem_filterMap.2 ⟨c, hc, hkey⟩, hcollapse⟩

theorem exists_notice_of_change {c : MapChange} (hc : c ∈ changes)
    (hcounts : ((f.mapTrigger c).collapses? c.key).isSome) :
    ∃ n ∈ f.mapNotices contents changes, n.handler = (f.mapTrigger c).handler? ∧
      (n.value? c.key).isSome := by
  have htold : ∀ {keys : List String}, c.key ∈ keys →
      ((valuesOf contents keys).get? c.key).isSome := by
    intro keys hkeys
    rw [get?_valuesOf, if_pos hkeys]
    rfl
  obtain ⟨collapse, hcollapse⟩ := Option.isSome_iff_exists.1 hcounts
  simp only [mapNotices, List.mem_append, List.mem_filterMap, List.mem_ite_nil_left,
    List.mem_singleton]
  cases collapse with
  | false =>
    exact ⟨_, .inl (.inl ⟨c, hc, if_pos hcollapse⟩), rfl, htold (List.mem_singleton_self _)⟩
  | true =>
    cases c with
    | set key =>
      exact ⟨_, .inl (.inr
        ⟨List.ne_nil_of_mem (mem_collectedKeys_filterMap hc rfl hcollapse), rfl⟩),
        rfl, htold (mem_collectedKeys_filterMap hc rfl hcollapse)⟩
    | remove key =>
      exact ⟨_, .inr ⟨List.ne_nil_of_mem (mem_collectedKeys_filterMap hc rfl hcollapse), rfl⟩,
        rfl, htold (mem_collectedKeys_filterMap hc rfl hcollapse)⟩

inductive Call where
  | apply (op : Operation)
  | edit (e : Edit)
  | report

def called (f : Feed) : Call → Feed
  | .apply op => (f.apply op).toOption.getD f
  | .edit e => { f with replica := f.replica.edited e }
  | .report => f.reported

/-- The notices that a call returns. Without a handler there is none. -/
def returned (f : Feed) : Call → List Notice
  | .report => f.changeNotices.filter (·.handler.isSome)
  | .apply _ | .edit _ => []

end Feed

namespace Mirror

open Feed (Call Covers)

/-- The copy and its mirror after a call. -/
def watch (s : Feed × Object) (call : Call) : Feed × Object :=
  (s.1.called call, (s.1.returned call).foldl note s.2)

/-- The copy and its mirror after a run. -/
def after (s : Feed × Object) (calls : List Call) : Feed × Object := calls.foldl watch s

/-- A mirror of a map is behind by recorded changes only. -/
structure Follows (key : String) (s : Feed × Object) : Prop where
  covers : s.1.Covers key
  owesSnapshot : s.1.owesSnapshot = false
  contents : ∃ m, s.1.replica = .map m ∧
    (key ∉ m.changes.map (·.key) → s.2.valueAt key = m.contents.valueAt key)

variable {key : String} {f : Feed} {mirror : Object} {m m' : LiveMap}

theorem follows_of_records (hi : Follows key (f, mirror)) (hm : f.replica = .map m)
    (hrecords : m.Records m') (pending : Bool) :
    Follows key ({ f with replica := .map m', pending }, mirror) where
  covers := hi.covers.congr rfl rfl
  owesSnapshot := hi.owesSnapshot
  contents := by
    obtain ⟨m₀, hm₀, hagree⟩ := hi.contents
    obtain rfl : m = m₀ := Replica.map.inj (hm.symm.trans hm₀)
    refine ⟨m', rfl, fun hkey => ?_⟩
    -- The log only grows: a key that is not on it now was not on it before.
    have hold : key ∉ m.changes.map (·.key) := fun hmem =>
      hkey ((hrecords.log.map _).subset hmem)
    rw [hagree hold, SortedMap.valueAt, SortedMap.valueAt, hrecords.contents key hkey]

theorem follows_apply (hi : Follows key (f, mirror)) (op : Operation) :
    Follows key (watch (f, mirror) (.apply op)) := by
  obtain ⟨m, hm, -⟩ := hi.contents
  have hm : f.replica = .map m := hm
  cases happ : m.apply op with
  | error fault =>
    simpa [watch, Feed.called, Feed.returned, Feed.apply, hm, Replica.apply, happ, Except.map,
      Except.toOption] using hi
  | ok m' =>
    simpa [watch, Feed.called, Feed.returned, Feed.apply, hm, Replica.apply, happ, Except.map,
      Except.toOption] using follows_of_records hi hm (LiveMap.records_apply happ) true

theorem follows_edit (hi : Follows key (f, mirror)) (e : Edit) :
    Follows key (watch (f, mirror) (.edit e)) := by
  obtain ⟨m, hm, -⟩ := hi.contents
  have hm : f.replica = .map m := hm
  have hedited : ∃ m', f.replica.edited e = .map m' ∧ m.Records m' := by
    cases he : m.edit e with
    | error fault =>
      refine ⟨m, ?_, m.records_refl⟩
      simp [Replica.edited, Replica.edit, hm, he, Except.map, Except.toOption]
    | ok m' =>
      refine ⟨m', ?_, LiveMap.records_edit he⟩
      simp [Replica.edited, Replica.edit, hm, he, Except.map, Except.toOption]
  obtain ⟨m', hm', hrecords⟩ := hedited
  have hfollows := follows_of_records hi hm hrecords f.pending
  rw [← hm'] at hfollows
  exact hfollows

/-- A report brings the mirror up to date: all that it says about the key is the value that the key
has now, and if it says nothing, that is the value that the mirror has. -/
theorem agrees_report (hi : Follows key (f, mirror)) (hm : f.replica = .map m) :
    (watch (f, mirror) .report).2.valueAt key = m.contents.valueAt key := by
  obtain ⟨m₀, hm₀, hagree⟩ := hi.contents
  obtain rfl : m = m₀ := Replica.map.inj (hm.symm.trans hm₀)
  have howes : f.owesSnapshot = false := hi.owesSnapshot
  have hnotices : f.changeNotices = f.mapNotices m.contents m.changes := by
    simp [Feed.changeNotices, howes, hm]
  simp only [watch, Feed.returned, hnotices]
  -- All values are read from the contents as they are now: the order of notices is no matter.
  refine valueAt_foldl_note (fun n hn v hv => ?_) ?_
  · exact Feed.value?_of_mem_mapNotices (List.mem_filter.1 hn).1 hv
  · by_cases hkey : key ∈ m.changes.map (·.key)
    · obtain ⟨c, hc, rfl⟩ := List.mem_map.1 hkey
      obtain ⟨hhandler, hcounts⟩ := hi.covers.trigger c
      obtain ⟨n, hn, htrigger, hvalue⟩ := Feed.exists_notice_of_change hc hcounts
      exact .inr ⟨n, List.mem_filter.2 ⟨hn, htrigger ▸ hhandler⟩, hvalue⟩
    · exact .inl (hagree hkey)

theorem follows_report (hi : Follows key (f, mirror)) :
    Follows key (watch (f, mirror) .report) := by
  obtain ⟨m, hm, -⟩ := hi.contents
  have hagree := agrees_report hi hm
  refine ⟨hi.covers.congr rfl rfl, rfl, m.forgetChanges, ?_, fun _ => hagree⟩
  have hm : f.replica = .map m := hm
  simp [watch, Feed.called, Feed.reported, hm, Replica.forgetChanges]

theorem follows_watch {s : Feed × Object} (hi : Follows key s) (call : Call) :
    Follows key (watch s call) := by
  cases call with
  | apply op => exact follows_apply hi op
  | edit e => exact follows_edit hi e
  | report => exact follows_report hi

theorem follows_after (calls : List Call) {s : Feed × Object} (hi : Follows key s) :
    Follows key (after s calls) := by
  induction calls generalizing s with
  | nil => exact hi
  | cons call rest ih => exact ih (follows_watch hi call)

/-- The reports about a map are enough to keep a mirror of it, as far as a key counts for updates as
well as for removals: however it is changed in between and whether its changes are collected or not,
right after every report the mirror has the value that the map has. -/
theorem mirror_agrees (hm : f.replica = .map m) (howes : f.owesSnapshot = false)
    (hcovers : f.Covers key) (hagree : mirror.valueAt key = m.contents.valueAt key)
    (calls : List Call) :
    ∃ m', (after (f, mirror) (calls ++ [.report])).1.replica = .map m' ∧
      (after (f, mirror) (calls ++ [.report])).2.valueAt key = m'.contents.valueAt key := by
  have hi : Follows key (after (f, mirror) calls) :=
    follows_after calls ⟨hcovers, howes, m, hm, fun _ => hagree⟩
  obtain ⟨m', hm', -⟩ := hi.contents
  have hlast : after (f, mirror) (calls ++ [.report]) = watch (after (f, mirror) calls) .report :=
    List.foldl_append
  rw [hlast]
  have hreport : (watch (after (f, mirror) calls) .report).2.valueAt key =
      m'.contents.valueAt key := agrees_report hi hm'
  refine ⟨m'.forgetChanges, ?_, hreport⟩
  simp [watch, Feed.called, Feed.reported, hm', Replica.forgetChanges]

/-- Live data with the key `volume`, whose updates are reported one by one and whose removals are
collected. -/
def player : Feed where
  name := "player"
  typeName := "Player"
  onAdd := .empty
  onUpdate := ⟨some "tuned", .ofList [("volume", false)]⟩
  onRemove := ⟨some "muted", .ofList [("volume", true)]⟩
  replica := .map (.ofObject (.ofList [("volume", .string "low")]))
  pending := false
  owesSnapshot := false

/-- The removal is collected and so reported last, though the key has been set again after it. -/
theorem mirror_agrees_player : player.Covers "volume" ∧
    (after (player, .ofList [("volume", .string "low")])
      ([.edit (.erase "volume"), .edit (.set "volume" (.string "high"))] ++
        [.report])).2.valueAt "volume" = .string "high" := by
  have hcovers : player.Covers "volume" :=
    ⟨by decide +kernel, by decide +kernel, by decide +kernel, by decide +kernel⟩
  have hstart : (SortedMap.ofList [("volume", .string "low")] : Object).valueAt "volume" =
      (LiveMap.ofObject (.ofList [("volume", .string "low")])).contents.valueAt "volume" := rfl
  obtain ⟨m, hm, hagree⟩ := mirror_agrees rfl rfl hcovers hstart
    [.edit (.erase "volume"), .edit (.set "volume" (.string "high"))]
  have hlast : (after (player, .ofList [("volume", .string "low")])
      ([.edit (.erase "volume"), .edit (.set "volume" (.string "high"))] ++
        [.report])).1.replica.snapshot.fields.valueAt "volume" = .string "high" := by
    decide +kernel
  rw [hm, Replica.snapshot, Json.fields, Json.asObject?_ofObject] at hlast
  exact ⟨hcovers, hagree.trans hlast⟩

end Mirror

end ExtensionHost
