import ExtensionHost.Proofs.ArrayReport

namespace ExtensionHost

theorem SortedMap.get?_foldl_insert {κ ν : Type} [Ord κ] [Std.TransOrd κ] [Std.LawfulEqOrd κ]
    {l : List (κ × ν)} (hs : l.Pairwise fun a b => compare a.1 b.1 = .lt) (m : SortedMap κ ν)
    (key : κ) :
    (l.foldl (fun m e => m.insert e.1 e.2) m).get? key = (lookup key l).or (m.get? key) := by
  induction l generalizing m with
  | nil => rfl
  | cons e rest ih =>
    have hp := List.pairwise_cons.1 hs
    rw [List.foldl_cons, ih hp.2, get?_insert]
    by_cases hkey : compare key e.1 = .eq
    · obtain rfl := Std.LawfulEqOrd.eq_of_compare hkey
      simp [lookup, lookup_of_lt hp.1]
    · simp [lookup, hkey]

theorem SortedMap.foldl_insert_entries {κ ν : Type} [Ord κ] [Std.TransOrd κ] [Std.LawfulEqOrd κ]
    (m : SortedMap κ ν) : m.entries.foldl (fun m e => m.insert e.1 e.2) empty = m := by
  refine eq_of_get? fun key => ?_
  rw [get?_foldl_insert m.sorted, get?_empty, Option.or_none]
  rfl

namespace Replica

/-- The edits that bring contents into a copy: one insertion of all items, or each key set, in
order. -/
def arrivals : Replica → List Edit
  | array a => [.insert 0 a.items]
  | map m => m.contents.entries.map fun e => .set e.1 e.2

def emptied (r : Replica) : Replica := .ofInitial r.kind .null

theorem foldl_edited_sets (entries : List (String × Json)) (m : LiveMap) :
    (entries.map fun e => Edit.set e.1 e.2).foldl edited (map m) =
      map ⟨entries.foldl (fun o e => o.insert e.1 e.2) m.contents,
        m.changes ++ entries.map fun e => .set e.1⟩ := by
  induction entries generalizing m with
  | nil => simp
  | cons e rest ih =>
    have hone : (map m).edited (.set e.1 e.2) = map (m.set e.1 e.2) := rfl
    rw [List.map_cons, List.foldl_cons, hone, ih]
    simp [LiveMap.set]

theorem arrived_map (m : LiveMap) : (map m).arrivals.foldl edited (map m).emptied =
    map ⟨m.contents, m.contents.keys.map .set⟩ := by
  have hempty : (map m).emptied = map ⟨.empty, []⟩ := rfl
  rw [hempty, arrivals, foldl_edited_sets, SortedMap.foldl_insert_entries]
  simp [SortedMap.keys]

theorem arrived_array (a : LiveArray) : (array a).arrivals.foldl edited (array a).emptied =
    array ⟨a.items, if a.items = [] then [] else [.insert 0 a.length]⟩ := by
  obtain ⟨items, changes⟩ := a
  by_cases hitems : items = [] <;>
    simp [arrivals, emptied, ofInitial, kind, edited, edit, LiveArray.edit, LiveArray.insert,
      LiveArray.ofItems, LiveArray.length, LiveArray.record, Except.map, Except.toOption, hitems]

end Replica

namespace Feed

def emptied (f : Feed) : Feed :=
  { f with replica := f.replica.emptied, pending := false, owesSnapshot := false }

variable {f : Feed} {calls : List Call}

theorem exists_arrived
    (hcalls : calls.map (·.edit? f.replica.kind) = f.replica.arrivals.map some) :
    ∃ pending, f.emptied.after calls =
      { f with
        replica := f.replica.arrivals.foldl Replica.edited f.replica.emptied
        pending
        owesSnapshot := false } := by
  have hreports : .report ∉ calls := by
    intro hmem
    have hnone := List.mem_map_of_mem (f := (·.edit? f.replica.kind)) hmem
    rw [hcalls] at hnone
    simp [Call.edit?] at hnone
  have hkind : f.replica.emptied.kind = f.replica.kind := by
    cases f.replica <;> rfl
  have hedits : editsOf f.replica.kind calls = f.replica.arrivals := by
    have hsome : calls.filterMap (·.edit? f.replica.kind) =
        (calls.map (·.edit? f.replica.kind)).filterMap id := by simp [List.filterMap_map]
    rw [editsOf, hsome, hcalls]
    simp
  have hreplica : (f.emptied.after calls).replica =
      f.replica.arrivals.foldl Replica.edited f.replica.emptied := by
    rw [replica_after hreports, emptied, hkind, hedits]
  obtain ⟨r, p, hafter⟩ := exists_after (f := f.emptied) hreports
  refine ⟨p, ?_⟩
  rw [← hreplica, hafter]
  rfl

theorem heard_array_of_insert (f : Feed) (items : List Json) (count : Nat) :
    (f.arrayNotices items [.insert 0 count]).filter (·.handler.isSome) =
      if f.onAdd.handler?.isSome then [f.noticeAbout items .add] else [] := by
  rw [heard_arrayNotices, told]
  cases h : f.onAdd.handler? <;> simp [ArrayChange.occasion, trigger, h]

/-- A snapshot says what a report says of live data that has been empty and has just received the
contents, by one insertion of all items or by setting each key in order. Only if there are no items,
it tells the handler of additions nevertheless, and the report does not. -/
theorem snapshot_as_arrived
    (hcalls : calls.map (·.edit? f.replica.kind) = f.replica.arrivals.map some) :
    (f.emptied.after calls).replica.snapshot = f.replica.snapshot ∧
    ((f.emptied.after calls).returned .report = f.snapshotNotices.filter (·.handler.isSome) ↔
      ¬ (f.replica.snapshot = .array [] ∧ f.onAdd.handler?.isSome)) := by
  obtain ⟨p, hafter⟩ := exists_arrived hcalls
  cases hr : f.replica with
  | map m =>
    rw [hr, Replica.arrived_map] at hafter
    have hsnapshot : (Replica.map m).snapshot ≠ .array [] := nofun
    refine ⟨by rw [hafter]; rfl, ?_⟩
    rw [hafter, snapshotNotices, hr]
    exact ⟨fun _ h => hsnapshot h.1, fun _ => rfl⟩
  | array a =>
    rw [hr, Replica.arrived_array] at hafter
    refine ⟨by rw [hafter]; rfl, ?_⟩
    by_cases hitems : a.items = []
    · -- Nothing has been recorded, and the snapshot claims an insertion.
      have hquiet : (f.emptied.after calls).returned .report = [] := by
        rw [hafter, hitems]
        rfl
      rw [hquiet, snapshotNotices, hr, heard_array_of_insert, Replica.snapshot, hitems]
      by_cases hhandler : f.onAdd.handler?.isSome <;> simp [hhandler]
    · have hsnapshot : (Replica.array a).snapshot ≠ .array [] := by simpa [Replica.snapshot]
      rw [hafter, if_neg hitems, snapshotNotices, hr]
      exact ⟨fun _ h => hsnapshot h.1, fun _ => rfl⟩

/-- A volume that has arrived by an inbound operation. -/
theorem snapshot_as_arrived_mixer :
    (mixer.emptied.after
      [.apply ⟨.set, some "volume", none, some (.string "low"), none⟩]).returned .report =
    mixer.snapshotNotices.filter (·.handler.isSome) := by
  have hcalls : ([.apply ⟨.set, some "volume", none, some (.string "low"), none⟩] :
      List Call).map (·.edit? mixer.replica.kind) = mixer.replica.arrivals.map some := rfl
  obtain ⟨-, hreport⟩ := snapshot_as_arrived hcalls
  exact hreport.2 fun h => nomatch h.1

/-- A snapshot of a list without any items tells of an addition that has not been made. -/
theorem snapshot_of_no_items :
    ([.apply ⟨.insert, none, some 0, some (.array []), none⟩] : List Call).map
        (·.edit? playlist.emptied.replica.kind) =
      playlist.emptied.replica.arrivals.map some ∧
    (playlist.emptied.emptied.after
      [.apply ⟨.insert, none, some 0, some (.array []), none⟩]).returned .report = [] ∧
    playlist.emptied.snapshotNotices.filter (·.handler.isSome) =
      [⟨some "queued", .array [], none⟩] :=
  ⟨rfl, by decide +kernel, by decide +kernel⟩

end Feed

end ExtensionHost
