import ExtensionHost.Proofs.Calls

namespace ExtensionHost

open Feed (Call)

def MapChange.isRemoval : MapChange → Bool
  | set _ => false
  | remove _ => true

namespace Feed

/-- What a call makes of a key, if anything: a value, or none where it removes the key. -/
def Call.write? (key : String) (call : Call) : Option (Option Json) :=
  match call.edit? .object with
  | some (.set k value) => if k = key then some (some value) else none
  | some (.erase k) => if k = key then some none else none
  | _ => none

/-- What the last call makes of a key that makes anything of it. -/
def lastWrite? (calls : List Call) (key : String) : Option (Option Json) :=
  (calls.filterMap (·.write? key)).getLast?

theorem lastWrite?_cons (call : Call) (rest : List Call) (key : String) :
    lastWrite? (call :: rest) key = (lastWrite? rest key).or (call.write? key) := by
  unfold lastWrite?
  cases hwrite : call.write? key with
  | none => rw [List.filterMap_cons_none hwrite, Option.or_none]
  | some w =>
    rw [List.filterMap_cons_some hwrite, List.getLast?_cons]
    cases (rest.filterMap (·.write? key)).getLast? <;> rfl

theorem write?_of_record? {contents : Object} {call : Call} {key : String}
    (h : call.record? contents = some (.remove key)) : call.write? key = some none := by
  cases call with
  | report => cases h
  | edit e =>
    cases e with
    | erase k =>
      obtain ⟨-, hkey⟩ := Option.ite_none_right_eq_some.1 h
      cases hkey
      simp [Call.write?, Call.edit?]
    | _ => cases h
  | apply op =>
    obtain ⟨kind, key?, index, item, count⟩ := op
    cases key? with
    | none => cases kind <;> cases h
    | some k =>
      cases kind with
      | remove =>
        obtain ⟨-, hkey⟩ := Option.ite_none_right_eq_some.1 h
        cases hkey
        simp [Call.write?, Call.edit?, Operation.edit?]
      | _ => cases h

end Feed

namespace LiveMap

open Feed (lastWrite? lastWrite?_cons write?_of_record?)

theorem get?_edited (m : LiveMap) (e : Edit) (key : String) :
    ((m.edit e).toOption.getD m).contents.get? key =
      ((Call.edit e).write? key).getD (m.contents.get? key) := by
  cases e with
  | set k value =>
    by_cases hk : k = key
    · simp [edit, set, Call.write?, Call.edit?, Except.toOption, hk]
    · simp [edit, set, Call.write?, Call.edit?, Except.toOption, hk, Ne.symm hk]
  | erase k =>
    have herase : ((m.edit (.erase k)).toOption.getD m).contents = m.contents.erase k := by
      cases hget : m.contents.get? k with
      | some value => simp [edit, remove, get?, hget, Except.map, Except.toOption]
      | none =>
        rw [SortedMap.erase_eq_self hget]
        simp [edit, remove, get?, hget, Except.map, Except.toOption]
    rw [herase, SortedMap.get?_erase]
    by_cases hk : k = key <;> simp [Call.write?, Call.edit?, hk]
  | _ => rfl

theorem get?_called (m : LiveMap) (call : Call) (key : String) :
    (m.called call).contents.get? key = (call.write? key).getD (m.contents.get? key) := by
  cases call with
  | report => rfl
  | edit e => exact m.get?_edited e key
  | apply op =>
    rw [called, m.apply_eq op]
    cases he : op.edit? .object with
    | none => simp [Call.write?, Call.edit?, he]
    | some e =>
      have hwrite : (Call.apply op).write? key = (Call.edit e).write? key := by
        simp only [Call.write?, Call.edit?, he]
      rw [hwrite]
      exact m.get?_edited e key

theorem get?_after (m : LiveMap) (calls : List Call) (key : String) :
    (m.after calls).contents.get? key = (lastWrite? calls key).getD (m.contents.get? key) := by
  induction calls generalizing m with
  | nil => rfl
  | cons call rest ih =>
    have hrest : (m.after (call :: rest)).contents.get? key = _ := ih (m.called call)
    rw [hrest, get?_called, lastWrite?_cons, Option.getD_or]

theorem isSome_lastWrite? {m : LiveMap} {calls : List Call} {key : String}
    (h : .remove key ∈ m.recorded calls) : (lastWrite? calls key).isSome := by
  induction calls generalizing m with
  | nil => cases h
  | cons call rest ih =>
    rw [lastWrite?_cons, Option.isSome_or, Bool.or_eq_true]
    rcases List.mem_append.1 h with hone | hrest
    · right
      rw [write?_of_record? (Option.mem_toList.1 hone)]
      rfl
    · exact .inl (ih hrest)

end LiveMap

namespace Feed

def updatesOnly (f : Feed) : Feed := { f with onRemove := .empty }

def removalsOnly (f : Feed) : Feed := { f with onUpdate := .empty }

variable {f : Feed} {m : LiveMap} {contents : Object} {changes : List MapChange}

theorem changeNotices_map (hm : f.replica = .map m) : f.changeNotices =
    f.mapNotices m.contents
      (if f.owesSnapshot then m.contents.keys.map .set else m.changes) := by
  unfold changeNotices snapshotNotices
  rw [hm]
  split <;> rfl

theorem mapTrigger_updatesOnly (f : Feed) (c : MapChange) :
    f.updatesOnly.mapTrigger c = if !c.isRemoval then f.mapTrigger c else .empty := by
  cases c <;> rfl

theorem mapTrigger_removalsOnly (f : Feed) (c : MapChange) :
    f.removalsOnly.mapTrigger c = if c.isRemoval then f.mapTrigger c else .empty := by
  cases c <;> rfl

theorem alone_of_silent {g : Feed} {p : MapChange → Bool}
    (hg : ∀ c, g.mapTrigger c = if p c then f.mapTrigger c else .empty) (contents : Object)
    (changes : List MapChange) :
    (changes.filter g.tellsAlone).map (fun c => noticeOf (g.mapTrigger c) contents [c.key]) =
      ((changes.filter f.tellsAlone).filter p).map
        fun c => noticeOf (f.mapTrigger c) contents [c.key] := by
  have hfilter : changes.filter g.tellsAlone = (changes.filter f.tellsAlone).filter p := by
    rw [List.filter_filter]
    refine List.filter_congr fun c _ => ?_
    cases hc : p c with
    | true => simp [tellsAlone, hg, hc]
    | false => simp [tellsAlone, hg, hc, Trigger.empty, Trigger.handler?]
  rw [hfilter]
  refine List.map_congr_left fun c hc => ?_
  rw [hg, if_pos (List.mem_filter.1 hc).2]

theorem batchOf_empty (contents : Object) (keys : List String) :
    batchOf .empty contents keys = [] := by
  simp [batchOf, collectedKeys, Trigger.collapses?, Trigger.empty]

theorem heard_updatesOnly (f : Feed) (contents : Object) (changes : List MapChange) :
    (f.updatesOnly.mapNotices contents changes).filter (·.handler.isSome) =
      ((changes.filter f.tellsAlone).filter (!·.isRemoval)).map
        (fun c => noticeOf (f.mapTrigger c) contents [c.key]) ++
      (batchOf f.onUpdate contents (setKeys changes)).filter (·.handler.isSome) := by
  have halone := alone_of_silent f.mapTrigger_updatesOnly contents changes
  rw [mapNotices_eq, List.filter_append, List.filter_append, heard_alone, halone]
  simp [updatesOnly, batchOf_empty]

theorem heard_removalsOnly (f : Feed) (contents : Object) (changes : List MapChange) :
    (f.removalsOnly.mapNotices contents changes).filter (·.handler.isSome) =
      ((changes.filter f.tellsAlone).filter (·.isRemoval)).map
        (fun c => noticeOf (f.mapTrigger c) contents [c.key]) ++
      (batchOf f.onRemove contents (removedKeys changes)).filter (·.handler.isSome) := by
  have halone := alone_of_silent f.mapTrigger_removalsOnly contents changes
  rw [mapNotices_eq, List.filter_append, List.filter_append, heard_alone, halone]
  simp [removalsOnly, batchOf_empty]

theorem heard_perm (f : Feed) (contents : Object) (changes : List MapChange) :
    ((f.mapNotices contents changes).filter (·.handler.isSome)).Perm
      ((f.updatesOnly.mapNotices contents changes).filter (·.handler.isSome) ++
        (f.removalsOnly.mapNotices contents changes).filter (·.handler.isSome)) := by
  have halone : (changes.filter f.tellsAlone).Perm
      ((changes.filter f.tellsAlone).filter (!·.isRemoval) ++
        (changes.filter f.tellsAlone).filter (·.isRemoval)) :=
    (List.perm_append_comm.trans (List.filter_append_perm MapChange.isRemoval _)).symm
  have hmapped := halone.map fun c => noticeOf (f.mapTrigger c) contents [c.key]
  rw [List.map_append] at hmapped
  rw [mapNotices_eq, List.filter_append, List.filter_append, heard_alone, heard_updatesOnly,
    heard_removalsOnly, List.append_assoc, List.append_assoc]
  refine (hmapped.append_right _).trans ?_
  rw [List.append_assoc]
  exact (List.perm_append_comm_assoc _ _ _).append_left _

theorem removed_of_mem_removalsOnly {n : Notice}
    (hn : n ∈ (f.removalsOnly.mapNotices contents changes).filter (·.handler.isSome)) :
    n.handler = f.onRemove.handler? ∧ ∀ key v, n.value? key = some v →
      .remove key ∈ changes ∧ v = (contents.get? key).getD .null := by
  have hkeys : ∃ keys, n = noticeOf f.onRemove contents keys ∧
      ∀ key ∈ keys, .remove key ∈ changes := by
    rw [heard_removalsOnly] at hn
    rcases List.mem_append.1 hn with halone | hbatch
    · obtain ⟨c, hc, rfl⟩ := List.mem_map.1 halone
      obtain ⟨hmem, hremoval⟩ := List.mem_filter.1 hc
      cases c with
      | set key => cases hremoval
      | remove key =>
        exact ⟨[key], rfl, by simpa [MapChange.key] using (List.mem_filter.1 hmem).1⟩
    · have hmem := (List.mem_filter.1 hbatch).1
      obtain ⟨-, hmem⟩ := List.mem_ite_nil_left.1 hmem
      refine ⟨_, List.mem_singleton.1 hmem, fun key hkey => ?_⟩
      exact mem_removedKeys.1 (mem_collectedKeys.1 hkey).1
  obtain ⟨keys, rfl, hkeys⟩ := hkeys
  refine ⟨rfl, fun key v hv => ?_⟩
  have hvalue : (valuesOf contents keys).get? key = some v := hv
  rw [get?_valuesOf] at hvalue
  obtain ⟨hkey, hvalue⟩ := Option.ite_none_right_eq_some.1 hvalue
  exact ⟨hkeys key hkey, (Option.some.inj hvalue).symm⟩

/-- Each notice about a map after calls is about updates or about removals. What is shown of a key
that has been removed is what the last call to touch the key has made of it: null if that has been
to remove it, and otherwise the value that it has been set to since. -/
theorem removals_reported (hm : f.replica = .map m) (hclean : m.changes = [])
    {calls : List Call} (hcalls : .report ∉ calls) :
    ((f.after calls).returned .report).Perm
      ((f.after calls).updatesOnly.returned .report ++
        (f.after calls).removalsOnly.returned .report) ∧
    ∀ n ∈ (f.after calls).removalsOnly.returned .report, n.handler = f.onRemove.handler? ∧
      ∀ key v, n.value? key = some v → .remove key ∈ m.recorded calls ∧
        ∃ written, lastWrite? calls key = some written ∧ v = written.getD .null := by
  obtain ⟨hreplica, -, hremove, -⟩ := carried_after hm hcalls
  have hupdates : (f.after calls).updatesOnly.replica = .map (m.after calls) := hreplica
  have hremovals : (f.after calls).removalsOnly.replica = .map (m.after calls) := hreplica
  constructor
  · simp only [returned, changeNotices_map hreplica, changeNotices_map hupdates,
      changeNotices_map hremovals]
    exact heard_perm _ _ _
  · intro n hn
    rw [returned, changeNotices_map hremovals] at hn
    obtain ⟨hhandler, hvalues⟩ := removed_of_mem_removalsOnly hn
    refine ⟨hhandler.trans (by rw [hremove]), fun key v hv => ?_⟩
    obtain ⟨hlogged, hvalue⟩ := hvalues key v hv
    have hrecorded : .remove key ∈ m.recorded calls := by
      have hlog := m.changes_after hcalls
      rw [hclean, List.nil_append] at hlog
      rw [← hlog]
      split at hlogged
      · simp at hlogged
      · exact hlogged
    obtain ⟨written, hwritten⟩ := Option.isSome_iff_exists.1 (LiveMap.isSome_lastWrite? hrecorded)
    refine ⟨hrecorded, written, hwritten, ?_⟩
    rw [hvalue, m.get?_after, hwritten, Option.getD_some]

/-- A volume that is turned up and then removed. -/
def silenced : List Call :=
  [.edit (.set "volume" (.string "high")), .apply ⟨.remove, some "volume", none, none, none⟩]

theorem removals_reported_mixer : .report ∉ silenced ∧
    (mixer.after silenced).removalsOnly.returned .report ≠ [] ∧
    ∀ n ∈ (mixer.after silenced).removalsOnly.returned .report,
      n.handler = some "muted" ∧ ∀ v, n.value? "volume" = some v → v = .null := by
  have hcalls : .report ∉ silenced := by simp [silenced]
  obtain ⟨-, hremovals⟩ := removals_reported (f := mixer) rfl rfl hcalls
  refine ⟨hcalls, by decide +kernel, fun n hn => ?_⟩
  obtain ⟨hhandler, hvalues⟩ := hremovals n hn
  refine ⟨hhandler, fun v hv => ?_⟩
  obtain ⟨-, written, hwritten, rfl⟩ := hvalues "volume" v hv
  have hlast : lastWrite? silenced "volume" = some none := by decide +kernel
  obtain rfl : none = written := Option.some.inj (hlast.symm.trans hwritten)
  rfl

/-- The volume has been removed and set again, and what is said of its removal is its new value. -/
theorem removal_shows_new_value :
    (mixer.after [.edit (.erase "volume"), .edit (.set "volume" (.string "high"))]).returned
        .report =
      [⟨some "tuned", .ofObject (.ofList [("volume", .string "high")]),
          some (.ofList [("volume", .string "high")])⟩,
        ⟨some "muted", .ofObject (.ofList [("volume", .string "high")]),
          some (.ofList [("volume", .string "high")])⟩] := by
  decide +kernel

end Feed

end ExtensionHost
