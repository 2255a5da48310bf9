import Mathlib.Data.List.Induction
import ExtensionHost.Live.Map

namespace ExtensionHost

namespace MapChange

def last? (key : String) (log : List MapChange) : Option MapChange :=
  (log.filter (·.key = key)).getLast?

theorem last?_concat_self (log : List MapChange) (c : MapChange) :
    last? c.key (log ++ [c]) = some c := by
  simp [last?]

theorem last?_concat_of_ne {key : String} {c : MapChange} (hkey : c.key ≠ key)
    (log : List MapChange) : last? key (log ++ [c]) = last? key log := by
  simp [last?, hkey]

end MapChange

namespace LiveMap

/-- A call that asks a map for a change. -/
inductive Write where
  | set (key : String) (value : Json)
  | remove (key : String)

namespace Write

/-- What the call leaves on record if it succeeds. -/
def change : Write → MapChange
  | set key _ => .set key
  | remove key => .remove key

def value? : Write → Option Json
  | set _ value => some value
  | remove _ => none

def sets? (key : String) : Write → Option Json
  | set k value => if k = key then some value else none
  | remove _ => none

/-- The value that the key is set to last. Calls that remove it do not count. -/
def lastSet? (key : String) (calls : List Write) : Option Json :=
  (calls.filterMap (sets? key)).getLast?

theorem lastSet?_concat (key : String) (calls : List Write) (c : Write) :
    lastSet? key (calls ++ [c]) = (sets? key c).or (lastSet? key calls) := by
  unfold lastSet?
  cases hc : sets? key c <;> simp [hc]

end Write

open Write (lastSet? lastSet?_concat)

def write (m : LiveMap) : Write → Except LiveFault LiveMap
  | .set key value => .ok (m.set key value)
  | .remove key => (m.remove key).map (·.2)

def written (m : LiveMap) (calls : List Write) : LiveMap :=
  calls.foldl (fun m c => (m.write c).toOption.getD m) m

def successes (m : LiveMap) : List Write → List Write
  | [] => []
  | c :: rest =>
    match m.write c with
    | .ok m' => c :: m'.successes rest
    | .error _ => m.successes rest

variable {m m' start : LiveMap} {calls : List Write} {c : Write} {key : String}

theorem write_ok (h : m.write c = .ok m') : m'.changes = m.changes ++ [c.change] ∧
    ∀ key, m'.get? key = if c.change.key = key then c.value? else m.get? key := by
  cases c with
  | set k value =>
    cases h
    refine ⟨rfl, fun key => ?_⟩
    by_cases hk : k = key
    · simp [get?, set, Write.change, Write.value?, MapChange.key, hk]
    · simp [get?, set, Write.change, MapChange.key, hk, Ne.symm hk]
  | remove k =>
    cases hget : m.get? k with
    | none => simp [write, remove, hget, Except.map] at h
    | some value =>
      simp only [write, remove, hget, Except.map, Except.ok.injEq] at h
      subst h
      refine ⟨rfl, fun key => ?_⟩
      by_cases hk : k = key <;> simp [get?, Write.change, Write.value?, MapChange.key, hk]

theorem isOk_write_remove (m : LiveMap) (key : String) :
    (m.write (.remove key)).isOk = (m.get? key).isSome := by
  cases hget : m.get? key <;> simp [write, remove, hget, Except.map, Except.isOk, Except.toBool]

theorem write_error {fault : LiveFault} (h : m.write c = .error fault) :
    ∃ key, c = .remove key := by
  cases c with
  | set key value => cases h
  | remove key => exact ⟨key, rfl⟩

theorem written_concat (start : LiveMap) (calls : List Write) (c : Write) :
    start.written (calls ++ [c]) =
      ((start.written calls).write c).toOption.getD (start.written calls) :=
  List.foldl_append

theorem changes_written (m : LiveMap) (calls : List Write) :
    (m.written calls).changes = m.changes ++ (m.successes calls).map (·.change) := by
  induction calls generalizing m with
  | nil => simp [written, successes]
  | cons c rest ih =>
    have hrest := ih ((m.write c).toOption.getD m)
    cases hc : m.write c with
    | error fault =>
      rw [hc] at hrest
      simpa [written, successes, hc, Except.toOption] using hrest
    | ok m' =>
      rw [hc] at hrest
      simpa [written, successes, hc, Except.toOption, (write_ok hc).1] using hrest

theorem changes_removal (start : LiveMap) (calls : List Write) (key : String) :
    (start.written (calls ++ [.remove key])).changes = (start.written calls).changes ++
      if ((start.written calls).get? key).isSome then [.remove key] else [] := by
  rw [written_concat, ← isOk_write_remove]
  cases hc : (start.written calls).write (.remove key) with
  | error fault => exact (List.append_nil _).symm
  | ok m' => exact (write_ok hc).1

/-- Behind each entry there is a call that succeeds when its turn comes, with the entries before
this one on the log. -/
theorem exists_call_of_entry (hclean : start.changes = []) {before after : List MapChange}
    {entry : MapChange} (h : (start.written calls).changes = before ++ entry :: after) :
    ∃ earlier c later, calls = earlier ++ c :: later ∧ c.change = entry ∧
      (start.written earlier).changes = before ∧ ((start.written earlier).write c).isOk := by
  induction calls using List.reverseRecOn generalizing after with
  | nil => simp [written, hclean] at h
  | append_singleton calls c ih =>
    rw [written_concat] at h
    cases hc : (start.written calls).write c with
    | error fault =>
      rw [hc] at h
      obtain ⟨earlier, d, later, rfl, hd⟩ := ih h
      exact ⟨earlier, d, later ++ [c], by simp, hd⟩
    | ok m' =>
      have h : m'.changes = before ++ entry :: after := by rwa [hc] at h
      rw [(write_ok hc).1] at h
      -- The entry in question is the new one, or it has been on record before.
      rcases List.eq_nil_or_concat after with rfl | ⟨init, last, rfl⟩
      · obtain ⟨hbefore, hentry⟩ := List.append_inj' h rfl
        refine ⟨calls, c, [], rfl, by simpa using hentry, hbefore, ?_⟩
        rw [hc]
        rfl
      · rw [List.concat_eq_append, ← List.cons_append, ← List.append_assoc] at h
        obtain ⟨earlier, d, later, rfl, hd⟩ := ih (List.append_inj' h rfl).1
        exact ⟨earlier, d, later ++ [c], by simp, hd⟩

/-- What the log says of a key, calls having been made since the log was empty and the map
`start`. -/
structure Accounted (start : LiveMap) (calls : List Write) (key : String) : Prop where
  untouched : key ∉ (start.written calls).changes.map (·.key) →
    (start.written calls).get? key = start.get? key
  set : MapChange.last? key (start.written calls).changes = some (.set key) →
    ∃ value, lastSet? key calls = some value ∧ (start.written calls).get? key = some value
  removed : MapChange.last? key (start.written calls).changes = some (.remove key) →
    (start.written calls).get? key = none

theorem accounted_of_clean (hclean : start.changes = []) (key : String) :
    Accounted start [] key where
  untouched _ := rfl
  set h := by simp [written, hclean, MapChange.last?] at h
  removed h := by simp [written, hclean, MapChange.last?] at h

theorem accounted_of_error (h : Accounted start calls key) {fault : LiveFault}
    (hc : (start.written calls).write c = .error fault) : Accounted start (calls ++ [c]) key := by
  have hwritten : start.written (calls ++ [c]) = start.written calls := by
    rw [written_concat, hc]
    rfl
  obtain ⟨removed, rfl⟩ := write_error hc
  have hlast : lastSet? key (calls ++ [.remove removed]) = lastSet? key calls :=
    lastSet?_concat ..
  refine ⟨?_, ?_, ?_⟩ <;> rw [hwritten]
  · exact h.untouched
  · rw [hlast]
    exact h.set
  · exact h.removed

theorem accounted_of_ok (h : Accounted start calls key)
    (hc : (start.written calls).write c = .ok m') : Accounted start (calls ++ [c]) key := by
  have hwritten : start.written (calls ++ [c]) = m' := by
    rw [written_concat, hc]
    rfl
  obtain ⟨hchanges, hget⟩ := write_ok hc
  by_cases hkey : c.change.key = key
  · subst hkey
    have hvalue := hget c.change.key
    rw [if_pos rfl] at hvalue
    refine ⟨?_, ?_, ?_⟩ <;> rw [hwritten, hchanges]
    · intro habsent
      simp at habsent
    · rw [MapChange.last?_concat_self, hvalue, lastSet?_concat]
      intro hset
      cases c with
      | set k value => exact ⟨value, by simp [Write.sets?, Write.change, MapChange.key], rfl⟩
      | remove k => cases hset
    · rw [MapChange.last?_concat_self, hvalue]
      intro hremoved
      cases c with
      | set k value => cases hremoved
      | remove k => rfl
  · have hvalue := hget key
    rw [if_neg hkey] at hvalue
    have hlast : lastSet? key (calls ++ [c]) = lastSet? key calls := by
      rw [lastSet?_concat]
      cases c with
      | set k value => simp [Write.sets?, show k ≠ key from hkey]
      | remove k => rfl
    refine ⟨?_, ?_, ?_⟩ <;> rw [hwritten, hchanges, hvalue]
    · intro habsent
      exact h.untouched fun hmem => habsent (by simp [hmem])
    · rw [MapChange.last?_concat_of_ne hkey, hlast]
      exact h.set
    · rw [MapChange.last?_concat_of_ne hkey]
      exact h.removed

theorem accounted (hclean : start.changes = []) (calls : List Write) (key : String) :
    Accounted start calls key := by
  induction calls using List.reverseRecOn with
  | nil => exact accounted_of_clean hclean key
  | append_singleton calls c ih =>
    cases hc : (start.written calls).write c with
    | error fault => exact accounted_of_error ih hc
    | ok m' => exact accounted_of_ok ih hc

/-- The log of a map is sound, whatever calls have been made since it was empty. It has one entry
for each call that has succeeded, in order, and a removal has been recorded exactly if the key was
present. A key that is not on the log has what it had when the log was empty, one whose last entry
is a setting has the value that it has been set to last, and one whose last entry is a removal is
absent. -/
theorem log_sound (hclean : start.changes = []) (calls : List Write) :
    (start.written calls).changes = (start.successes calls).map (·.change) ∧
    (∀ before key after, (start.written calls).changes = before ++ .remove key :: after →
      ∃ earlier later, calls = earlier ++ .remove key :: later ∧
        (start.written earlier).changes = before ∧ ((start.written earlier).get? key).isSome) ∧
    (∀ earlier key later, calls = earlier ++ .remove key :: later →
      (start.written (earlier ++ [.remove key])).changes = (start.written earlier).changes ++
        if ((start.written earlier).get? key).isSome then [.remove key] else []) ∧
    ∀ key,
      (key ∉ (start.written calls).changes.map (·.key) →
        (start.written calls).get? key = start.get? key) ∧
      (MapChange.last? key (start.written calls).changes = some (.set key) →
        ∃ value, lastSet? key calls = some value ∧
          (start.written calls).get? key = some value) ∧
      (MapChange.last? key (start.written calls).changes = some (.remove key) →
        (start.written calls).get? key = none) := by
  refine ⟨?_, ?_, fun earlier key _ _ => start.changes_removal earlier key, fun key => ?_⟩
  · rw [changes_written, hclean, List.nil_append]
  · intro before key after h
    obtain ⟨earlier, c, later, hcalls, hchange, hbefore, hok⟩ := exists_call_of_entry hclean h
    cases c with
    | set k value => cases hchange
    | remove k =>
      obtain rfl : k = key := MapChange.remove.inj hchange
      exact ⟨earlier, later, hcalls, hbefore, by rwa [← isOk_write_remove]⟩
  · have h := accounted hclean calls key
    exact ⟨h.untouched, h.set, h.removed⟩

/-- The volume is removed while it is there, and again in vain. -/
theorem log_sound_volume :
    let start := LiveMap.ofObject (.ofList [("volume", .string "low")])
    let calls : List Write := [.set "muted" (.bool true), .remove "volume", .remove "volume",
      .set "muted" (.bool false)]
    start.changes = [] ∧
      (start.written calls).changes = [.set "muted", .remove "volume", .set "muted"] ∧
      (start.written calls).get? "volume" = none ∧
      (start.written calls).get? "muted" = some (.bool false) := by
  intro start calls
  have hclean : start.changes = [] := rfl
  obtain ⟨hlog, -, -, hkeys⟩ := log_sound hclean calls
  have hlog : (start.written calls).changes = [.set "muted", .remove "volume", .set "muted"] :=
    hlog.trans (by decide +kernel)
  obtain ⟨-, -, hvolume⟩ := hkeys "volume"
  obtain ⟨-, hmuted, -⟩ := hkeys "muted"
  rw [hlog] at hvolume hmuted
  obtain ⟨value, hvalue, hget⟩ := hmuted (by decide)
  refine ⟨hclean, hlog, hvolume (by decide), ?_⟩
  rw [hget, ← hvalue]
  rfl

end LiveMap

end ExtensionHost
