import Mathlib.Algebra.Group.Nat.Defs
import Mathlib.Data.List.Induction
import ExtensionHost.Proofs.Schema.SharedKeys
import ExtensionHost.Schema.KeyRegistry

namespace ExtensionHost

theorem SortedMap.entries_insert_of_gt {κ ν : Type} [Ord κ] [Std.TransOrd κ] [Std.LawfulEqOrd κ]
    {m : SortedMap κ ν} {key : κ} (h : ∀ e ∈ m.entries, compare e.1 key = .lt) (value : ν) :
    (m.insert key value).entries = m.entries ++ [(key, value)] := by
  obtain ⟨l, hl⟩ := m
  simp only [insert]
  induction l with
  | nil => rfl
  | cons e rest ih =>
    have hgt : compare key e.1 = .gt := Std.OrientedCmp.gt_of_lt (h e (by simp))
    have hrest := ih (List.pairwise_cons.1 hl).2 fun a ha => h a (List.mem_cons_of_mem _ ha)
    simp only [insertEntry, hgt, hrest, List.cons_append]

namespace PropertyKeys

variable {t : PropertyKeys} {name a : String} {key : PropertyKey}

def addAll (t : PropertyKeys) (names : List String) : PropertyKeys := names.foldl add t

theorem base_add (t : PropertyKeys) (name : String) : (t.add name).base = t.base := by
  unfold add
  split <;> rfl

theorem base_addAll (t : PropertyKeys) (names : List String) : (t.addAll names).base = t.base := by
  induction names generalizing t with
  | nil => rfl
  | cons name rest ih => exact (ih (t.add name)).trans (t.base_add name)

theorem names_addAll (base : PropertyKey) (names : List String) :
    ((startingAt base).addAll names).names = names.eraseDups := by
  induction names using List.reverseRecOn with
  | nil => rfl
  | append_singleton names name ih =>
    have hadd : (startingAt base).addAll (names ++ [name]) =
        ((startingAt base).addAll names).add name := List.foldl_append
    rw [hadd, add, List.eraseDups_append, ← ih]
    split <;> rename_i hmem <;> rw [ih, List.mem_eraseDups] at hmem <;>
      simp [List.removeAll, hmem, List.eraseDups_cons]

theorem key?_eq_none_iff : t.key? name = none ↔ name ∉ t.names := by
  simp [key?]

theorem mem_entries_iff : (key, name) ∈ t.entries ↔ t.key? name = some key := by
  rw [← name?_eq_some_iff]
  simp only [entries, name?, List.mem_map, List.mem_zipIdx_iff_getElem?, Prod.exists, Prod.mk.injEq]
  constructor
  · rintro ⟨a, i, hget, rfl, rfl⟩
    simp [hget]
  · intro h
    split at h
    · cases h
    · rename_i hbase
      exact ⟨name, key - t.base, h, Nat.add_sub_cancel' (Nat.le_of_not_lt hbase), rfl⟩

theorem entries_add (h : name ∉ t.names) :
    (t.add name).entries = t.entries ++ [(t.base + t.size, name)] := by
  simp [entries, add, h, List.zipIdx_append, size]

theorem key?_add_of_ne (h : a ≠ name) : (t.add name).key? a = t.key? a := by
  ext key
  unfold add
  split
  · rfl
  · simp only [key?_eq_some_iff, List.mem_append, List.mem_singleton, h, or_false]
    refine and_congr_right fun hmem => ?_
    rw [List.idxOf_append, if_pos hmem]

end PropertyKeys

namespace KeyRegistry

open PropertyKeys (addAll names_addAll base_addAll)

variable {r : KeyRegistry} {t : PropertyKeys} {base : UInt32} {name a : String} {key : UInt32}
  {names : List String}

theorem append_eq_allot (r : KeyRegistry) (name : String) : r.append name = r.allot name := by
  unfold append allot
  cases r.key? name <;> rfl

theorem append_of_some (h : r.key? name = some key) : r.append name = (r, key) := by
  simp only [append, h]

theorem append_of_none (h : r.key? name = none) : r.append name =
    (⟨r.byName.insert name r.next, r.byKey.insert r.next name, r.next + 1⟩, r.next) := by
  simp only [append, allot, h]

theorem key?_append (r : KeyRegistry) (name : String) :
    (r.append name).1.key? name = some (r.append name).2 := by
  cases h : r.key? name with
  | some key => rw [append_of_some h, h]
  | none =>
    rw [append_of_none h]
    simp [key?]

theorem key?_append_of_ne (h : a ≠ name) : (r.append name).1.key? a = r.key? a := by
  cases hname : r.key? name with
  | some key => rw [append_of_some hname]
  | none =>
    rw [append_of_none hname]
    simp [key?, h]

theorem key?_append_of_some (h : r.key? a = some key) (name : String) :
    (r.append name).1.key? a = some key := by
  by_cases hname : a = name
  · obtain rfl := hname
    rw [append_of_some h, h]
  · rw [key?_append_of_ne hname, h]

def appendAll (r : KeyRegistry) (names : List String) : KeyRegistry :=
  names.foldl (fun r name => (r.append name).1) r

theorem appendAll_append (r : KeyRegistry) (names more : List String) :
    r.appendAll (names ++ more) = (r.appendAll names).appendAll more :=
  List.foldl_append

theorem key?_appendAll_of_some (h : r.key? a = some key) (names : List String) :
    (r.appendAll names).key? a = some key := by
  induction names generalizing r with
  | nil => exact h
  | cons name rest ih => exact ih (key?_append_of_some h name)

/-- Two tables and a counter that stand for a list of names. -/
structure Agrees (r : KeyRegistry) (t : PropertyKeys) : Prop where
  byName : ∀ name, (r.key? name).map UInt32.toNat = t.key? name
  byKey : r.byKey.entries.map (fun e => (e.1.toNat, e.2)) = t.entries
  next : r.next.toNat = t.base + t.size

theorem agrees_startingAt (base : UInt32) :
    (startingAt base).Agrees (.startingAt base.toNat) :=
  ⟨fun _ => rfl, rfl, rfl⟩

theorem Agrees.mem_byKey_iff (h : r.Agrees t) :
    (key, name) ∈ r.byKey.entries ↔ t.key? name = some key.toNat := by
  rw [← PropertyKeys.mem_entries_iff, ← h.byKey, List.mem_map]
  constructor
  · exact fun hmem => ⟨_, hmem, rfl⟩
  · rintro ⟨⟨key', name'⟩, hmem, heq⟩
    obtain ⟨hkey, rfl⟩ := Prod.mk.inj heq
    rwa [← UInt32.toNat_inj.1 hkey]

theorem Agrees.key?_iff_name? (h : r.Agrees t) :
    r.key? name = some key ↔ r.name? key = some name := by
  rw [name?, SortedMap.get?_eq_some_iff_mem, h.mem_byKey_iff, ← h.byName, Option.map_eq_some_iff]
  constructor
  · exact fun hkey => ⟨key, hkey, rfl⟩
  · rintro ⟨key', hkey', heq⟩
    rwa [← UInt32.toNat_inj.1 heq]

theorem agrees_append (h : r.Agrees t) (hroom : t.base + (t.add name).size ≤ 2 ^ 32 - 1) :
    (r.append name).1.Agrees (t.add name) := by
  have hname := h.byName name
  cases hkey : r.key? name with
  | some key =>
    rw [hkey] at hname
    have hmem := (PropertyKeys.key?_eq_some_iff.1 hname.symm).1
    have hadd : t.add name = t := dif_pos hmem
    rw [append_of_some hkey, hadd]
    exact h
  | none =>
    rw [hkey] at hname
    have hnew := PropertyKeys.key?_eq_none_iff.1 hname.symm
    have hsize : (t.add name).size = t.size + 1 := by
      simp [PropertyKeys.size, PropertyKeys.add, hnew]
    have hnext := h.next
    -- All keys so far come before the next one, so the new entry is the last.
    have hlast : ∀ e ∈ r.byKey.entries, compare e.1 r.next = .lt := by
      intro e he
      obtain ⟨hmem, hold⟩ := PropertyKeys.key?_eq_some_iff.1 (h.mem_byKey_iff.1 he)
      have hidx : t.names.idxOf e.2 < t.size := List.idxOf_lt_length_of_mem hmem
      refine Std.compare_eq_lt.2 (UInt32.lt_iff_toNat_lt.2 ?_)
      rw [← hold, hnext]
      exact Nat.add_lt_add_left hidx t.base
    constructor
    · intro a
      by_cases ha : a = name
      · obtain rfl := ha
        have hadded : (t.add a).key? a = some (t.base + t.size) :=
          PropertyKeys.mem_entries_iff.1 (by simp [PropertyKeys.entries_add hnew])
        rw [key?_append, append_of_none hkey, hadded, Option.map_some, hnext]
      · rw [key?_append_of_ne ha, PropertyKeys.key?_add_of_ne ha, h.byName]
    · rw [append_of_none hkey, SortedMap.entries_insert_of_gt hlast, List.map_append, h.byKey,
        PropertyKeys.entries_add hnew, List.map_singleton, hnext]
    · rw [hsize] at hroom
      rw [append_of_none hkey, UInt32.toNat_add, PropertyKeys.base_add, hsize, hnext]
      exact Nat.mod_eq_of_lt (Nat.lt_of_le_of_lt hroom (by decide))

theorem agrees_appendAll (hroom : base.toNat + names.eraseDups.length ≤ 2 ^ 32 - 1) :
    ((startingAt base).appendAll names).Agrees
      ((PropertyKeys.startingAt base.toNat).addAll names) := by
  induction names using List.reverseRecOn with
  | nil => exact agrees_startingAt base
  | append_singleton names name ih =>
    have hadd : (PropertyKeys.startingAt base.toNat).addAll (names ++ [name]) =
        ((PropertyKeys.startingAt base.toNat).addAll names).add name := List.foldl_append
    have hlength : names.eraseDups.length ≤ (names ++ [name]).eraseDups.length := by
      rw [List.eraseDups_append, List.length_append]
      exact Nat.le_add_right ..
    rw [appendAll_append, hadd]
    refine agrees_append (ih (by omega)) ?_
    rw [← hadd, base_addAll, PropertyKeys.size, names_addAll]
    exact hroom

/-- A registry with the callers that have looked for a name in vain, each by a handle of its own,
and that wait for the write lock. -/
structure Shared where
  registry : KeyRegistry
  waiting : SortedMap Nat String

/-- What callers do under the lock: a call of `append` looks for the name first, and if it is not
there, it writes. -/
inductive Access where
  | look (caller : Nat) (name : String)
  | write (caller : Nat)

namespace Shared

def startingAt (base : UInt32) : Shared := ⟨.startingAt base, .empty⟩

/-- An access, and the name with its key if it is the end of a call. A caller that waits makes no
other calls. -/
def access (s : Shared) : Access → Shared × Option (String × UInt32)
  | .look caller name =>
    if s.waiting.contains caller then (s, none)
    else
      match s.registry.key? name with
      | some key => (s, some (name, key))
      | none => ({ s with waiting := s.waiting.insert caller name }, none)
  | .write caller =>
    match s.waiting.get? caller with
    | some name =>
      let (registry, key) := s.registry.allot name
      (⟨registry, s.waiting.erase caller⟩, some (name, key))
    | none => (s, none)

def after (s : Shared) (accesses : List Access) : Shared :=
  accesses.foldl (fun s a => (s.access a).1) s

/-- The names that calls have been made for and the keys that they return, in the order in which the
calls end. -/
def answers (s : Shared) : List Access → List (String × UInt32)
  | [] => []
  | a :: rest => (s.access a).2.toList ++ (s.access a).1.answers rest

/-- An access ends a call and does all that the call does, or it does nothing to the registry. -/
theorem access_cases (s : Shared) (a : Access) :
    (s.access a).2 = none ∧ (s.access a).1.registry = s.registry ∨
    ∃ name key, (s.access a).2 = some (name, key) ∧
      s.registry.append name = ((s.access a).1.registry, key) := by
  cases a with
  | look caller name =>
    simp only [access]
    split
    · exact .inl ⟨rfl, rfl⟩
    · cases hkey : s.registry.key? name with
      | some key => exact .inr ⟨name, key, rfl, append_of_some hkey⟩
      | none => exact .inl ⟨rfl, rfl⟩
  | write caller =>
    simp only [access]
    cases s.waiting.get? caller with
    | some name => exact .inr ⟨name, _, rfl, append_eq_allot ..⟩
    | none => exact .inl ⟨rfl, rfl⟩

/-- However calls interleave, they come to what they do one after another, in the order in which
they end, and each returns the key that its name has ever after. -/
theorem after_eq (s : Shared) (accesses : List Access) :
    (s.after accesses).registry = s.registry.appendAll ((s.answers accesses).map (·.1)) ∧
    ∀ e ∈ s.answers accesses, (s.after accesses).registry.key? e.1 = some e.2 := by
  induction accesses generalizing s with
  | nil => exact ⟨rfl, fun e he => nomatch he⟩
  | cons a rest ih =>
    obtain ⟨hregistry, hkeys⟩ := ih (s.access a).1
    have hafter : s.after (a :: rest) = (s.access a).1.after rest := rfl
    rcases s.access_cases a with ⟨hnone, hsame⟩ | ⟨name, key, hsome, happend⟩
    · simp only [answers, hnone, Option.toList_none, List.nil_append, hafter]
      rw [hsame] at hregistry
      exact ⟨hregistry, hkeys⟩
    · simp only [answers, hsome, Option.toList_some, List.singleton_append, hafter]
      have hfirst : s.registry.appendAll (name :: ((s.access a).1.answers rest).map (·.1)) =
          (s.access a).1.registry.appendAll (((s.access a).1.answers rest).map (·.1)) := by
        simp only [appendAll, List.foldl_cons, happend]
      refine ⟨by rw [List.map_cons, hfirst, hregistry], fun e he => ?_⟩
      rcases List.mem_cons.1 he with rfl | hrest
      · rw [hregistry]
        apply key?_appendAll_of_some
        have hkey := s.registry.key?_append name
        rwa [happend] at hkey
      · exact hkeys e hrest

theorem answers_append (s : Shared) (accesses more : List Access) :
    s.answers (accesses ++ more) = s.answers accesses ++ (s.after accesses).answers more := by
  induction accesses generalizing s with
  | nil => rfl
  | cons a rest ih =>
    have hrest := ih (s.access a).1
    simp only [List.cons_append, answers, hrest, List.append_assoc]
    rfl

def call (caller : Nat) (name : String) : List Access := [.look caller name, .write caller]

theorem answers_call {s : Shared} (hidle : ∀ c, s.waiting.get? c = none) (caller : Nat)
    (name : String) : (s.answers (call caller name)).map (·.1) = [name] ∧
      ∀ c, (s.after (call caller name)).waiting.get? c = none := by
  have hfree : s.waiting.contains caller = false := by simp [SortedMap.contains, hidle]
  cases hkey : s.registry.key? name with
  | some key => simp [call, answers, after, access, hfree, hkey, hidle]
  | none =>
    simp only [call, answers, after, access, hfree, hkey, List.foldl_cons, List.foldl_nil,
      Bool.false_eq_true, if_false, SortedMap.get?_insert, Std.compare_self, if_true]
    refine ⟨rfl, fun c => ?_⟩
    by_cases hc : caller = c
    · simp [hc]
    · simp [hc, Ne.symm hc, hidle]

theorem answers_in_turn {s : Shared} (hidle : ∀ c, s.waiting.get? c = none)
    (calls : List (Nat × String)) :
    (s.answers (calls.flatMap fun c => call c.1 c.2)).map (·.1) = calls.map (·.2) := by
  induction calls generalizing s with
  | nil => rfl
  | cons c rest ih =>
    obtain ⟨hanswer, hidle'⟩ := answers_call hidle c.1 c.2
    rw [List.flatMap_cons, answers_append, List.map_append, hanswer, ih hidle']
    rfl

end Shared

/-- As long as the keys do not run out, the tables and the counter of a registry stay in step. The
tables are inverse to each other, and the keys are the base and those that follow it, one for each
name, in the order in which the names have come first. A name that is there is given its key and
nothing changes, and no call takes back what an earlier one has assigned. It makes no difference
which callers the calls are made by, one after another, nor how the calls interleave. -/
theorem registry_in_step {base : UInt32} {names : List String}
    (hroom : base.toNat + names.eraseDups.length ≤ 2 ^ 32 - 1) :
    let r := (startingAt base).appendAll names
    (∀ name key, r.key? name = some key ↔ r.name? key = some name) ∧
    r.byKey.entries.map (fun e => (e.1.toNat, e.2)) =
      names.eraseDups.zipIdx.map (fun (name, i) => (base.toNat + i, name)) ∧
    (∀ name ∈ names, ∃ key, r.key? name = some key ∧ r.append name = (r, key)) ∧
    (∀ earlier later, names = earlier ++ later →
      ∀ name key, ((startingAt base).appendAll earlier).key? name = some key →
        r.key? name = some key ∧ r.name? key = some name) ∧
    (∀ calls : List (Nat × String), calls.map (·.2) = names →
      ((Shared.startingAt base).answers (calls.flatMap fun c => Shared.call c.1 c.2)).map (·.1) =
        names) ∧
    ∀ accesses, ((Shared.startingAt base).answers accesses).map (·.1) = names →
      ((Shared.startingAt base).after accesses).registry = r ∧
      ∀ e ∈ (Shared.startingAt base).answers accesses, r.key? e.1 = some e.2 := by
  intro r
  have hagrees := agrees_appendAll hroom
  have hinverse : ∀ name key, r.key? name = some key ↔ r.name? key = some name :=
    fun _ _ => hagrees.key?_iff_name?
  refine ⟨hinverse, ?_, ?_, ?_, ?_, ?_⟩
  · rw [hagrees.byKey, PropertyKeys.entries, names_addAll, base_addAll]
    rfl
  · intro name hname
    have hsome : ((PropertyKeys.startingAt base.toNat).addAll names).key? name ≠ none := by
      rw [Ne, PropertyKeys.key?_eq_none_iff, names_addAll, List.mem_eraseDups, not_not]
      exact hname
    rw [← hagrees.byName, Ne, Option.map_eq_none_iff] at hsome
    obtain ⟨key, hkey⟩ := Option.ne_none_iff_exists'.1 hsome
    exact ⟨key, hkey, append_of_some hkey⟩
  · intro earlier later hnames name key hkey
    have hkept := key?_appendAll_of_some hkey later
    rw [← appendAll_append, ← hnames] at hkept
    exact ⟨hkept, (hinverse name key).1 hkept⟩
  · rintro calls rfl
    exact Shared.answers_in_turn (fun _ => rfl) calls
  · intro accesses hnames
    obtain ⟨hregistry, hkeys⟩ := (Shared.startingAt base).after_eq accesses
    rw [hnames] at hregistry
    rw [hregistry] at hkeys
    exact ⟨hregistry, hkeys⟩

/-- Two callers want a key for the volume at once, and only one of them is the first to write. -/
theorem registry_in_step_mixer :
    let r := (startingAt 500).appendAll ["volume", "volume", "muted"]
    let accesses : List Access := [.look 0 "volume", .look 1 "volume", .write 1, .write 0,
      .look 0 "muted", .write 0]
    (500 : UInt32).toNat + ["volume", "volume", "muted"].eraseDups.length ≤ 2 ^ 32 - 1 ∧
      r.byKey.entries.map (fun e => (e.1.toNat, e.2)) = [(500, "volume"), (501, "muted")] ∧
      ((Shared.startingAt 500).after accesses).registry = r ∧
      r.append "volume" = (r, 500) := by
  intro r accesses
  have hroom : (500 : UInt32).toNat + ["volume", "volume", "muted"].eraseDups.length ≤
      2 ^ 32 - 1 := by
    decide
  obtain ⟨-, hentries, hknown, -, -, hshared⟩ := registry_in_step hroom
  obtain ⟨key, hkey, happend⟩ := hknown "volume" (by simp)
  have hvolume : r.key? "volume" = some 500 := by decide +kernel
  obtain rfl : 500 = key := Option.some.inj (hvolume.symm.trans hkey)
  exact ⟨hroom, hentries, (hshared accesses (by decide +kernel)).1, happend⟩

end KeyRegistry

end ExtensionHost
