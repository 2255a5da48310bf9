namespace ExtensionHost

/-- A finite map that remembers the order in which its keys first came. -/
structure InsertionMap (κ : Type) (ν : Type) where
  entries : List (κ × ν)
  nodup : (entries.map (·.1)).Nodup

namespace InsertionMap

variable {κ ν : Type}

def empty : InsertionMap κ ν := ⟨[], .nil⟩

instance : EmptyCollection (InsertionMap κ ν) := ⟨empty⟩

instance : Inhabited (InsertionMap κ ν) := ⟨empty⟩

instance [DecidableEq κ] [DecidableEq ν] : DecidableEq (InsertionMap κ ν) := fun a b =>
  if h : a.entries = b.entries then
    isTrue (by cases a; cases b; cases h; rfl)
  else
    isFalse (fun e => h (e ▸ rfl))

def keys (m : InsertionMap κ ν) : List κ := m.entries.map (·.1)

def values (m : InsertionMap κ ν) : List ν := m.entries.map (·.2)

variable [DecidableEq κ]

def lookup (key : κ) : List (κ × ν) → Option ν
  | [] => none
  | (k, v) :: rest => if key = k then some v else lookup key rest

def insertEntry (key : κ) (value : ν) : List (κ × ν) → List (κ × ν)
  | [] => [(key, value)]
  | (k, v) :: rest => if key = k then (key, value) :: rest else (k, v) :: insertEntry key value rest

theorem map_fst_insertEntry (key : κ) (value : ν) (l : List (κ × ν)) :
    (insertEntry key value l).map (·.1) =
      if key ∈ l.map (·.1) then l.map (·.1) else l.map (·.1) ++ [key] := by
  induction l with
  | nil => simp [insertEntry]
  | cons e rest ih =>
    obtain ⟨k, v⟩ := e
    by_cases h : key = k
    · simp [insertEntry, h]
    · by_cases hr : key ∈ rest.map (·.1) <;> simp [insertEntry, h, ih, hr]

theorem nodup_insertEntry (key : κ) (value : ν) {l : List (κ × ν)} (h : (l.map (·.1)).Nodup) :
    ((insertEntry key value l).map (·.1)).Nodup := by
  rw [map_fst_insertEntry]
  split
  · exact h
  · rename_i hk
    exact List.nodup_append.2 ⟨h, by simp, by grind⟩

def get? (m : InsertionMap κ ν) (key : κ) : Option ν := lookup key m.entries

def contains (m : InsertionMap κ ν) (key : κ) : Bool := (m.get? key).isSome

/-- A key that is already present keeps its place and takes the new value. -/
def insert (m : InsertionMap κ ν) (key : κ) (value : ν) : InsertionMap κ ν :=
  ⟨insertEntry key value m.entries, nodup_insertEntry key value m.nodup⟩

def insertIfNew (m : InsertionMap κ ν) (key : κ) (value : ν) : InsertionMap κ ν :=
  if m.contains key then m else m.insert key value

@[simp] theorem get?_empty (key : κ) : (empty : InsertionMap κ ν).get? key = none := rfl

@[simp] theorem get?_insert (m : InsertionMap κ ν) (key a : κ) (value : ν) :
    (m.insert key value).get? a = if a = key then some value else m.get? a := by
  simp only [get?, insert]
  induction m.entries with
  | nil => rfl
  | cons e rest ih =>
    obtain ⟨k, v⟩ := e
    by_cases h : key = k
    · subst h
      by_cases ha : a = key <;> simp [insertEntry, lookup, ha]
    · by_cases ha : a = k
      · have : ¬ a = key := fun e => h (e ▸ ha)
        simp [insertEntry, lookup, h, ha, Ne.symm h]
      · simp [insertEntry, lookup, h, ha, ih]

theorem keys_insert (m : InsertionMap κ ν) (key : κ) (value : ν) :
    (m.insert key value).keys = if key ∈ m.keys then m.keys else m.keys ++ [key] :=
  map_fst_insertEntry key value m.entries

theorem lookup_eq_none_iff {key : κ} {l : List (κ × ν)} :
    lookup key l = none ↔ key ∉ l.map (·.1) := by
  induction l with
  | nil => simp [lookup]
  | cons e rest ih =>
    by_cases h : key = e.1
    · simp [lookup, h]
    · simp [lookup, h, ih]

theorem lookup_eq_some_of_mem {key : κ} {value : ν} {l : List (κ × ν)}
    (hl : (l.map (·.1)).Nodup) (h : (key, value) ∈ l) : lookup key l = some value := by
  induction l with
  | nil => simp at h
  | cons e rest ih =>
    have hp := List.nodup_cons.1 hl
    rcases List.mem_cons.1 h with rfl | h
    · simp [lookup]
    · have hne : key ≠ e.1 := by
        intro he
        exact hp.1 (List.mem_map.2 ⟨(key, value), h, he⟩)
      simp [lookup, hne, ih hp.2 h]

theorem mem_of_lookup_eq_some {key : κ} {value : ν} {l : List (κ × ν)}
    (h : lookup key l = some value) : (key, value) ∈ l := by
  induction l with
  | nil => simp [lookup] at h
  | cons e rest ih =>
    by_cases he : key = e.1
    · have hv : e.2 = value := by simpa [lookup, he] using h
      rw [he, ← hv]
      exact List.mem_cons_self ..
    · exact List.mem_cons_of_mem _ (ih (by simpa [lookup, he] using h))

theorem mem_values_iff {m : InsertionMap κ ν} {value : ν} :
    value ∈ m.values ↔ ∃ key, m.get? key = some value := by
  constructor
  · intro h
    obtain ⟨e, he, rfl⟩ := List.mem_map.1 h
    exact ⟨e.1, lookup_eq_some_of_mem m.nodup he⟩
  · rintro ⟨key, h⟩
    exact List.mem_map.2 ⟨(key, value), mem_of_lookup_eq_some h, rfl⟩

theorem forall_mem_values_insert {P : ν → Prop} {m : InsertionMap κ ν} {value : ν}
    (h : ∀ x ∈ m.values, P x) (hvalue : P value) (key : κ) :
    ∀ x ∈ (m.insert key value).values, P x := by
  intro x hx
  obtain ⟨a, ha⟩ := mem_values_iff.1 hx
  rw [get?_insert] at ha
  split at ha
  · exact Option.some.inj ha ▸ hvalue
  · exact h x (mem_values_iff.2 ⟨a, ha⟩)

end InsertionMap

end ExtensionHost
