namespace ExtensionHost

/-- A finite map kept as its entries in ascending key order. Equal contents have one
representation, so equality of maps is equality of entries. -/
structure SortedMap (κ : Type) [Ord κ] (ν : Type) where
  entries : List (κ × ν)
  sorted : entries.Pairwise fun a b => compare a.1 b.1 = .lt

namespace SortedMap

variable {κ ν μ : Type} [Ord κ]

def lookup (key : κ) : List (κ × ν) → Option ν
  | [] => none
  | (k, v) :: rest => if compare key k = .eq then some v else lookup key rest

def insertEntry (key : κ) (value : ν) : List (κ × ν) → List (κ × ν)
  | [] => [(key, value)]
  | (k, v) :: rest =>
    match compare key k with
    | .lt => (key, value) :: (k, v) :: rest
    | .eq => (key, value) :: rest
    | .gt => (k, v) :: insertEntry key value rest

theorem mem_insertEntry {key : κ} {value : ν} {a : κ × ν} {l : List (κ × ν)}
    (h : a ∈ insertEntry key value l) : a = (key, value) ∨ a ∈ l := by
  induction l with
  | nil => simpa [insertEntry] using h
  | cons e rest ih =>
    obtain ⟨k, v⟩ := e
    unfold insertEntry at h
    split at h <;> simp only [List.mem_cons] at h ⊢ <;> grind

theorem sorted_insertEntry [Std.TransOrd κ] [Std.LawfulEqOrd κ] (key : κ) (value : ν)
    {l : List (κ × ν)} (h : l.Pairwise fun a b => compare a.1 b.1 = .lt) :
    (insertEntry key value l).Pairwise fun a b => compare a.1 b.1 = .lt := by
  induction l with
  | nil => simp [insertEntry]
  | cons e rest ih =>
    obtain ⟨k, v⟩ := e
    have hk := (List.pairwise_cons.1 h).1
    have hrest := (List.pairwise_cons.1 h).2
    unfold insertEntry
    split
    · rename_i hlt
      refine List.pairwise_cons.2 ⟨fun a ha => ?_, h⟩
      rcases List.mem_cons.1 ha with rfl | ha
      · exact hlt
      · exact Std.TransCmp.lt_trans hlt (hk a ha)
    · rename_i heq
      obtain rfl := Std.LawfulEqOrd.eq_of_compare heq
      exact List.pairwise_cons.2 ⟨hk, hrest⟩
    · rename_i hgt
      refine List.pairwise_cons.2 ⟨fun a ha => ?_, ih hrest⟩
      rcases mem_insertEntry ha with rfl | ha
      · exact Std.OrientedCmp.lt_of_gt hgt
      · exact hk a ha

def empty : SortedMap κ ν := ⟨[], .nil⟩

instance : EmptyCollection (SortedMap κ ν) := ⟨empty⟩

instance : Inhabited (SortedMap κ ν) := ⟨empty⟩

instance [DecidableEq κ] [DecidableEq ν] : DecidableEq (SortedMap κ ν) := fun a b =>
  if h : a.entries = b.entries then
    isTrue (by cases a; cases b; cases h; rfl)
  else
    isFalse (fun e => h (e ▸ rfl))

@[ext] theorem ext_entries {m n : SortedMap κ ν} (h : m.entries = n.entries) : m = n := by
  cases m; cases n; cases h; rfl

def get? (m : SortedMap κ ν) (key : κ) : Option ν := lookup key m.entries

def contains (m : SortedMap κ ν) (key : κ) : Bool := (m.get? key).isSome

def keys (m : SortedMap κ ν) : List κ := m.entries.map (·.1)

def values (m : SortedMap κ ν) : List ν := m.entries.map (·.2)

def size (m : SortedMap κ ν) : Nat := m.entries.length

def isEmpty (m : SortedMap κ ν) : Bool := m.entries.isEmpty

def insert [Std.TransOrd κ] [Std.LawfulEqOrd κ] (m : SortedMap κ ν) (key : κ) (value : ν) :
    SortedMap κ ν :=
  ⟨insertEntry key value m.entries, sorted_insertEntry key value m.sorted⟩

def erase (m : SortedMap κ ν) (key : κ) : SortedMap κ ν :=
  ⟨m.entries.filter fun e => compare key e.1 ≠ .eq, m.sorted.filter _⟩

def filter (m : SortedMap κ ν) (keep : κ → ν → Bool) : SortedMap κ ν :=
  ⟨m.entries.filter fun e => keep e.1 e.2, m.sorted.filter _⟩

def map (m : SortedMap κ ν) (f : κ → ν → μ) : SortedMap κ μ :=
  ⟨m.entries.map fun e => (e.1, f e.1 e.2), List.pairwise_map.2 m.sorted⟩

def filterMap (m : SortedMap κ ν) (f : ν → Option μ) : SortedMap κ μ where
  entries := m.entries.filterMap fun e => (f e.2).map (e.1, ·)
  sorted := by
    refine List.Pairwise.filterMap _ (fun e e' hlt p hp p' hp' => ?_) m.sorted
    obtain ⟨_, -, rfl⟩ := Option.map_eq_some_iff.1 hp
    obtain ⟨_, -, rfl⟩ := Option.map_eq_some_iff.1 hp'
    exact hlt

def insertIfNew [Std.TransOrd κ] [Std.LawfulEqOrd κ] (m : SortedMap κ ν) (key : κ) (value : ν) :
    SortedMap κ ν :=
  if m.contains key then m else m.insert key value

def modify (m : SortedMap κ ν) (key : κ) (f : ν → ν) : SortedMap κ ν :=
  m.map fun k v => if compare key k = .eq then f v else v

/-- Of several entries with one key the last counts. -/
def ofList [Std.TransOrd κ] [Std.LawfulEqOrd κ] (entries : List (κ × ν)) : SortedMap κ ν :=
  entries.foldr (fun e m => m.insertIfNew e.1 e.2) empty

@[simp] theorem get?_empty (key : κ) : (empty : SortedMap κ ν).get? key = none := rfl

theorem lookup_insertEntry [Std.TransOrd κ] [Std.LawfulEqOrd κ] (key a : κ) (value : ν)
    (l : List (κ × ν)) :
    lookup a (insertEntry key value l) =
      if compare a key = .eq then some value else lookup a l := by
  induction l with
  | nil => rfl
  | cons e rest ih =>
    obtain ⟨k, v⟩ := e
    unfold insertEntry
    split
    · rfl
    · rename_i heq
      obtain rfl := Std.LawfulEqOrd.eq_of_compare heq
      by_cases h : compare a key = .eq <;> simp [lookup, h]
    · rename_i hgt
      by_cases h : compare a k = .eq
      · obtain rfl := Std.LawfulEqOrd.eq_of_compare h
        have hne : ¬ compare a key = .eq := by
          intro he
          obtain rfl := Std.LawfulEqOrd.eq_of_compare he
          simp at hgt
        simp [lookup, hne]
      · simp [lookup, h, ih]

@[simp] theorem get?_insert [Std.TransOrd κ] [Std.LawfulEqOrd κ] (m : SortedMap κ ν) (key a : κ)
    (value : ν) :
    (m.insert key value).get? a = if compare a key = .eq then some value else m.get? a :=
  lookup_insertEntry key a value m.entries

theorem lookup_filter (a : κ) (keep : κ → Bool) (l : List (κ × ν)) [Std.LawfulEqOrd κ] :
    lookup a (l.filter fun e => keep e.1) = if keep a then lookup a l else none := by
  induction l with
  | nil => simp [lookup]
  | cons e rest ih =>
    obtain ⟨k, v⟩ := e
    by_cases h : compare a k = .eq
    · obtain rfl := Std.LawfulEqOrd.eq_of_compare h
      by_cases hk : keep a <;> simp [lookup, hk, ih]
    · by_cases hk : keep k <;> simp [lookup, h, hk, ih]

@[simp] theorem get?_erase [Std.TransOrd κ] [Std.LawfulEqOrd κ] (m : SortedMap κ ν) (key a : κ) :
    (m.erase key).get? a = if compare key a = .eq then none else m.get? a := by
  have h := lookup_filter a (fun k => decide (compare key k ≠ .eq)) m.entries
  by_cases hk : compare key a = .eq <;> simpa [erase, get?, hk] using h

theorem insertEntry_of_lt {key : κ} {value : ν} {l : List (κ × ν)}
    (h : ∀ a ∈ l, compare key a.1 = .lt) : insertEntry key value l = (key, value) :: l := by
  cases l with
  | nil => rfl
  | cons e rest => simp [insertEntry, h e (List.mem_cons_self ..)]

theorem lookup_of_lt {key : κ} {l : List (κ × ν)} (h : ∀ a ∈ l, compare key a.1 = .lt) :
    lookup key l = none := by
  induction l with
  | nil => rfl
  | cons e rest ih =>
    simp [lookup, h e (List.mem_cons_self ..), ih fun a ha => h a (List.mem_cons_of_mem _ ha)]

theorem ofList_entries [Std.TransOrd κ] [Std.LawfulEqOrd κ] (m : SortedMap κ ν) :
    ofList m.entries = m := by
  obtain ⟨l, h⟩ := m
  apply ext_entries
  induction l with
  | nil => rfl
  | cons e rest ih =>
    have hlt := (List.pairwise_cons.1 h).1
    have hrest := ih (List.pairwise_cons.1 h).2
    have : ofList (e :: rest) = (ofList rest).insertIfNew e.1 e.2 := rfl
    rw [this, insertIfNew, contains, get?, hrest, lookup_of_lt hlt]
    simp [insert, hrest, insertEntry_of_lt hlt]

theorem lookup_map (a : κ) (f : κ → ν → μ) (l : List (κ × ν)) [Std.LawfulEqOrd κ] :
    lookup a (l.map fun e => (e.1, f e.1 e.2)) = (lookup a l).map (f a) := by
  induction l with
  | nil => rfl
  | cons e rest ih =>
    obtain ⟨k, v⟩ := e
    by_cases h : compare a k = .eq
    · obtain rfl := Std.LawfulEqOrd.eq_of_compare h
      simp [lookup]
    · simp [lookup, h, ih]

@[simp] theorem get?_map [Std.LawfulEqOrd κ] (m : SortedMap κ ν) (f : κ → ν → μ) (a : κ) :
    (m.map f).get? a = (m.get? a).map (f a) :=
  lookup_map a f m.entries

@[simp] theorem get?_modify [Std.LawfulEqOrd κ] (m : SortedMap κ ν) (key a : κ) (f : ν → ν) :
    (m.modify key f).get? a = (m.get? a).map fun v => if compare key a = .eq then f v else v :=
  get?_map m _ a

@[simp] theorem get?_insertIfNew [Std.TransOrd κ] [Std.LawfulEqOrd κ] (m : SortedMap κ ν)
    (key a : κ) (value : ν) :
    (m.insertIfNew key value).get? a =
      (m.get? a).or (if compare a key = .eq then some value else none) := by
  unfold insertIfNew contains
  by_cases ha : compare a key = .eq
  · obtain rfl := Std.LawfulEqOrd.eq_of_compare ha
    cases h : m.get? a <;> simp [h]
  · split <;> simp [ha]

@[simp] theorem get?_ofList_nil [Std.TransOrd κ] [Std.LawfulEqOrd κ] (a : κ) :
    (ofList ([] : List (κ × ν))).get? a = none := rfl

@[simp] theorem get?_ofList_cons [Std.TransOrd κ] [Std.LawfulEqOrd κ] (e : κ × ν)
    (l : List (κ × ν)) (a : κ) :
    (ofList (e :: l)).get? a =
      ((ofList l).get? a).or (if compare a e.1 = .eq then some e.2 else none) :=
  get?_insertIfNew _ _ _ _

theorem lookup_eq_some_of_mem [Std.LawfulEqOrd κ] {a : κ} {v : ν} {l : List (κ × ν)}
    (hs : l.Pairwise fun a b => compare a.1 b.1 = .lt) (h : (a, v) ∈ l) :
    lookup a l = some v := by
  induction l with
  | nil => simp at h
  | cons e rest ih =>
    have hp := List.pairwise_cons.1 hs
    rcases List.mem_cons.1 h with rfl | h
    · simp [lookup]
    · have hlt : ¬ compare a e.1 = .eq := by
        intro he
        obtain rfl := Std.LawfulEqOrd.eq_of_compare he
        simpa using hp.1 (e.1, v) h
      simp [lookup, hlt, ih hp.2 h]

theorem mem_of_lookup_eq_some [Std.LawfulEqOrd κ] {a : κ} {v : ν} {l : List (κ × ν)}
    (h : lookup a l = some v) : (a, v) ∈ l := by
  induction l with
  | nil => simp [lookup] at h
  | cons e rest ih =>
    by_cases he : compare a e.1 = .eq
    · obtain rfl := Std.LawfulEqOrd.eq_of_compare he
      have hv : e.2 = v := by simpa [lookup] using h
      exact hv ▸ List.mem_cons_self ..
    · exact List.mem_cons_of_mem _ (ih (by simpa [lookup, he] using h))

theorem get?_eq_some_iff_mem [Std.LawfulEqOrd κ] {m : SortedMap κ ν} {a : κ} {v : ν} :
    m.get? a = some v ↔ (a, v) ∈ m.entries :=
  ⟨mem_of_lookup_eq_some, lookup_eq_some_of_mem m.sorted⟩

theorem get?_filterMap [Std.LawfulEqOrd κ] (m : SortedMap κ ν) (f : ν → Option μ) (key : κ) :
    (m.filterMap f).get? key = (m.get? key).bind f := by
  ext v
  rw [get?_eq_some_iff_mem, Option.bind_eq_some_iff]
  simp only [filterMap, List.mem_filterMap, get?_eq_some_iff_mem, Option.map_eq_some_iff,
    Prod.mk.injEq]
  constructor
  · rintro ⟨⟨a, w⟩, hmem, u, hu, rfl, rfl⟩
    exact ⟨w, hmem, hu⟩
  · rintro ⟨w, hmem, hw⟩
    exact ⟨(key, w), hmem, v, hw, rfl, rfl⟩

theorem nodup_keys [Std.ReflOrd κ] (m : SortedMap κ ν) : m.keys.Nodup := by
  rw [keys, List.nodup_iff_pairwise_ne, List.pairwise_map]
  refine m.sorted.imp fun hlt heq => ?_
  rw [heq, Std.compare_self] at hlt
  cases hlt

theorem mem_values_iff [Std.LawfulEqOrd κ] {m : SortedMap κ ν} {v : ν} :
    v ∈ m.values ↔ ∃ a, m.get? a = some v := by
  constructor
  · intro h
    obtain ⟨e, he, rfl⟩ := List.mem_map.1 h
    exact ⟨e.1, get?_eq_some_iff_mem.2 he⟩
  · rintro ⟨a, h⟩
    exact List.mem_map.2 ⟨(a, v), get?_eq_some_iff_mem.1 h, rfl⟩

/-- Walking the entries for what only one key can have is looking it up. -/
theorem filterMap_entries_of_key [Std.LawfulEqOrd κ] (m : SortedMap κ ν) (key : κ)
    (f : κ × ν → Option μ) (hf : ∀ e, e.1 ≠ key → f e = none) :
    m.entries.filterMap f = ((m.get? key).bind fun v => f (key, v)).toList := by
  obtain ⟨l, hl⟩ := m
  simp only [get?]
  induction l with
  | nil => rfl
  | cons e rest ih =>
    have hp := List.pairwise_cons.1 hl
    by_cases he : e.1 = key
    · have hrest : rest.filterMap f = [] := by
        refine List.filterMap_eq_nil_iff.2 fun a ha => hf a ?_
        rintro rfl
        simpa [he] using hp.1 a ha
      obtain ⟨k, v⟩ := e
      obtain rfl : k = key := he
      cases hv : f (k, v) <;> simp [lookup, hrest, hv]
    · simp [lookup, Ne.symm he, hf e he, ih hp.2]

theorem map_filter_values (m : SortedMap κ ν) (p : ν → Bool) (f : ν → μ) :
    (m.values.filter p).map f =
      m.entries.filterMap fun e => if p e.2 then some (f e.2) else none := by
  simp only [values]
  induction m.entries with
  | nil => rfl
  | cons e rest ih => by_cases he : p e.2 <;> simp [he, ih]

theorem erase_eq_self [Std.LawfulEqOrd κ] {m : SortedMap κ ν} {key : κ} (h : m.get? key = none) :
    m.erase key = m := by
  apply ext_entries
  refine List.filter_eq_self.2 fun e he => ?_
  have hmem : m.get? e.1 = some e.2 := get?_eq_some_iff_mem.2 he
  have hne : key ≠ e.1 := by
    rintro rfl
    rw [h] at hmem
    cases hmem
  simp [hne]

theorem eq_of_get? [Std.TransOrd κ] [Std.LawfulEqOrd κ] {m n : SortedMap κ ν}
    (h : ∀ a, m.get? a = n.get? a) : m = n := by
  have hnodup : ∀ m : SortedMap κ ν, m.entries.Nodup := fun m =>
    m.sorted.imp fun hlt he => by simp [he] at hlt
  have hmem : ∀ e, e ∈ m.entries ↔ e ∈ n.entries := fun e => by
    rw [← get?_eq_some_iff_mem, h, get?_eq_some_iff_mem]
  have hperm := (List.perm_ext_iff_of_nodup (hnodup m) (hnodup n)).2 hmem
  refine ext_entries (hperm.eq_of_pairwise (fun a b _ _ hab hba => ?_) m.sorted n.sorted)
  have hback := Std.TransCmp.lt_trans hab hba
  simp at hback

theorem insert_insert [Std.TransOrd κ] [Std.LawfulEqOrd κ] (m : SortedMap κ ν) (key : κ)
    (v w : ν) : (m.insert key v).insert key w = m.insert key w := by
  refine eq_of_get? fun a => ?_
  simp only [get?_insert]
  split <;> rfl

end SortedMap

end ExtensionHost
