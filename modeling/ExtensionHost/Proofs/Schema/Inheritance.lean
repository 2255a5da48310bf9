import Mathlib.Data.List.Induction
import ExtensionHost.Proofs.Schema.SharedKeys

namespace ExtensionHost

namespace SortedMap

variable {κ ν : Type} [Ord κ]

theorem lookup_entries [DecidableEq κ] [Std.LawfulEqOrd κ] (m : SortedMap κ ν)
    (key : κ) : InsertionMap.lookup key m.entries = m.get? key := by
  simp only [get?]
  induction m.entries with
  | nil => rfl
  | cons e rest ih => simp only [InsertionMap.lookup, lookup, Std.compare_eq_iff_eq, ih]

end SortedMap

namespace InsertionMap

variable {κ ν : Type} [DecidableEq κ]

theorem get?_foldl_insert {l : List (κ × ν)} (hl : (l.map (·.1)).Nodup) (m : InsertionMap κ ν)
    (key : κ) : (l.foldl (fun m e => m.insert e.1 e.2) m).get? key =
      (lookup key l).or (m.get? key) := by
  induction l generalizing m with
  | nil => rfl
  | cons e rest ih =>
    obtain ⟨hfirst, hrest⟩ := List.nodup_cons.1 hl
    rw [List.foldl_cons, ih hrest, get?_insert]
    by_cases hkey : key = e.1
    · have hnone : lookup e.1 rest = none := lookup_eq_none_iff.2 hfirst
      simp [lookup, hkey, hnone]
    · simp [lookup, hkey]

theorem keys_foldl_insert {l : List (κ × ν)} (hl : (l.map (·.1)).Nodup) (m : InsertionMap κ ν) :
    (l.foldl (fun m e => m.insert e.1 e.2) m).keys =
      m.keys ++ (l.map (·.1)).filter (· ∉ m.keys) := by
  induction l generalizing m with
  | nil => simp
  | cons e rest ih =>
    obtain ⟨hfirst, hrest⟩ := List.nodup_cons.1 hl
    rw [List.foldl_cons, ih hrest, keys_insert]
    by_cases hkey : e.1 ∈ m.keys
    · simp [hkey]
    · have hsame : (rest.map (·.1)).filter (· ∉ m.keys ++ [e.1]) =
          (rest.map (·.1)).filter (· ∉ m.keys) := by
        refine List.filter_congr fun key hmem => ?_
        have hne : key ≠ e.1 := by
          rintro rfl
          exact hfirst hmem
        simp [hne]
      rw [if_neg hkey, hsame, List.append_assoc]
      simp [hkey]

end InsertionMap

theorem Property.isSome_read? (v : Json) :
    (Property.read? v).isSome ↔ (∃ s, v = .string s) ∨ v.fields.contains "type" := by
  unfold read?
  split
  · simp
  · rename_i hstring
    have hno : ¬ ∃ s, v = .string s := fun ⟨s, hs⟩ => hstring s hs
    by_cases htype : v.fields.contains "type" <;> simp [hno, htype]

/-- What an entry of the list of types says: a name, the type that it extends, if any, and the
definitions of its properties. -/
structure TypeDeclaration where
  name : String
  parent : Option String
  definitions : Object

namespace TypeDeclaration

/-- The declaration that an entry makes if it has a name and an object of properties. -/
def ofEntry? (entry : Json) : Option TypeDeclaration :=
  match entry.fields.nonemptyString? "name",
      (entry.fields.get? "properties").bind Json.asObject? with
  | some name, some definitions => some ⟨name, entry.fields.string? "extends", definitions⟩
  | _, _ => none

def own (d : TypeDeclaration) : SortedMap String Property := d.definitions.filterMap Property.read?

/-- Of several declarations with one name only the first counts. -/
def firsts : List TypeDeclaration → List TypeDeclaration
  | [] => []
  | d :: rest => d :: (firsts rest).filter (·.name ≠ d.name)

theorem firsts_concat (ds : List TypeDeclaration) (d : TypeDeclaration) :
    firsts (ds ++ [d]) = if d.name ∈ ds.map (·.name) then firsts ds else firsts ds ++ [d] := by
  induction ds with
  | nil => rfl
  | cons e rest ih =>
    rw [List.cons_append, firsts, ih, firsts, List.map_cons]
    by_cases hrest : d.name ∈ rest.map (·.name)
    · rw [if_pos hrest, if_pos (List.mem_cons_of_mem _ hrest)]
    · rw [if_neg hrest, List.filter_append]
      by_cases he : d.name = e.name <;> simp [hrest, he]

theorem mem_names_firsts (ds : List TypeDeclaration) (name : String) :
    name ∈ (firsts ds).map (·.name) ↔ name ∈ ds.map (·.name) := by
  induction ds using List.reverseRecOn with
  | nil => rfl
  | append_singleton ds d ih =>
    rw [firsts_concat]
    split
    · rename_i hd
      rw [ih]
      simp only [List.map_append, List.mem_append, List.map_singleton, List.mem_singleton]
      exact ⟨.inl, fun h => h.elim id fun h => h ▸ hd⟩
    · simp only [List.map_append, List.mem_append, ih]

/-- A type and those that it extends, one after the other, nearest first. The declarations are
given latest first, and a type extends one that has been declared before it. -/
def lineage : List TypeDeclaration → String → List TypeDeclaration
  | [], _ => []
  | d :: earlier, name =>
    if d.name = name then d :: (d.parent.map (lineage earlier)).getD []
    else lineage earlier name

end TypeDeclaration

open TypeDeclaration (firsts lineage)

namespace TypeTable

/-- What a type takes over from the one that it extends, if that has been declared before. -/
def inheritedBy (types : TypeTable) (before : List TypeDeclaration) (d : TypeDeclaration) :
    Properties :=
  match d.parent with
  | none => .empty
  | some parent =>
    if parent ∈ before.map (·.name) then (types.get? parent).getD .empty else .empty

/-- The properties of a type: those that it inherits in their order and then its own ones in the
order of names. What it defines itself takes the place of what it inherits. -/
structure Composed (inherited : Properties) (own : SortedMap String Property)
    (properties : Properties) : Prop where
  names : properties.keys = inherited.keys ++ own.keys.filter (· ∉ inherited.keys)
  values : ∀ property, properties.get? property =
    (own.get? property).or (inherited.get? property)

theorem composed_override (inherited : Properties) (own : SortedMap String Property) :
    Composed inherited own (override inherited own.entries) where
  names := InsertionMap.keys_foldl_insert own.nodup_keys inherited
  values property := by
    rw [override, InsertionMap.get?_foldl_insert own.nodup_keys, own.lookup_entries]

/-- The types that come of declarations with different names. -/
structure Inherits (ds : List TypeDeclaration) (types : TypeTable) : Prop where
  names : types.keys = ds.map (·.name)
  composed : ∀ before d after, ds = before ++ d :: after →
    ∃ properties, types.get? d.name = some properties ∧
      Composed (types.inheritedBy before d) d.own properties
  nearest : ∀ name property, (types.get? name).bind (·.get? property) =
    (lineage ds.reverse name).findSome? (·.own.get? property)

theorem inherits_empty : Inherits [] .empty where
  names := rfl
  composed before d after h := by simp at h
  nearest name property := rfl

variable {ds : List TypeDeclaration} {types : TypeTable} {d : TypeDeclaration}

theorem readEntry_of_undeclared {entry : Json} (h : TypeDeclaration.ofEntry? entry = none) :
    readEntry types entry = (types, [.invalidEntry .types .incompleteType]) := by
  unfold TypeDeclaration.ofEntry? at h
  unfold readEntry
  split at h
  · cases h
  · rename_i hincomplete
    dsimp only
    split
    · rename_i hname hdefinitions
      exact (hincomplete _ _ hname hdefinitions).elim
    · rfl

theorem readEntry_of_declared {entry : Json} (h : TypeDeclaration.ofEntry? entry = some d) :
    readEntry types entry =
      if types.contains d.name then (types, [.duplicate .types d.name])
      else (types.insert d.name (override (types.inherited d.name d.parent).1 d.own.entries),
        (types.inherited d.name d.parent).2 ++
          (Property.readAll d.name d.definitions.entries).2) := by
  unfold TypeDeclaration.ofEntry? at h
  split at h
  · rename_i hname hdefinitions
    cases h
    simp only [readEntry, hname, hdefinitions, TypeDeclaration.own, SortedMap.filterMap,
      Property.readAll_eq]
  · cases h

theorem inherited_eq (h : types.keys = ds.map (·.name)) (d : TypeDeclaration) :
    (types.inherited d.name d.parent).1 = types.inheritedBy ds d := by
  unfold inherited inheritedBy
  cases d.parent with
  | none => rfl
  | some parent =>
    rw [← h]
    dsimp only
    split
    · rename_i properties hparent
      have hmem : parent ∈ types.keys :=
        InsertionMap.contains_iff_mem_keys.1 (by simp [InsertionMap.contains, hparent])
      simp [hmem, hparent]
    · rename_i hparent
      simp [hparent]

/-- Types that come later have nothing to give to a type. -/
theorem inheritedBy_insert {before : List TypeDeclaration} {name : String}
    (hname : name ∉ before.map (·.name)) (properties : Properties) (d : TypeDeclaration) :
    inheritedBy (types.insert name properties) before d = types.inheritedBy before d := by
  unfold inheritedBy
  cases d.parent with
  | none => rfl
  | some parent =>
    by_cases hparent : parent ∈ before.map (·.name)
    · have hne : parent ≠ name := by
        rintro rfl
        exact hname hparent
      simp only [InsertionMap.get?_insert, hne, if_false]
    · simp only [hparent, if_false]

theorem get?_inheritedBy (h : types.keys = ds.map (·.name)) (d : TypeDeclaration)
    (property : String) : (types.inheritedBy ds d).get? property =
      d.parent.bind fun parent => (types.get? parent).bind (·.get? property) := by
  unfold inheritedBy
  cases d.parent with
  | none => rfl
  | some parent =>
    rw [← h, Option.bind_some]
    dsimp only
    split
    · cases types.get? parent <;> simp
    · rename_i hparent
      have hnone : types.get? parent = none := InsertionMap.lookup_eq_none_iff.2 hparent
      simp [hnone]

theorem composed_insert (h : Inherits ds types) (hnew : d.name ∉ ds.map (·.name))
    {next : TypeTable}
    (hnext : next = types.insert d.name (override (types.inheritedBy ds d) d.own.entries))
    {before after : List TypeDeclaration} {e : TypeDeclaration}
    (hds : ds ++ [d] = before ++ e :: after) :
    ∃ properties, next.get? e.name = some properties ∧
      Composed (next.inheritedBy before e) e.own properties := by
  subst hnext
  rcases List.eq_nil_or_concat after with rfl | ⟨init, last, rfl⟩
  · -- The type is the one that has been added.
    obtain ⟨rfl, hlast⟩ := List.append_inj' hds rfl
    obtain rfl : d = e := by simpa using hlast
    rw [InsertionMap.get?_insert, if_pos rfl, inheritedBy_insert hnew]
    exact ⟨_, rfl, composed_override _ _⟩
  · rw [List.concat_eq_append, ← List.cons_append, ← List.append_assoc] at hds
    obtain rfl : ds = before ++ e :: init := List.append_inj_left' hds rfl
    simp only [List.map_append, List.map_cons, List.mem_append, List.mem_cons, not_or] at hnew
    obtain ⟨properties, hget, hcomposed⟩ := h.composed before e init rfl
    rw [InsertionMap.get?_insert, if_neg (Ne.symm hnew.2.1), inheritedBy_insert hnew.1]
    exact ⟨properties, hget, hcomposed⟩

theorem inherits_insert (h : Inherits ds types) (hnew : d.name ∉ ds.map (·.name)) :
    Inherits (ds ++ [d]) (types.insert d.name
      (override (types.inheritedBy ds d) d.own.entries)) where
  names := by
    rw [InsertionMap.keys_insert, if_neg (h.names ▸ hnew), h.names, List.map_append]
    rfl
  composed before e after hds := composed_insert h hnew rfl hds
  nearest name property := by
    rw [InsertionMap.get?_insert, List.reverse_append, List.reverse_singleton,
      List.singleton_append, lineage]
    by_cases hname : name = d.name
    · subst hname
      have hcomposed := composed_override (types.inheritedBy ds d) d.own
      rw [if_pos rfl, if_pos rfl, Option.bind_some, hcomposed.values, get?_inheritedBy h.names,
        List.findSome?_cons]
      -- What it does not define itself is looked for in the parent's lineage.
      cases d.own.get? property with
      | some p => rfl
      | none =>
        cases d.parent with
        | none => rfl
        | some parent => exact h.nearest parent property
    · rw [if_neg hname, if_neg (Ne.symm hname)]
      exact h.nearest name property

theorem inherits_readEntries (entries : List Json) :
    Inherits (firsts (entries.filterMap TypeDeclaration.ofEntry?))
      (readEntries readEntry .empty entries).1 := by
  induction entries using List.reverseRecOn with
  | nil => exact inherits_empty
  | append_singleton entries entry ih =>
    rw [readEntries_append, List.filterMap_append]
    cases hd : TypeDeclaration.ofEntry? entry with
    | none => simpa [readEntries, readEntry_of_undeclared hd, hd] using ih
    | some d =>
      simp only [List.filterMap_cons, hd, List.filterMap_nil, TypeDeclaration.firsts_concat,
        readEntries, readEntry_of_declared hd, InsertionMap.contains_iff_mem_keys, ih.names,
        TypeDeclaration.mem_names_firsts]
      split
      · exact ih
      · rename_i hnew
        rw [inherited_eq ih.names]
        exact inherits_insert ih (mt (TypeDeclaration.mem_names_firsts _ _).1 hnew)

theorem entries_prefix_readEntries (types : TypeTable) (more : List Json) :
    types.entries <+: (readEntries readEntry types more).1.entries := by
  refine readEntries_induction (P := fun next : TypeTable => types.entries <+: next.entries)
    (fun next entry h => ?_) more (List.prefix_refl _)
  rcases readEntry_cases next entry with ⟨_, hr⟩ | ⟨name, type, _, -, hnew, -, hr⟩ <;> rw [hr]
  · exact h
  · rw [InsertionMap.entries_insert_of_new hnew]
    exact h.trans (List.prefix_append _ _)

/-- The types of a list of entries, whatever the entries are. There is one for each entry that has a
name and an object of properties, unless an earlier one has the name, in the order of the list. A
type has the properties of its parent as they are, if the parent has been declared before it, with
its own valid ones in their places or behind them. So a property is found in the nearest one of a
type and its ancestors that defines it. Further entries do not change any of this. -/
theorem types_inherit (entries : List Json) :
    Inherits (firsts (entries.filterMap TypeDeclaration.ofEntry?))
      (readEntries readEntry .empty entries).1 ∧
    (∀ (d : TypeDeclaration) property, (d.own.get? property).isSome ↔
      ∃ v, d.definitions.get? property = some v ∧
        ((∃ s, v = .string s) ∨ v.fields.contains "type")) ∧
    ∀ more, (readEntries readEntry .empty entries).1.entries <+:
      (readEntries readEntry .empty (entries ++ more)).1.entries := by
  refine ⟨inherits_readEntries entries, fun d property => ?_, fun more => ?_⟩
  · rw [TypeDeclaration.own, SortedMap.get?_filterMap]
    cases d.definitions.get? property with
    | none => simp
    | some v => simp [Property.isSome_read?]
  · rw [readEntries_append]
    exact entries_prefix_readEntries _ more

end TypeTable

end ExtensionHost
