import Mathlib.Data.List.Basic
import ExtensionHost.Proofs.Schema.Reading

namespace ExtensionHost

namespace PropertyKeys

variable {t : PropertyKeys} {name a b : String} {key : PropertyKey}

theorem key?_eq_some_iff :
    t.key? name = some key ↔ name ∈ t.names ∧ t.base + t.names.idxOf name = key := by
  have hidx : name ∈ t.names → t.names.idxOf? name = some (t.names.idxOf name) := by
    intro hmem
    have hlt := List.idxOf_lt_length_of_mem hmem
    refine List.idxOf?_eq_some_iff.2 ⟨hlt, List.getElem_idxOf hlt, fun j hj he => ?_⟩
    -- An earlier place of the name would be its first one.
    have hfirst := t.nodup.idxOf_getElem j (Nat.lt_trans hj hlt)
    rw [he] at hfirst
    omega
  unfold key?
  by_cases hmem : name ∈ t.names
  · simp [hidx hmem, hmem]
  · simp [List.idxOf?_eq_none_iff.2 hmem, hmem]

theorem key?_add_of_some (h : t.key? a = some key) (name : String) :
    (t.add name).key? a = some key := by
  obtain ⟨hmem, hkey⟩ := key?_eq_some_iff.1 h
  unfold add
  split
  · exact h
  · refine key?_eq_some_iff.2 ⟨List.mem_append_left _ hmem, ?_⟩
    rw [List.idxOf_append, if_pos hmem, hkey]

theorem key?_append (t : PropertyKeys) (name : String) :
    (t.append name).1.key? name = some (t.append name).2 := by
  refine key?_eq_some_iff.2 ?_
  unfold append add
  by_cases hmem : name ∈ t.names
  · simp [hmem]
  · simp [hmem, List.idxOf_append]

theorem key?_inj (ha : t.key? a = some key) (hb : t.key? b = some key) : a = b := by
  obtain ⟨hmem, hkey⟩ := key?_eq_some_iff.1 ha
  obtain ⟨-, hkey'⟩ := key?_eq_some_iff.1 hb
  exact (List.idxOf_inj hmem).1 (Nat.add_left_cancel (hkey.trans hkey'.symm))

end PropertyKeys

namespace ComponentTable

variable {ν : Type}

/-- What is on file under the keys of names, of values that have come with the names. -/
structure Filed (keys : PropertyKeys) (filed : SortedMap PropertyKey ν)
    (named : List (String × ν)) : Prop where
  sound : ∀ key v, filed.get? key = some v →
    ∃ name, (name, v) ∈ named ∧ keys.key? name = some key
  complete : ∀ e ∈ named, ∃ key v, keys.key? e.1 = some key ∧ filed.get? key = some v

theorem filed_empty (keys : PropertyKeys) : Filed keys (.empty : SortedMap PropertyKey ν) [] where
  sound := by simp
  complete := by simp

variable {keys : PropertyKeys} {filed : SortedMap PropertyKey ν} {named : List (String × ν)}

theorem filed_append (h : Filed keys filed named) (name : String) (v : ν) :
    Filed (keys.append name).1 (filed.insert (keys.append name).2 v) (named ++ [(name, v)]) where
  sound := by
    intro key w hw
    simp only [SortedMap.get?_insert, Std.compare_eq_iff_eq] at hw
    split at hw
    · rename_i hkey
      cases hw
      exact ⟨name, by simp, hkey ▸ keys.key?_append name⟩
    · obtain ⟨a, ha, hkey⟩ := h.sound key w hw
      exact ⟨a, List.mem_append_left _ ha, PropertyKeys.key?_add_of_some hkey name⟩
  complete := by
    intro e he
    rcases List.mem_append.1 he with hold | hnew
    · -- The new value may replace this one; something stays on file all the same.
      obtain ⟨key, w, hkey, hw⟩ := h.complete e hold
      refine ⟨key, if key = (keys.append name).2 then v else w,
        PropertyKeys.key?_add_of_some hkey name, ?_⟩
      simp only [SortedMap.get?_insert, Std.compare_eq_iff_eq]
      split
      · rfl
      · exact hw
    · obtain rfl := List.mem_singleton.1 hnew
      exact ⟨_, v, keys.key?_append name, by simp⟩

theorem filed_foldl (h : Filed keys filed named) (more : List (String × ν)) :
    let r := more.foldl (fun (r : PropertyKeys × SortedMap PropertyKey ν) (e : String × ν) =>
      ((r.1.append e.1).1, r.2.insert (r.1.append e.1).2 e.2)) (keys, filed)
    Filed r.1 r.2 (named ++ more) := by
  induction more generalizing keys filed named with
  | nil => simpa using h
  | cons e rest ih => simpa using ih (filed_append h e.1 e.2)

theorem filed_fileByKey (keys : PropertyKeys) (named : List (String × ν)) :
    Filed (fileByKey keys named).1 (fileByKey keys named).2 named := by
  exact filed_foldl (filed_empty keys) named

theorem mem_of_mem_fileByKey {v : ν} (h : v ∈ (fileByKey keys named).2.values) :
    ∃ name, (name, v) ∈ named := by
  obtain ⟨key, hkey⟩ := SortedMap.mem_values_iff.1 h
  obtain ⟨name, hname, -⟩ := (filed_fileByKey keys named).sound key v hkey
  exact ⟨name, hname⟩

theorem exists_mem_fileByKey {name : String} {v : ν} (h : (name, v) ∈ named) :
    ∃ w ∈ (fileByKey keys named).2.values, (name, w) ∈ named := by
  have hfiled := filed_fileByKey keys named
  obtain ⟨key, w, hkey, hw⟩ := hfiled.complete (name, v) h
  obtain ⟨a, ha, hkey'⟩ := hfiled.sound key w hw
  obtain rfl : name = a := PropertyKeys.key?_inj hkey hkey'
  exact ⟨w, SortedMap.mem_values_iff.2 ⟨key, hw⟩, ha⟩

end ComponentTable

end ExtensionHost
