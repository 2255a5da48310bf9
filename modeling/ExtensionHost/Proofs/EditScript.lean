import Mathlib.Data.List.Forall2
import ExtensionHost.Live.Edit

namespace ExtensionHost

namespace ArrayChange

/-- A change of at least one item, within the bounds of a list of the length. -/
def Fits (length : Nat) : ArrayChange → Prop
  | insert position count => 1 ≤ count ∧ position ≤ length
  | update position count | remove position count => 1 ≤ count ∧ position + count ≤ length

/-- Makes a change again to what is known of a list. It does not say which items it brings in, so
these are unknown. -/
def redo (known : List (Option Json)) : ArrayChange → List (Option Json)
  | insert position count =>
    known.take position ++ List.replicate count none ++ known.drop position
  | update position count =>
    known.take position ++ List.replicate count none ++ known.drop (position + count)
  | remove position count => known.take position ++ known.drop (position + count)

def redoAll (known : List (Option Json)) (changes : List ArrayChange) : List (Option Json) :=
  changes.foldl redo known

end ArrayChange

/-- What is known of items is true of them. -/
def Known (known : List (Option Json)) (items : List Json) : Prop :=
  List.Forall₂ (fun k item => ∀ v, k = some v → item = v) known items

namespace Known

variable {known known' : List (Option Json)} {items items' : List Json}

theorem all (items : List Json) : Known (items.map some) items := by
  refine List.forall₂_map_left_iff.2 (List.forall₂_same.2 fun item _ v hv => ?_)
  exact Option.some.inj hv

theorem nothing (items : List Json) : Known (List.replicate items.length none) items := by
  induction items with
  | nil => exact .nil
  | cons item rest ih => exact .cons (fun _ hv => nomatch hv) ih

theorem append (h : Known known items) (h' : Known known' items') :
    Known (known ++ known') (items ++ items') :=
  List.rel_append h h'

theorem take (h : Known known items) (n : Nat) : Known (known.take n) (items.take n) :=
  List.forall₂_take n h

theorem drop (h : Known known items) (n : Nat) : Known (known.drop n) (items.drop n) :=
  List.forall₂_drop n h

theorem splice (h : Known known items) (i j : Nat) (new : List Json) :
    Known (known.take i ++ List.replicate new.length none ++ known.drop j)
      (items.take i ++ new ++ items.drop j) :=
  ((h.take i).append (.nothing new)).append (h.drop j)

theorem getElem? (h : Known known items) {i : Nat} {v : Json} (hv : known[i]? = some (some v)) :
    items[i]? = some v := by
  obtain ⟨hlength, hall⟩ := List.forall₂_iff_get.1 h
  obtain ⟨hi, hget⟩ := List.getElem?_eq_some_iff.1 hv
  refine List.getElem?_eq_some_iff.2 ⟨hlength ▸ hi, ?_⟩
  exact hall i hi (hlength ▸ hi) v hget

end Known

namespace LiveArray

open ArrayChange (redoAll)

variable {start : List Json} {a a' : LiveArray}

/-- The log of an array says how to get from the items that it had at the start to those that it
has now: each change fits where its turn comes, and what is still known at the end is true. -/
structure Scripted (start : List Json) (a : LiveArray) : Prop where
  fits : ∀ pre change post, a.changes = pre ++ change :: post →
    change.Fits (redoAll (start.map some) pre).length
  known : Known (redoAll (start.map some) a.changes) a.items

theorem scripted_of_clean (hclean : a.changes = []) : Scripted a.items a where
  fits pre change post h := by simp [hclean] at h
  known := by
    rw [hclean]
    exact .all a.items

theorem scripted_record (hi : Scripted start a) {items : List Json} {change : ArrayChange}
    (hfits : change.Fits a.items.length)
    (hknown : ∀ known, Known known a.items → Known (change.redo known) items) :
    Scripted start (a.record items change) where
  fits := by
    intro pre c post h
    -- The change in question is the new one, or it has been on record before.
    rcases List.eq_nil_or_concat post with rfl | ⟨init, last, rfl⟩
    · obtain ⟨hpre, hlast⟩ := List.append_inj' h rfl
      obtain rfl : change = c := by simpa using hlast
      rw [← hpre, List.Forall₂.length_eq hi.known]
      exact hfits
    · rw [List.concat_eq_append, ← List.cons_append, ← List.append_assoc] at h
      exact hi.fits pre c init (List.append_inj' h rfl).1
  known := by
    have hredo : redoAll (start.map some) (a.changes ++ [change]) =
        change.redo (redoAll (start.map some) a.changes) :=
      List.foldl_append
    rw [record, hredo]
    exact hknown _ hi.known

theorem scripted_splice (hi : Scripted start a) {i j : Nat} {new : List Json}
    {change : ArrayChange} (hfits : 1 ≤ new.length → change.Fits a.items.length)
    (hredo : ∀ known, change.redo known =
      known.take i ++ List.replicate new.length none ++ known.drop j)
    (h : (if new = [] then .ok a
      else .ok (a.record (a.items.take i ++ new ++ a.items.drop j) change) :
        Except LiveFault LiveArray) = .ok a') : Scripted start a' := by
  split at h <;> cases h
  · exact hi
  · rename_i hnew
    refine scripted_record hi (hfits (List.length_pos_of_ne_nil hnew)) fun known hknown => ?_
    rw [hredo]
    exact hknown.splice i j new

theorem scripted_insert (hi : Scripted start a) {index : Int} {items : List Json}
    (h : a.insert index items = .ok a') : Scripted start a' := by
  unfold insert length at h
  split at h
  · refine scripted_splice hi (fun hcount => ?_) (fun _ => rfl) h
    exact ⟨hcount, by omega⟩
  · cases h

theorem scripted_update (hi : Scripted start a) {index : Int} {items : List Json}
    (h : a.update index items = .ok a') : Scripted start a' := by
  unfold update length at h
  split at h
  · refine scripted_splice hi (fun hcount => ?_) (fun _ => rfl) h
    exact ⟨hcount, by omega⟩
  · cases h

theorem scripted_remove (hi : Scripted start a) {index count : Int}
    (h : a.remove index count = .ok a') : Scripted start a' := by
  unfold remove length at h
  split at h
  · cases h
  · split at h <;> cases h
    rename_i hcount hrange
    -- The count on record is the one cut off at the end, not the one asked for.
    refine scripted_record hi ⟨by omega, by omega⟩ fun known hknown => ?_
    exact (hknown.take _).append (hknown.drop _)

theorem scripted_push (hi : Scripted start a) (item : Json) : Scripted start (a.push item) := by
  refine scripted_record hi ⟨Nat.le_refl 1, Nat.le_refl _⟩ fun known hknown => ?_
  have hlength : known.length = a.length := List.Forall₂.length_eq hknown
  have hredo : (ArrayChange.insert a.length 1).redo known = known ++ [none] := by
    simp [ArrayChange.redo, ← hlength]
  rw [hredo]
  exact hknown.append (.nothing [item])

theorem scripted_clear (hi : Scripted start a) : Scripted start a.clear := by
  unfold clear
  split
  · exact hi
  · rename_i hitems
    have hcount := List.length_pos_of_ne_nil hitems
    refine scripted_record hi ⟨hcount, by simp [length]⟩ fun known hknown => ?_
    have hlength : known.length = a.length := List.Forall₂.length_eq hknown
    have hredo : (ArrayChange.remove 0 a.length).redo known = [] := by
      simp [ArrayChange.redo, ← hlength]
    rw [hredo]
    exact .nil

/-- A call keeps the log a script, for it records what it does to the items, and nothing else. -/
theorem scripted_edit (hi : Scripted start a) {e : Edit} (h : a.edit e = .ok a') :
    Scripted start a' := by
  cases e with
  | insert index items => exact scripted_insert hi h
  | update index items => exact scripted_update hi h
  | remove index count => exact scripted_remove hi h
  | push item =>
    cases h
    exact scripted_push hi item
  | clear =>
    cases h
    exact scripted_clear hi
  | set | erase =>
    cases h
    exact hi

def after (a : LiveArray) (calls : List Edit) : LiveArray :=
  calls.foldl (fun a e => (a.edit e).toOption.getD a) a

theorem scripted_after (hi : Scripted start a) (calls : List Edit) :
    Scripted start (a.after calls) := by
  induction calls generalizing a with
  | nil => exact hi
  | cons e rest ih =>
    cases he : a.edit e with
    | error fault => simpa [after, he, Except.toOption] using ih hi
    | ok a' => simpa [after, he, Except.toOption] using ih (scripted_edit hi he)

/-- The log of an array is an edit script: whatever calls have been made since it was empty, the
changes on it are none of them empty and all within bounds where their turn comes, and making them
again leads from the items at that time to as many items as there are now, each of them unknown or
the one that is there. -/
theorem log_is_script (hclean : a.changes = []) (calls : List Edit) :
    (∀ pre change post, (a.after calls).changes = pre ++ change :: post →
      change.Fits (redoAll (a.items.map some) pre).length) ∧
    ∃ known, redoAll (a.items.map some) (a.after calls).changes = known ∧
      known.length = (a.after calls).length ∧
      ∀ (i : Nat) v, known[i]? = some (some v) → (a.after calls).items[i]? = some v := by
  have hi : Scripted a.items (a.after calls) := scripted_after (scripted_of_clean hclean) calls
  exact ⟨hi.fits, _, rfl, List.Forall₂.length_eq hi.known, fun i v => hi.known.getElem?⟩

/-- The removal is cut off at the end, and the last call fails. -/
theorem log_is_script_queue :
    let queue := LiveArray.ofItems [.string "intro", .string "verse", .string "outro"]
    let calls : List Edit := [.insert 1 [.string "bridge"], .update 0 [.string "overture"],
      .remove 3 10, .push (.string "coda"), .remove 9 1]
    queue.changes = [] ∧
      (queue.after calls).changes = [.insert 1 1, .update 0 1, .remove 3 1, .insert 3 1] ∧
      (queue.after calls).items[2]? = some (.string "verse") := by
  intro queue calls
  obtain ⟨-, known, hredo, -, hknown⟩ := log_is_script (a := queue) rfl calls
  refine ⟨rfl, by decide +kernel, hknown 2 (.string "verse") ?_⟩
  rw [← hredo]
  decide +kernel

end LiveArray

end ExtensionHost
