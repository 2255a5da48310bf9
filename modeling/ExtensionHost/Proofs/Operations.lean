import ExtensionHost.Client.Receive
import ExtensionHost.Live.Edit

namespace ExtensionHost

theorem toOption_map {ε α β : Type} (f : α → β) (x : Except ε α) :
    (x.map f).toOption = x.toOption.map f := by
  cases x <;> rfl

namespace Operation

def items (op : Operation) : List Json :=
  match op.item with
  | some (.array items) => items
  | some item => [item]
  | none => []

/-- The edit that an operation asks for, if it has all that is needed for one. -/
def edit? (op : Operation) : LiveKind → Option Edit
  | .array =>
    match op.kind, op.item, op.index with
    | .clear, _, _ => some .clear
    | .insert, some _, some index => some (.insert index op.items)
    | .update, some _, some index => some (.update index op.items)
    | .remove, _, some index => some (.remove index (op.count.getD 1))
    | _, _, _ => none
  | .object =>
    match op.kind, op.key with
    | .set, some key => some (.set key (op.item.getD .null))
    | .remove, some key => some (.erase key)
    | _, _ => none

/-- The contents that an operation leads to, where it can be applied. -/
inductive Outcome (op : Operation) : Replica → Json → Prop
  | set {m : LiveMap} {key : String} {contents : Object} (hkind : op.kind = .set)
    (hkey : op.key = some key) (hset : contents.get? key = some (op.item.getD .null))
    (hothers : ∀ k, k ≠ key → contents.get? k = m.contents.get? k) :
    Outcome op (.map m) (.ofObject contents)
  | erase {m : LiveMap} {key : String} {contents : Object} (hkind : op.kind = .remove)
    (hkey : op.key = some key) (hpresent : m.contents.contains key)
    (hgone : contents.get? key = none)
    (hothers : ∀ k, k ≠ key → contents.get? k = m.contents.get? k) :
    Outcome op (.map m) (.ofObject contents)
  | clear {a : LiveArray} (hkind : op.kind = .clear) : Outcome op (.array a) (.array [])
  | insert {a : LiveArray} {index : Nat} (hkind : op.kind = .insert) (hitem : op.item.isSome)
    (hindex : op.index = some (index : Int)) (hrange : index ≤ a.length) :
    Outcome op (.array a) (.array (a.items.take index ++ op.items ++ a.items.drop index))
  | update {a : LiveArray} {index : Nat} (hkind : op.kind = .update) (hitem : op.item.isSome)
    (hindex : op.index = some (index : Int)) (hrange : index < a.length)
    (hend : index + op.items.length ≤ a.length) :
    Outcome op (.array a)
      (.array (a.items.take index ++ op.items ++ a.items.drop (index + op.items.length)))
  | remove {a : LiveArray} {index count : Nat} (hkind : op.kind = .remove)
    (hindex : op.index = some (index : Int)) (hcount : op.count.getD 1 = count) (hone : 1 ≤ count)
    (hrange : index < a.length) :
    Outcome op (.array a)
      (.array (a.items.take index ++ a.items.drop (index + min count (a.length - index))))

end Operation

namespace Edit

def kind : Edit → LiveKind
  | .set _ _ | .erase _ => .object
  | _ => .array

/-- The contents that an edit leads to, where it is possible. -/
inductive Outcome : Edit → Replica → Json → Prop
  | insert {a : LiveArray} {index : Nat} {items : List Json} (hrange : index ≤ a.length) :
      Outcome (.insert index items) (.array a)
        (.array (a.items.take index ++ items ++ a.items.drop index))
  | update {a : LiveArray} {index : Nat} {items : List Json} (hrange : index < a.length)
      (hend : index + items.length ≤ a.length) :
      Outcome (.update index items) (.array a)
        (.array (a.items.take index ++ items ++ a.items.drop (index + items.length)))
  | remove {a : LiveArray} {index count : Nat} (hone : 1 ≤ count) (hrange : index < a.length) :
      Outcome (.remove index count) (.array a)
        (.array (a.items.take index ++ a.items.drop (index + min count (a.length - index))))
  | push {a : LiveArray} {item : Json} :
      Outcome (.push item) (.array a) (.array (a.items ++ [item]))
  | clear {a : LiveArray} : Outcome .clear (.array a) (.array [])
  | set {m : LiveMap} {key : String} {value : Json} {contents : Object}
      (hset : contents.get? key = some value)
      (hothers : ∀ k, k ≠ key → contents.get? k = m.contents.get? k) :
      Outcome (.set key value) (.map m) (.ofObject contents)
  | erase {m : LiveMap} {key : String} {contents : Object} (hpresent : m.contents.contains key)
      (hgone : contents.get? key = none)
      (hothers : ∀ k, k ≠ key → contents.get? k = m.contents.get? k) :
      Outcome (.erase key) (.map m) (.ofObject contents)
  | foreign {e : Edit} {r : Replica} (hkind : e.kind ≠ r.kind) : Outcome e r r.snapshot

end Edit

namespace LiveArray

theorem apply_eq (a : LiveArray) (op : Operation) :
    (a.apply op).toOption = (op.edit? .array).bind fun e => (a.edit e).toOption := by
  obtain ⟨kind, key, index, item, count⟩ := op
  cases kind <;> cases index <;> cases item with
    | none => rfl
    | some item => cases item <;> rfl

variable (a : LiveArray) (index count : Int) (new : List Json)

/-! The items after an edit that succeeds, whether it has been recorded or not. -/

theorem items_insert : (a.insert index new).toOption.map (·.items) =
    if 0 ≤ index ∧ index ≤ a.length then
      some (a.items.take index.toNat ++ new ++ a.items.drop index.toNat)
    else none := by
  unfold insert
  split
  · by_cases hnew : new = [] <;> simp [hnew, record, Except.toOption]
  · rfl

theorem items_update : (a.update index new).toOption.map (·.items) =
    if 0 ≤ index ∧ index < a.length ∧ index + new.length ≤ a.length then
      some (a.items.take index.toNat ++ new ++ a.items.drop (index.toNat + new.length))
    else none := by
  unfold update
  split
  · by_cases hnew : new = [] <;> simp [hnew, record, Except.toOption]
  · rfl

theorem items_remove : (a.remove index count).toOption.map (·.items) =
    if 1 ≤ count ∧ 0 ≤ index ∧ index < a.length then
      some (a.items.take index.toNat ++
        a.items.drop (index.toNat + min count.toNat (a.length - index.toNat)))
    else none := by
  unfold remove
  by_cases hcount : count < 1
  · rw [if_pos hcount, if_neg (by omega)]
    rfl
  · by_cases hrange : 0 ≤ index ∧ index < a.length
    · rw [if_neg hcount, if_pos hrange, if_pos ⟨by omega, hrange⟩]
      rfl
    · rw [if_neg hcount, if_neg hrange, if_neg (mt And.right hrange)]
      rfl

theorem items_clear : a.clear.items = [] := by
  unfold clear
  split <;> simp_all [record]

end LiveArray

namespace LiveMap

theorem apply_eq (m : LiveMap) (op : Operation) :
    (m.apply op).toOption = (op.edit? .object).bind fun e => (m.edit e).toOption := by
  obtain ⟨kind, key, index, item, count⟩ := op
  cases kind <;> cases key <;> rfl

theorem contents_erase (m : LiveMap) (key : String) :
    (m.edit (.erase key)).toOption.map (·.contents) =
      if m.contents.contains key then some (m.contents.erase key) else none := by
  cases hkey : m.contents.get? key <;>
    simp [edit, remove, get?, SortedMap.contains, hkey, Except.map, Except.toOption]

end LiveMap

namespace Replica

variable {a : LiveArray} {m : LiveMap} {op : Operation} {after : Json}

theorem apply_eq (r : Replica) (op : Operation) :
    (r.apply op).toOption = (op.edit? r.kind).bind fun e => (r.edit e).toOption := by
  cases r with
  | array a => simp only [apply, edit, kind, toOption_map, a.apply_eq op, Option.map_bind]; rfl
  | map m => simp only [apply, edit, kind, toOption_map, m.apply_eq op, Option.map_bind]; rfl

theorem snapshot_edit_array (a : LiveArray) (e : Edit) :
    ((array a).edit e).toOption.map snapshot = ((a.edit e).toOption.map (·.items)).map .array := by
  rw [edit, toOption_map, Option.map_map, Option.map_map]
  rfl

theorem snapshot_edit_map (m : LiveMap) (e : Edit) :
    ((map m).edit e).toOption.map snapshot =
      ((m.edit e).toOption.map (·.contents)).map .ofObject := by
  rw [edit, toOption_map, Option.map_map, Option.map_map]
  rfl

theorem outcome_of_edit_array {e : Edit}
    (h : ((array a).edit e).toOption.map snapshot = some after) : e.Outcome (array a) after := by
  rw [snapshot_edit_array] at h
  obtain ⟨items, hitems, rfl⟩ := Option.map_eq_some_iff.1 h
  cases e with
  | insert index new =>
    rw [LiveArray.edit, a.items_insert] at hitems
    obtain ⟨hrange, hitems⟩ := Option.ite_none_right_eq_some.1 hitems
    cases hitems
    obtain ⟨i, rfl⟩ := Int.eq_ofNat_of_zero_le hrange.1
    exact .insert (by omega)
  | update index new =>
    rw [LiveArray.edit, a.items_update] at hitems
    obtain ⟨hrange, hitems⟩ := Option.ite_none_right_eq_some.1 hitems
    cases hitems
    obtain ⟨i, rfl⟩ := Int.eq_ofNat_of_zero_le hrange.1
    exact .update (by omega) (by omega)
  | remove index count =>
    rw [LiveArray.edit, a.items_remove] at hitems
    obtain ⟨hrange, hitems⟩ := Option.ite_none_right_eq_some.1 hitems
    cases hitems
    obtain ⟨i, rfl⟩ := Int.eq_ofNat_of_zero_le hrange.2.1
    obtain ⟨n, rfl⟩ := Int.eq_ofNat_of_zero_le (show 0 ≤ count by omega)
    exact .remove (by omega) (by omega)
  | push item =>
    cases hitems
    exact .push
  | clear =>
    obtain rfl : a.clear.items = items := Option.some.inj hitems
    rw [a.items_clear]
    exact .clear
  | set | erase =>
    cases hitems
    exact .foreign (by simp [Edit.kind, kind])

theorem edit_of_outcome_array {e : Edit} (h : e.Outcome (array a) after) :
    ((array a).edit e).toOption.map snapshot = some after := by
  rw [snapshot_edit_array]
  cases h with
  | insert hrange =>
    rw [LiveArray.edit, a.items_insert, if_pos (by omega)]
    rfl
  | update hrange hend =>
    rw [LiveArray.edit, a.items_update, if_pos (by omega)]
    rfl
  | remove hone hrange =>
    rw [LiveArray.edit, a.items_remove, if_pos (by omega)]
    rfl
  | push => rfl
  | clear =>
    rw [LiveArray.edit, Except.toOption, Option.map_some, a.items_clear]
    rfl
  | foreign hkind =>
    cases e with
    | set | erase => rfl
    | _ => exact (hkind rfl).elim

theorem outcome_of_edit_map {e : Edit}
    (h : ((map m).edit e).toOption.map snapshot = some after) : e.Outcome (map m) after := by
  rw [snapshot_edit_map] at h
  obtain ⟨contents, hcontents, rfl⟩ := Option.map_eq_some_iff.1 h
  cases e with
  | set key value =>
    obtain rfl : (m.set key value).contents = contents := Option.some.inj hcontents
    exact .set (by simp [LiveMap.set]) fun k hk => by simp [LiveMap.set, hk]
  | erase key =>
    rw [m.contents_erase] at hcontents
    obtain ⟨hpresent, hcontents⟩ := Option.ite_none_right_eq_some.1 hcontents
    cases hcontents
    exact .erase hpresent (by simp) fun k hk => by simp [Ne.symm hk]
  | _ =>
    cases hcontents
    exact .foreign (by simp [Edit.kind, kind])

theorem edit_of_outcome_map {e : Edit} (h : e.Outcome (map m) after) :
    ((map m).edit e).toOption.map snapshot = some after := by
  rw [snapshot_edit_map]
  cases h with
  | @set _ key value contents hset hothers =>
    have hcontents : contents = m.contents.insert key value := by
      refine SortedMap.eq_of_get? fun k => ?_
      by_cases hk : k = key
      · simp [hk, hset]
      · simp [hk, hothers k hk]
    rw [hcontents]
    rfl
  | @erase _ key contents hpresent hgone hothers =>
    have hcontents : contents = m.contents.erase key := by
      refine SortedMap.eq_of_get? fun k => ?_
      by_cases hk : k = key
      · simp [hk, hgone]
      · simp [Ne.symm hk, hothers k hk]
    rw [m.contents_erase, if_pos hpresent, hcontents]
    rfl
  | foreign hkind =>
    cases e with
    | set | erase => exact (hkind rfl).elim
    | _ => rfl

theorem snapshot_edit_eq_some_iff {r : Replica} {e : Edit} :
    (r.edit e).toOption.map snapshot = some after ↔ e.Outcome r after := by
  cases r with
  | array a => exact ⟨outcome_of_edit_array, edit_of_outcome_array⟩
  | map m => exact ⟨outcome_of_edit_map, edit_of_outcome_map⟩

theorem exists_edit_of_outcome {r : Replica} (h : op.Outcome r after) :
    ∃ e, op.edit? r.kind = some e ∧ e.Outcome r after := by
  cases h with
  | set hkind hkey hset hothers =>
    exact ⟨_, by simp [Operation.edit?, kind, hkind, hkey], .set hset hothers⟩
  | erase hkind hkey hpresent hgone hothers =>
    exact ⟨_, by simp [Operation.edit?, kind, hkind, hkey], .erase hpresent hgone hothers⟩
  | clear hkind => exact ⟨.clear, by simp [Operation.edit?, kind, hkind], .clear⟩
  | insert hkind hitem hindex hrange =>
    obtain ⟨item, hitem⟩ := Option.isSome_iff_exists.1 hitem
    exact ⟨_, by simp [Operation.edit?, kind, hkind, hitem, hindex], .insert hrange⟩
  | update hkind hitem hindex hrange hend =>
    obtain ⟨item, hitem⟩ := Option.isSome_iff_exists.1 hitem
    exact ⟨_, by simp [Operation.edit?, kind, hkind, hitem, hindex], .update hrange hend⟩
  | remove hkind hindex hcount hone hrange =>
    exact ⟨_, by simp [Operation.edit?, kind, hkind, hindex, hcount], .remove hone hrange⟩

theorem outcome_of_edit?_array {e : Edit} (he : op.edit? .array = some e)
    (h : e.Outcome (array a) after) : op.Outcome (array a) after := by
  simp only [Operation.edit?] at he
  split at he
  · rename_i hkind
    cases he
    cases h with
    | clear => exact .clear hkind
    | foreign hother => exact (hother rfl).elim
  · rename_i hkind hitem hindex
    cases he
    cases h with
    | insert hrange => exact .insert hkind (by simp [hitem]) hindex hrange
    | foreign hother => exact (hother rfl).elim
  · rename_i hkind hitem hindex
    cases he
    cases h with
    | update hrange hend => exact .update hkind (by simp [hitem]) hindex hrange hend
    | foreign hother => exact (hother rfl).elim
  · rename_i hkind hindex
    cases he
    generalize hcount : op.count.getD 1 = n at h
    cases h with
    | remove hone hrange => exact .remove hkind hindex hcount hone hrange
    | foreign hother => exact (hother rfl).elim
  · cases he

theorem outcome_of_edit?_map {e : Edit} (he : op.edit? .object = some e)
    (h : e.Outcome (map m) after) : op.Outcome (map m) after := by
  simp only [Operation.edit?] at he
  split at he
  · rename_i hkind hkey
    cases he
    generalize hvalue : op.item.getD .null = v at h
    cases h with
    | set hset hothers => exact .set hkind hkey (hvalue ▸ hset) hothers
    | foreign hother => exact (hother rfl).elim
  · rename_i hkind hkey
    cases he
    cases h with
    | erase hpresent hgone hothers => exact .erase hkind hkey hpresent hgone hothers
    | foreign hother => exact (hother rfl).elim
  · cases he

/-- An operation has the outcome of the edit that it asks for. -/
theorem outcome_iff_edit {r : Replica} : op.Outcome r after ↔
    ∃ e, op.edit? r.kind = some e ∧ e.Outcome r after := by
  refine ⟨exists_edit_of_outcome, ?_⟩
  rintro ⟨e, he, h⟩
  cases r with
  | array a => exact outcome_of_edit?_array he h
  | map m => exact outcome_of_edit?_map he h

theorem snapshot_apply_eq_some_iff {r : Replica} :
    (r.apply op).toOption.map snapshot = some after ↔ op.Outcome r after := by
  simp only [apply_eq, outcome_iff_edit, ← snapshot_edit_eq_some_iff, Option.map_bind,
    Option.bind_eq_some_iff, Function.comp_apply]

end Replica

namespace Feed

variable {f : Feed} {op : Operation} {after : Json}

theorem apply_eq_ok_iff : (∃ r, f.apply op = .ok { f with replica := r, pending := true } ∧
      r.snapshot = after) ↔ op.Outcome f.replica after := by
  rw [← Replica.snapshot_apply_eq_some_iff, apply]
  cases happ : f.replica.apply op <;> simp [Except.map, Except.toOption]

theorem applyUnheard_eq_ok_iff : (∃ r, f.applyUnheard op =
        .ok { f with replica := r, pending := true, owesSnapshot := true } ∧
      r.hasChanges = false ∧ r.snapshot = after) ↔ op.Outcome f.replica after := by
  rw [← Replica.snapshot_apply_eq_some_iff, applyUnheard, apply]
  cases happ : f.replica.apply op <;>
    simp [Except.map, Except.toOption, Replica.hasChanges_forgetChanges]

theorem applyUnheard_of_error {fault : LiveFault} (happ : f.apply op = .error fault) :
    f.applyUnheard op = .error fault := by
  rw [applyUnheard, happ]
  rfl

theorem applyOperations_of_error {fault : LiveFault} (happ : f.apply op = .error fault)
    (heard : Bool) {operation : Json} (hop : Operation.decode operation = .ok op) :
    Client.applyOperations heard f [operation] = (f, [fault]) := by
  have hone : Client.applyOperation heard f operation = .error fault := by
    rw [Client.applyOperation, hop]
    cases heard with
    | true => exact happ
    | false => exact applyUnheard_of_error happ
  rw [Client.applyOperations, hone]
  rfl

/-- Either an operation has an outcome, and is applied and leads to it whether anybody hears of it
or not: then it has to be reported, and if nobody hears of it, the log is empty and a snapshot is
owed. Or it fails, and nothing about the live data has changed. -/
theorem operation_outcome (f : Feed) (op : Operation) :
    (∀ after, op.Outcome f.replica after ↔
      ∃ r, f.apply op = .ok { f with replica := r, pending := true } ∧ r.snapshot = after) ∧
    (∀ after, op.Outcome f.replica after ↔
      ∃ r, f.applyUnheard op =
          .ok { f with replica := r, pending := true, owesSnapshot := true } ∧
        r.hasChanges = false ∧ r.snapshot = after) ∧
    ((∃ after, op.Outcome f.replica after) ∨
      ∃ fault, f.apply op = .error fault ∧ f.applyUnheard op = .error fault ∧
        ∀ heard operation, Operation.decode operation = .ok op →
          Client.applyOperations heard f [operation] = (f, [fault])) := by
  refine ⟨fun _ => apply_eq_ok_iff.symm, fun _ => applyUnheard_eq_ok_iff.symm, ?_⟩
  cases hr : f.replica.apply op with
  | ok r =>
    have hafter : (f.replica.apply op).toOption.map Replica.snapshot = some r.snapshot := by
      rw [hr]
      rfl
    exact .inl ⟨_, Replica.snapshot_apply_eq_some_iff.1 hafter⟩
  | error fault =>
    have happ : f.apply op = .error fault := by
      rw [apply, hr]
      rfl
    exact .inr ⟨fault, happ, applyUnheard_of_error happ,
      fun heard _ => applyOperations_of_error happ heard⟩

def tracks : Feed where
  name := "tracks"
  typeName := "Track"
  onAdd := .empty
  onUpdate := .empty
  onRemove := .empty
  replica := .array (.ofItems [.string "intro", .string "outro"])
  pending := false
  owesSnapshot := false

/-- An insertion may be at the end, and an update may not reach beyond it. -/
theorem operation_outcome_tracks :
    (∃ r, tracks.applyUnheard ⟨.insert, none, some 2, some (.string "coda"), none⟩ =
        .ok { tracks with replica := r, pending := true, owesSnapshot := true } ∧
      r.hasChanges = false ∧
      r.snapshot = .array [.string "intro", .string "outro", .string "coda"]) ∧
    ∃ fault, tracks.apply ⟨.update, none, some 1, some (.array [.null, .null]), none⟩ =
      .error fault := by
  constructor
  · obtain ⟨-, hunheard, -⟩ :=
      operation_outcome tracks ⟨.insert, none, some 2, some (.string "coda"), none⟩
    have hrange : 2 ≤ (LiveArray.ofItems [.string "intro", .string "outro"]).length := by decide
    exact (hunheard _).1 (.insert rfl rfl rfl hrange)
  · obtain ⟨-, -, ⟨after, hafter⟩ | ⟨fault, happ, -⟩⟩ :=
      operation_outcome tracks ⟨.update, none, some 1, some (.array [.null, .null]), none⟩
    · cases hafter with
      | update hkind hitem hindex hrange hend =>
        cases hindex
        exact absurd hend (by decide)
      | clear hkind => cases hkind
      | insert hkind => cases hkind
      | remove hkind => cases hkind
    · exact ⟨fault, happ⟩

end Feed

end ExtensionHost
