import ExtensionHost.Proofs.Calls

namespace ExtensionHost

/-- What an array tells of. -/
inductive Occasion where
  | add
  | update
  | remove
  deriving DecidableEq

def ArrayChange.occasion : ArrayChange → Occasion
  | insert _ _ => .add
  | update _ _ => .update
  | remove _ _ => .remove

/-- What an edit does to an array of a length, if it does anything: it has to be within bounds, and
to bring or to take at least one item. -/
def Edit.occasion? (length : Nat) : Edit → Option Occasion
  | .push _ => some .add
  | .insert index items =>
    if 0 ≤ index ∧ index ≤ length ∧ items ≠ [] then some .add else none
  | .update index items =>
    if 0 ≤ index ∧ index + items.length ≤ length ∧ items ≠ [] then some .update else none
  | .remove index count =>
    if 1 ≤ count ∧ 0 ≤ index ∧ index < length then some .remove else none
  | .clear => if length ≠ 0 then some .remove else none
  | .set _ _ | .erase _ => none

namespace LiveArray

def edited (a : LiveArray) (e : Edit) : LiveArray := (a.edit e).toOption.getD a

def occasions (a : LiveArray) : List Edit → List Occasion
  | [] => []
  | e :: rest => (e.occasion? a.length).toList ++ (a.edited e).occasions rest

theorem occasions_insert (a : LiveArray) (index : Int) (items : List Json) :
    (a.edited (.insert index items)).changes.map (·.occasion) =
      a.changes.map (·.occasion) ++ ((Edit.insert index items).occasion? a.length).toList := by
  simp only [edited, edit, insert, Edit.occasion?]
  by_cases hrange : 0 ≤ index ∧ index ≤ a.length
  · by_cases hitems : items = []
    · simp [hrange, hitems, Except.toOption]
    · simp [hrange, hitems, Except.toOption, record, ArrayChange.occasion]
  · rw [if_neg hrange, if_neg fun h => hrange ⟨h.1, h.2.1⟩]
    simp [Except.toOption]

theorem occasions_update (a : LiveArray) (index : Int) (items : List Json) :
    (a.edited (.update index items)).changes.map (·.occasion) =
      a.changes.map (·.occasion) ++ ((Edit.update index items).occasion? a.length).toList := by
  simp only [edited, edit, update, Edit.occasion?]
  by_cases hitems : items = []
  · split <;> simp [hitems, Except.toOption]
  · have hlength := List.length_pos_of_ne_nil hitems
    by_cases hrange : 0 ≤ index ∧ index + items.length ≤ a.length
    · rw [if_pos ⟨hrange.1, by omega, hrange.2⟩, if_neg hitems,
        if_pos ⟨hrange.1, hrange.2, hitems⟩]
      simp [Except.toOption, record, ArrayChange.occasion]
    · rw [if_neg fun h => hrange ⟨h.1, h.2.2⟩, if_neg fun h => hrange ⟨h.1, h.2.1⟩]
      simp [Except.toOption]

theorem occasions_remove (a : LiveArray) (index count : Int) :
    (a.edited (.remove index count)).changes.map (·.occasion) =
      a.changes.map (·.occasion) ++ ((Edit.remove index count).occasion? a.length).toList := by
  simp only [edited, edit, remove, Edit.occasion?]
  by_cases hcount : count < 1
  · rw [if_pos hcount, if_neg fun h => by omega]
    simp [Except.toOption]
  · by_cases hrange : 0 ≤ index ∧ index < a.length
    · rw [if_neg hcount, if_pos hrange, if_pos ⟨by omega, hrange⟩]
      simp [Except.toOption, record, ArrayChange.occasion]
    · rw [if_neg hcount, if_neg hrange, if_neg (mt And.right hrange)]
      simp [Except.toOption]

theorem occasions_edited (a : LiveArray) (e : Edit) : (a.edited e).changes.map (·.occasion) =
    a.changes.map (·.occasion) ++ (e.occasion? a.length).toList := by
  cases e with
  | insert index items => exact a.occasions_insert index items
  | update index items => exact a.occasions_update index items
  | remove index count => exact a.occasions_remove index count
  | push item =>
    simp [edited, edit, push, record, Edit.occasion?, ArrayChange.occasion, Except.toOption]
  | clear =>
    by_cases hitems : a.items = [] <;>
      simp [edited, edit, clear, record, Edit.occasion?, ArrayChange.occasion, Except.toOption,
        length, hitems]
  | set | erase => simp [edited, edit, Edit.occasion?, Except.toOption]

theorem occasions_after (a : LiveArray) (edits : List Edit) :
    (a.after edits).changes.map (·.occasion) = a.changes.map (·.occasion) ++ a.occasions edits := by
  induction edits generalizing a with
  | nil => simp [after, occasions]
  | cons e rest ih =>
    have hrest := ih (a.edited e)
    rw [occasions_edited, List.append_assoc] at hrest
    exact hrest

end LiveArray

namespace Feed

def trigger (f : Feed) : Occasion → Trigger
  | .add => f.onAdd
  | .update => f.onUpdate
  | .remove => f.onRemove

def noticeAbout (f : Feed) (items : List Json) (o : Occasion) : Notice :=
  ⟨(f.trigger o).handler?, .array items, none⟩

/-- What somebody is told of, each once and in this order. -/
def told (f : Feed) (occasions : List Occasion) : List Occasion :=
  [.add, .update, .remove].filter fun o => o ∈ occasions ∧ (f.trigger o).handler?.isSome

theorem arrayNotices_eq (f : Feed) (items : List Json) (changes : List ArrayChange) :
    f.arrayNotices items changes =
      ([.add, .update, .remove].filter fun o => o ∈ changes.map (·.occasion)).map
        (f.noticeAbout items) := by
  have hany : ∀ {o : Occasion} {p : ArrayChange → Bool}, (∀ c, p c = true ↔ c.occasion = o) →
      changes.any p = decide (o ∈ changes.map (·.occasion)) := by
    intro o p hp
    rw [Bool.eq_iff_iff]
    simp only [List.any_eq_true, hp, decide_eq_true_eq, List.mem_map]
  rw [arrayNotices, hany (o := .add) fun c => by cases c <;> simp [ArrayChange.occasion],
    hany (o := .update) fun c => by cases c <;> simp [ArrayChange.occasion],
    hany (o := .remove) fun c => by cases c <;> simp [ArrayChange.occasion]]
  simp only [List.filter_cons, List.filter_nil]
  split <;> split <;> split <;> rfl

theorem heard_arrayNotices (f : Feed) (items : List Json) (changes : List ArrayChange) :
    (f.arrayNotices items changes).filter (·.handler.isSome) =
      (f.told (changes.map (·.occasion))).map (f.noticeAbout items) := by
  rw [arrayNotices_eq, List.filter_map, List.filter_filter, told]
  congr 1
  refine List.filter_congr fun o _ => ?_
  simp [noticeAbout, Bool.and_comm]

variable {f : Feed} {a : LiveArray} {calls : List Call}

/-- What an array reports after calls. With no snapshot owed and nothing on record before these are
at most three notices: one of additions, one of updates and one of removals, in this order, each of
them exactly if some call has done such a thing to at least one item and there is a handler for it.
They show the items as they are at the report and do not go into detail. A call that fails or has no
effect is not told of. Then the log is empty and nothing is pending, and reporting again says
nothing. -/
theorem occasions_reported (ha : f.replica = .array a) (hclean : a.changes = [])
    (howes : f.owesSnapshot = false) (hcalls : .report ∉ calls) :
    (f.after calls).replica = .array (a.after (editsOf .array calls)) ∧
    (f.after calls).returned .report =
      (f.told (a.occasions (editsOf .array calls))).map
        (f.noticeAbout (a.after (editsOf .array calls)).items) ∧
    ((f.after calls).called .report).replica =
      .array (.ofItems (a.after (editsOf .array calls)).items) ∧
    ((f.after calls).called .report).pending = false ∧
    ((f.after calls).called .report).returned .report = [] := by
  have hreplica : (f.after calls).replica = .array (a.after (editsOf .array calls)) := by
    rw [replica_after hcalls, ha]
    exact Replica.foldl_edited_array a _
  have hreported : ((f.after calls).called .report).replica =
      .array (.ofItems (a.after (editsOf .array calls)).items) := by
    rw [called, reported, hreplica]
    rfl
  obtain ⟨r, p, hafter⟩ := exists_after (f := f) hcalls
  refine ⟨hreplica, ?_, hreported, rfl, ?_⟩
  · have hlog := a.occasions_after (editsOf .array calls)
    rw [hclean, List.map_nil, List.nil_append] at hlog
    have howed : (f.after calls).owesSnapshot = false := by
      rw [hafter]
      exact howes
    have hnotices : (f.after calls).changeNotices =
        f.arrayNotices (a.after (editsOf .array calls)).items
          (a.after (editsOf .array calls)).changes := by
      rw [changeNotices, howed, hreplica, hafter]
      rfl
    rw [returned, hnotices, heard_arrayNotices, hlog]
  · have howed : ((f.after calls).called .report).owesSnapshot = false := rfl
    rw [returned, changeNotices, howed, hreported]
    rfl

def playlist : Feed where
  name := "playlist"
  typeName := "Track"
  onAdd := ⟨some "queued", .empty⟩
  onUpdate := .empty
  onRemove := ⟨some "dropped", .empty⟩
  replica := .array (.ofItems [.string "intro"])
  pending := false
  owesSnapshot := false

/-- Nothing is inserted, one track is replaced, one removal fails and another one does not. -/
def reshuffled : List Call :=
  [.edit (.insert 0 []), .apply ⟨.update, none, some 0, some (.string "verse"), none⟩,
    .edit (.remove 1 1), .apply ⟨.remove, none, some 0, none, some 5⟩]

theorem occasions_reported_playlist : playlist.owesSnapshot = false ∧ .report ∉ reshuffled ∧
    (playlist.after reshuffled).returned .report = [⟨some "dropped", .array [], none⟩] := by
  have hcalls : .report ∉ reshuffled := by simp [reshuffled]
  obtain ⟨-, hnotices, -⟩ := occasions_reported (f := playlist) rfl rfl rfl hcalls
  refine ⟨rfl, hcalls, hnotices.trans ?_⟩
  decide +kernel

end Feed

end ExtensionHost
