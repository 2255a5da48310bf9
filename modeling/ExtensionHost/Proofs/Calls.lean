import ExtensionHost.Proofs.ChangeReport
import ExtensionHost.Proofs.EditScript
import ExtensionHost.Proofs.Operations

namespace ExtensionHost

namespace Feed

/-- The edit that a call asks for, if it does. -/
def Call.edit? (kind : LiveKind) : Call → Option Edit
  | .apply op => op.edit? kind
  | .edit e => some e
  | .report => none

def editsOf (kind : LiveKind) (calls : List Call) : List Edit :=
  calls.filterMap (·.edit? kind)

variable {f : Feed} {call : Call} {calls : List Call}

theorem replica_called (hcall : call ≠ .report) : (f.called call).replica =
    ((call.edit? f.replica.kind).map f.replica.edited).getD f.replica := by
  cases call with
  | report => exact (hcall rfl).elim
  | edit e => rfl
  | apply op =>
    have happ : (f.called (.apply op)).replica = (f.replica.apply op).toOption.getD f.replica := by
      cases hr : f.replica.apply op <;> simp [called, apply, hr, Except.map, Except.toOption]
    rw [happ, f.replica.apply_eq op, Call.edit?]
    cases op.edit? f.replica.kind <;> rfl

theorem exists_called (hcall : call ≠ .report) :
    ∃ r p, f.called call = { f with replica := r, pending := p } := by
  cases call with
  | report => exact (hcall rfl).elim
  | edit e => exact ⟨_, _, rfl⟩
  | apply op =>
    cases happ : f.replica.apply op with
    | error fault =>
      refine ⟨f.replica, f.pending, ?_⟩
      simp [called, apply, happ, Except.map, Except.toOption]
    | ok r =>
      refine ⟨r, true, ?_⟩
      simp [called, apply, happ, Except.map, Except.toOption]

theorem exists_after (hcalls : .report ∉ calls) :
    ∃ r p, f.after calls = { f with replica := r, pending := p } := by
  induction calls generalizing f with
  | nil => exact ⟨_, _, rfl⟩
  | cons call rest ih =>
    obtain ⟨hcall, hrest⟩ := List.ne_and_not_mem_of_not_mem_cons hcalls
    obtain ⟨r, p, hcalled⟩ := exists_called (f := f) (Ne.symm hcall)
    obtain ⟨r', p', hafter⟩ := ih (f := f.called call) hrest
    refine ⟨r', p', hafter.trans ?_⟩
    rw [hcalled]

theorem replica_after (hcalls : .report ∉ calls) : (f.after calls).replica =
    (editsOf f.replica.kind calls).foldl Replica.edited f.replica := by
  induction calls generalizing f with
  | nil => rfl
  | cons call rest ih =>
    obtain ⟨hcall, hrest⟩ := List.ne_and_not_mem_of_not_mem_cons hcalls
    have hcalled := replica_called (f := f) (Ne.symm hcall)
    have hafter : (f.after (call :: rest)).replica = _ := ih (f := f.called call) hrest
    cases he : call.edit? f.replica.kind with
    | none =>
      rw [he, Option.map_none, Option.getD_none] at hcalled
      rw [hafter, hcalled, editsOf, editsOf, List.filterMap_cons_none he]
    | some e =>
      rw [he, Option.map_some, Option.getD_some] at hcalled
      rw [hafter, hcalled, Replica.kind_edited, editsOf, editsOf, List.filterMap_cons_some he,
        List.foldl_cons]

end Feed

namespace Replica

theorem foldl_edited_array (a : LiveArray) (edits : List Edit) :
    edits.foldl edited (array a) = array (a.after edits) := by
  induction edits generalizing a with
  | nil => rfl
  | cons e rest ih =>
    have hone : (array a).edited e = array ((a.edit e).toOption.getD a) := by
      cases he : a.edit e <;> simp [edited, edit, he, Except.map, Except.toOption]
    rw [List.foldl_cons, hone, ih]
    rfl

end Replica

end ExtensionHost
