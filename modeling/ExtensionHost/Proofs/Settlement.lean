import ExtensionHost.Proofs.History

namespace ExtensionHost.Host

variable {h : Host} {a : ActionId}

theorem pending_of_resolveAll {actions : SortedMap ActionId (Action Waiting)}
    {resolutions : List (ActionId × Option Json)} {x : Action Waiting}
    (hx : (resolveAll actions resolutions).get? a = some x) (hp : x.isPending) :
    actions.get? a = some x := by
  induction resolutions generalizing actions with
  | nil => exact hx
  | cons r rest ih =>
    have hrest := ih hx
    rw [SortedMap.get?_modify, Option.map_eq_some_iff] at hrest
    obtain ⟨y, hy, hyx⟩ := hrest
    split at hyx
    · unfold Action.resolve at hyx
      split at hyx
      · subst hyx
        simp [Action.isPending] at hp
      · exact hyx ▸ hy
    · exact hyx ▸ hy

theorem resolve_isTerminated (x : Action Waiting) (result : Option Json) :
    (x.resolve result).1.isTerminated = x.isTerminated := by
  unfold Action.resolve
  split
  · rename_i hp
    simp only [Action.isPending, decide_eq_true_eq] at hp
    simp [Action.isTerminated, hp]
  · rfl

theorem terminated_of_resolveAll {actions : SortedMap ActionId (Action Waiting)}
    {resolutions : List (ActionId × Option Json)} :
    ((resolveAll actions resolutions).get? a).any (·.isTerminated) =
      (actions.get? a).any (·.isTerminated) := by
  induction resolutions generalizing actions with
  | nil => rfl
  | cons r rest ih =>
    refine ih.trans ?_
    rw [SortedMap.get?_modify]
    cases actions.get? a with
    | none => rfl
    | some x =>
      simp only [Option.map_some, Option.any_some]
      split
      · exact resolve_isTerminated x _
      · rfl

theorem get?_resolve (h : Host) (b : ActionId) (result : Option Json) (a : ActionId) :
    (h.resolve b result).1.actions.get? a = (resolveAll h.actions [(b, result)]).get? a := by
  simp only [resolve, resolveAll, List.foldl_cons, List.foldl_nil, SortedMap.get?_modify,
    Std.compare_eq_iff_eq]
  cases hb : h.actions.get? b with
  | none =>
    by_cases ha : b = a
    · subst ha
      simp [hb]
    · simp [ha]
  | some x =>
    by_cases ha : b = a
    · subst ha
      simp [hb]
    · simp [ha, Ne.symm ha]

theorem resolveAll_of_some {actions : SortedMap ActionId (Action Waiting)}
    (resolutions : List (ActionId × Option Json)) {x : Action Waiting}
    (hx : actions.get? a = some x) :
    ∃ x', (resolveAll actions resolutions).get? a = some x' ∧ (x.isPending = false → x' = x) := by
  induction resolutions generalizing actions x with
  | nil => exact ⟨x, hx, fun _ => rfl⟩
  | cons r rest ih =>
    by_cases hr : r.1 = a
    · have hnext : (actions.modify r.1 fun y => (y.resolve r.2).1).get? a =
          some (x.resolve r.2).1 := by simp [hx, hr]
      obtain ⟨x', hx', hsame⟩ := ih hnext
      refine ⟨x', hx', fun hp => ?_⟩
      have hstill : (x.resolve r.2).1 = x := by simp [Action.resolve, hp]
      rw [hstill] at hsame
      exact hsame hp
    · have hnext : (actions.modify r.1 fun y => (y.resolve r.2).1).get? a = some x := by
        simp [hx, hr]
      exact ih hnext

theorem resolveAll_entry {actions : SortedMap ActionId (Action Waiting)} {entry : Option ActionId}
    (result : Option Json) (b : ActionId) :
    (resolveAll actions (entry.map (·, result)).toList).get? b =
      if entry = some b then (actions.get? b).map fun x => (x.resolve result).1
      else actions.get? b := by
  cases entry with
  | none => rfl
  | some a =>
    simp only [Option.map_some, Option.toList_some, resolveAll, List.foldl_cons, List.foldl_nil,
      SortedMap.get?_modify, Std.compare_eq_iff_eq, Option.some.injEq]
    by_cases ha : a = b <;> simp [ha]

theorem action_perform (hn : h.Numbered) (s : Step) {x : Action Waiting}
    (hx : h.actions.get? a = some x) :
    ∃ x', (h.perform s).host.actions.get? a = some x' ∧ (x.isPending = false → x' = x) := by
  have hkeep : ∃ x', h.actions.get? a = some x' ∧ (x.isPending = false → x' = x) :=
    ⟨x, hx, fun _ => rfl⟩
  have hp := h.performed s
  generalize (h.perform s).host = h' at hp
  cases hp with
  | same | services | client | clientDropped | document | documentChanged | documentDropped =>
    exact hkeep
  | acted _ _ ha =>
    rw [ha.actions]
    exact resolveAll_of_some _ hx
  | action =>
    have hne : a ≠ h.next := Nat.ne_of_lt (hn.actions a x hx)
    simpa [createAction, hne] using hkeep
  | @issued k c i action id ids hc =>
    cases action with
    | none => exact hkeep
    | some b =>
      simp only [issued, get?_track_actions]
      split
      · rename_i hab
        subst hab
        refine ⟨x.onTerminate ⟨k, id⟩, by simp [hx], fun hp => ?_⟩
        simp [Action.onTerminate, hp]
      · exact hkeep
  | @resolved b y result hy =>
    by_cases hab : a = b
    · subst hab
      obtain rfl : x = y := Option.some.inj (hx.symm.trans hy)
      exact ⟨(x.resolve result).1, by simp, fun hp => by simp [Action.resolve, hp]⟩
    · simpa [hab] using hkeep
  | @terminated b y hy =>
    by_cases hab : a = b
    · subst hab
      obtain rfl : x = y := Option.some.inj (hx.symm.trans hy)
      exact ⟨x.terminate.1, by simp, fun hp => by simp [Action.terminate, hp]⟩
    · simpa [hab] using hkeep

@[simp] theorem resolve_clients (h : Host) (b : ActionId) (result : Option Json) :
    (h.resolve b result).1.clients = h.clients := by
  unfold resolve
  split <;> rfl

theorem settled_after (steps more : List Step) {x : Action Waiting}
    (hx : (start.after steps).actions.get? a = some x) (hp : x.isPending = false) :
    (start.after (steps ++ more)).actions.get? a = some x := by
  induction more using List.reverseRecOn with
  | nil => simpa using hx
  | append_singleton more s ih =>
    rw [← List.append_assoc, after_concat]
    obtain ⟨x', hx', hsame⟩ := action_perform (numbered_after (steps ++ more)).1 s ih
    rw [hx', hsame hp]

end ExtensionHost.Host
