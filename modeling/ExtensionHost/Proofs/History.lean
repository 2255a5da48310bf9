import Mathlib.Data.List.Induction
import ExtensionHost.Proofs.Performed

namespace ExtensionHost

section Since

variable {α : Type} {begins ends : α → Prop} {hist : List α} {e : α}

/-- Something has begun in a history, and it has not ended since. -/
def Since (begins ends : α → Prop) (hist : List α) : Prop :=
  ∃ pre e post, hist = pre ++ e :: post ∧ begins e ∧ ∀ e' ∈ post, ¬ ends e'

theorem Since.exists_mem (h : Since begins ends hist) : ∃ e ∈ hist, begins e := by
  obtain ⟨pre, e, post, rfl, he, -⟩ := h
  exact ⟨e, by simp, he⟩

theorem since_concat :
    Since begins ends (hist ++ [e]) ↔ begins e ∨ Since begins ends hist ∧ ¬ ends e := by
  constructor
  · rintro ⟨pre, b, post, heq, hb, hpost⟩
    -- Where it has begun last: in the last entry, or in the history before it.
    rcases List.eq_nil_or_concat post with rfl | ⟨init, last, rfl⟩
    · have hlast := List.append_inj_right' heq rfl
      obtain rfl : e = b := by simpa using hlast
      exact .inl hb
    · rw [List.concat_eq_append, ← List.cons_append, ← List.append_assoc] at heq
      obtain rfl : hist = pre ++ b :: init := List.append_inj_left' heq rfl
      obtain rfl : e = last := by simpa using heq
      refine .inr ⟨⟨pre, b, init, rfl, hb, fun e' he' => hpost e' ?_⟩, hpost e ?_⟩
      · simp [he']
      · simp
  · rintro (he | ⟨⟨pre, b, post, rfl, hb, hpost⟩, he⟩)
    · exact ⟨hist, e, [], rfl, he, by simp⟩
    · refine ⟨pre, b, post ++ [e], by simp, hb, fun e' he' => ?_⟩
      rcases List.mem_append.1 he' with he' | he'
      · exact hpost e' he'
      · obtain rfl := List.mem_singleton.1 he'
        exact he

theorem Since.append {more : List α} (h : Since begins ends hist) (hmore : ∀ e ∈ more, ¬ ends e) :
    Since begins ends (hist ++ more) := by
  obtain ⟨pre, b, post, rfl, hb, hpost⟩ := h
  refine ⟨pre, b, post ++ more, by simp, hb, fun e he => ?_⟩
  rcases List.mem_append.1 he with he | he
  · exact hpost e he
  · exact hmore e he

end Since

namespace Host

variable {h : Host} {s : Step} {k : ClientId} {c : Client}

/-- The steps of a run, each with the state in which it is taken. -/
def history (h : Host) : List Step → List (Host × Step)
  | [] => []
  | s :: rest => (h, s) :: history (h.perform s).host rest

theorem history_append (h : Host) (a b : List Step) :
    h.history (a ++ b) = h.history a ++ (h.after a).history b := by
  induction a generalizing h with
  | nil => rfl
  | cons s rest ih =>
    simp only [List.cons_append, history, ih]
    rfl

theorem after_concat (h : Host) (steps : List Step) (s : Step) :
    h.after (steps ++ [s]) = ((h.after steps).perform s).host := by
  rw [after_append]
  rfl

theorem history_concat (h : Host) (steps : List Step) (s : Step) :
    h.history (steps ++ [s]) = h.history steps ++ [(h.after steps, s)] := by
  rw [history_append]
  rfl

theorem mem_of_mem_history {h : Host} {steps : List Step} {e : Host × Step}
    (he : e ∈ h.history steps) : e.2 ∈ steps := by
  induction steps generalizing h with
  | nil => cases he
  | cons s rest ih =>
    rcases List.mem_cons.1 he with rfl | he
    · exact List.mem_cons_self ..
    · exact List.mem_cons_of_mem _ (ih he)

theorem numbered_after (steps : List Step) : (start.after steps).Numbered ∧
    ∀ e ∈ start.history steps, e.1.Numbered ∧ e.1.next ≤ (start.after steps).next := by
  induction steps using List.reverseRecOn with
  | nil => exact ⟨numbered_start, by simp [history]⟩
  | append_singleton steps s ih =>
    rw [after_concat, history_concat]
    refine ⟨numbered_perform ih.1 s, fun e he => ?_⟩
    have hle := next_le_perform (start.after steps) s
    rcases List.mem_append.1 he with he | he
    · exact ⟨(ih.2 e he).1, Nat.le_trans (ih.2 e he).2 hle⟩
    · obtain rfl := List.mem_singleton.1 he
      exact ⟨ih.1, hle⟩

/-- The induction for what is true of one client along every run: it holds of a new client, before
which there has been no trace of it, and each step keeps it. -/
theorem client_induction (k : ClientId) {P : List (Host × Step) → Host → Client → Prop}
    (born : ∀ hist h uri config services, (∀ e ∈ hist, e.1.clients.get? k = none) →
      P hist h (.create uri config services))
    (step : ∀ hist h s c c', h.Numbered → h.clients.get? k = some c →
      (h.perform s).host.clients.get? k = some c' → P hist h c →
      P (hist ++ [(h, s)]) (h.perform s).host c')
    (steps : List Step) {c : Client} (hc : (start.after steps).clients.get? k = some c) :
    P (start.history steps) (start.after steps) c := by
  induction steps using List.reverseRecOn generalizing c with
  | nil => simp [after, start] at hc
  | append_singleton steps s ih =>
    have hn := numbered_after steps
    rw [after_concat] at hc ⊢
    rw [history_concat]
    cases hold : (start.after steps).clients.get? k with
    | some c₀ => exact step _ _ s c₀ c hn.1 hold hc (ih hold)
    | none =>
      have hs : s.actor? ≠ some k := by
        intro hs
        rw [(perform_of_absent hs hold).1, hold] at hc
        cases hc
      rcases get?_perform_of_not_actor hs hc with ⟨c₀, _, hc₀, -⟩ | ⟨hk, uri, config, sv, -, rfl⟩
      · rw [hold] at hc₀
        cases hc₀
      · -- Its number is the next one, above all that has been in use along the run.
        apply born
        intro e he
        rcases List.mem_append.1 he with he | he
        · obtain ⟨hne, hle⟩ := hn.2 e he
          cases hx : e.1.clients.get? k with
          | none => rfl
          | some x =>
            have hlt := hne.clients k x hx
            exact absurd (hk ▸ hlt) (Nat.not_lt.2 hle)
        · obtain rfl := List.mem_singleton.1 he
          exact hold

end Host

end ExtensionHost
