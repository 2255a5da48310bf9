import Mathlib.Logic.Basic
import ExtensionHost.Schema.Read

namespace ExtensionHost

theorem bind_eq_ok {ε α β : Type} {x : Except ε α} {f : α → Except ε β} {b : β} :
    (x >>= f) = .ok b ↔ ∃ a, x = .ok a ∧ f a = .ok b := by
  cases x <;> simp [Bind.bind, Except.bind]

theorem exists_bind_eq_ok {ε α β : Type} {x : Except ε α} {f : α → Except ε β} :
    (∃ b, (x >>= f) = .ok b) ↔ ∃ a, x = .ok a ∧ ∃ b, f a = .ok b := by
  simp only [bind_eq_ok]
  constructor
  · rintro ⟨b, a, ha, hb⟩
    exact ⟨a, ha, b, hb⟩
  · rintro ⟨a, ha, b, hb⟩
    exact ⟨b, a, ha, hb⟩

theorem pure_eq_ok {ε α : Type} {a b : α} : (pure a : Except ε α) = .ok b ↔ a = b := by
  simp [pure, Except.pure]

theorem throw_ne_ok {ε α : Type} {e : ε} {a : α} : ¬ (throw e : Except ε α) = .ok a := by
  simp [throw, throwThe, MonadExceptOf.throw]

@[simp] theorem mapError_ok {ε δ α : Type} (f : ε → δ) (a : α) :
    (.ok a : Except ε α).mapError f = .ok a := rfl

@[simp] theorem mapError_error {ε δ α : Type} (f : ε → δ) (e : ε) :
    (.error e : Except ε α).mapError f = .error (f e) := rfl

theorem SortedMap.nonemptyString?_ne_empty {o : Object} {name s : String}
    (h : o.nonemptyString? name = some s) : s ≠ "" := by
  have hs := (Option.filter_eq_some_iff.1 h).2
  simpa using hs

/-- An entry is passed over: the table is handed on as it was, and there is one warning. -/
def Skips {σ : Type} (read : EntryReader σ) (state : σ) (entry : Json) : Prop :=
  ∃ warning, read state entry = (state, [warning])

theorem readEntries_induction {σ : Type} {read : EntryReader σ} {P : σ → Prop}
    (step : ∀ state entry, P state → P (read state entry).1) (entries : List Json) {state : σ}
    (h : P state) : P (readEntries read state entries).1 := by
  induction entries generalizing state with
  | nil => exact h
  | cons entry rest ih => exact ih (step state entry h)

namespace Schema

/-- What the header of a schema document says if it is accepted. -/
structure Headed (maxVersion : String) (document : Object) (uri version : String) : Prop where
  type : document.string? "type" = some "Schema"
  supported : ¬ maxVersion < version
  version : (document.string? "version").getD "" = version
  uri : document.nonemptyString? "uri" = some uri

variable {maxVersion uri version : String}

theorem readHeader_eq_ok_iff {document : Object} :
    readHeader maxVersion document = .ok (uri, version) ↔
      Headed maxVersion document uri version := by
  have htype : (document.string? "type").getD "" = "Schema" ↔
      document.string? "type" = some "Schema" := by
    cases document.string? "type" <;> simp
  constructor
  · intro h
    unfold readHeader at h
    dsimp only at h
    split at h
    · cases h
    · rename_i ht
      split at h
      · cases h
      · rename_i hv
        split at h
        · cases h
        · rename_i hu
          cases h
          exact ⟨htype.1 (not_not.1 ht), hv, rfl, hu⟩
  · rintro ⟨ht, hv, rfl, hu⟩
    simp only [readHeader, htype.2 ht, ne_eq, not_true_eq_false, if_false, hv, hu]

theorem load_run (maxVersion : String) (document : Json) (keys : PropertyKeys) :
    (load maxVersion document).run.run keys = match document.asObject? with
      | none => (.error .notObject, keys)
      | some fields =>
        match readHeader maxVersion fields with
        | .error fault => (.error fault, keys)
        | .ok (uri, version) =>
          let r := readBody keys uri version fields
          (.ok (r.schema, r.warnings), r.keys) := by
  unfold load
  cases document.asObject? with
  | none => rfl
  | some fields =>
    dsimp only
    cases readHeader maxVersion fields <;> rfl

theorem keys_of_load_error {document : Json} {keys keys' : PropertyKeys} {fault : SchemaError}
    (h : (load maxVersion document).run.run keys = (.error fault, keys')) : keys' = keys := by
  rw [load_run] at h
  split at h
  · cases h
    rfl
  · split at h <;> cases h
    rfl

theorem load_eq_read (maxVersion : String) (document : Json) (keys : PropertyKeys) :
    (load maxVersion document).run.run keys = match read maxVersion keys document with
      | .error fault => (.error fault, keys)
      | .ok r => (.ok (r.schema, r.warnings), r.keys) := by
  unfold read
  cases h : (load maxVersion document).run.run keys with
  | mk result keys' =>
    cases result with
    | error fault =>
      obtain rfl := keys_of_load_error h
      rfl
    | ok loaded => rfl

theorem read_eq_ok_iff {keys : PropertyKeys} {document : Json} {r : Reading} :
    read maxVersion keys document = .ok r ↔
      ∃ fields uri version, document.asObject? = some fields ∧
        Headed maxVersion fields uri version ∧ readBody keys uri version fields = r := by
  unfold read
  rw [load_run]
  cases document.asObject? with
  | none => simp [Except.map]
  | some fields =>
    simp only [Option.some.injEq, exists_and_left, exists_eq_left', ← readHeader_eq_ok_iff]
    cases readHeader maxVersion fields with
    | error fault => simp [Except.map]
    | ok header =>
      obtain ⟨uri, version⟩ := header
      simp [Except.map, and_assoc]

end Schema

end ExtensionHost
