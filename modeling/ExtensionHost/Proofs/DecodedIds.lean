import ExtensionHost.Proofs.Messages

namespace ExtensionHost.CommandResponse

section Decoding

variable {message : Json} {body : Object} {n : Number}

theorem decodeId_eq_ok_iff_value (hn : body.get? "id" = some (.number n)) {id : UInt64} :
    decodeId body = .ok id ↔
      n.value = id.toNat ∨ n.value = 2 ^ 64 ∧ id.toNat = 2 ^ 64 - 1 := by
  rw [decodeId_eq_ok, ← idOfNumber?_eq_some_iff_value]
  simp [hn]

theorem decodeId_of_no_id (hn : body.get? "id" = some (.number n)) (hnone : idOfNumber? n = none) :
    decodeId body = .error (.invalidField "id" .notNatural) := by
  simp [decodeId, SortedMap.present?, hn, Option.filter, Json.isNull, hnone]

theorem decode_of_no_id (hbody : message.asObject? = some body)
    (hn : body.get? "id" = some (.number n)) (method : Method)
    (hno : ∀ id : UInt64, n.value ≠ id.toNat) (hbeyond : n.value ≠ 2 ^ 64) :
    decode method message = .error (.invalidField "id" .notNatural) := by
  have hnone : idOfNumber? n = none := by
    refine Option.eq_none_iff_forall_ne_some.2 fun id hsome => ?_
    rcases idOfNumber?_eq_some_iff_value.1 hsome with hvalue | ⟨hvalue, -⟩
    · exact hno id hvalue
    · exact hbeyond hvalue
  rw [decode, Json.body_eq_ok.2 hbody]
  simp only [bind, Except.bind, decodeId_of_no_id hn hnone]

theorem exists_decode_iff (hbody : message.asObject? = some body)
    (hn : body.get? "id" = some (.number n)) (method : Method) (id : UInt64) :
    (∃ r, decode method message = .ok r ∧ r.id = id) ↔
      n.value = id.toNat ∨ n.value = 2 ^ 64 ∧ id.toNat = 2 ^ 64 - 1 := by
  constructor
  · rintro ⟨r, hr, rfl⟩
    exact (decodeId_eq_ok_iff_value hn).1 ((decode_eq_ok hbody).1 hr).1
  · intro hvalue
    exact ⟨⟨id, method == .commandSuccess, body.present? "result"⟩,
      (decode_eq_ok hbody).2 ⟨(decodeId_eq_ok_iff_value hn).2 hvalue, rfl, rfl⟩, rfl⟩

end Decoding

/-- An answer that names its command by a number is decoded exactly if the number is an id, however
it is written, and then to this very id. The one exception is `2 ^ 64`, which is no id and counts as
the largest. All other numbers, negative ones, fractions and those that are too large, are refused
as not natural. -/
theorem id_is_value {message : Json} {body : Object} (hbody : message.asObject? = some body)
    {n : Number} (hn : body.get? "id" = some (.number n)) (method : Method) :
    (∀ r, decode method message = .ok r ↔
      (n.value = r.id.toNat ∨ n.value = 2 ^ 64 ∧ r.id.toNat = 2 ^ 64 - 1) ∧
        (method == .commandSuccess) = r.success ∧ body.present? "result" = r.result) ∧
    ((∀ id : UInt64, n.value ≠ id.toNat) → n.value ≠ 2 ^ 64 →
      decode method message = .error (.invalidField "id" .notNatural)) ∧
    ((∀ id : UInt64, (∃ r, decode method message = .ok r ∧ r.id = id) ↔ n.value = id.toNat) ↔
      n.value ≠ 2 ^ 64) := by
  refine ⟨fun r => ?_, decode_of_no_id hbody hn method, ?_⟩
  · rw [decode_eq_ok hbody, decodeId_eq_ok_iff_value hn]
  · simp only [exists_decode_iff hbody hn method]
    constructor
    · intro hrule hbeyond
      -- The largest id would have to be equal to the number beyond it.
      have hlast : (UInt64.ofNat (2 ^ 64 - 1)).toNat = 2 ^ 64 - 1 := by decide
      have hvalue := (hrule (UInt64.ofNat (2 ^ 64 - 1))).1 (.inr ⟨hbeyond, hlast⟩)
      rw [hbeyond, hlast] at hvalue
      norm_num at hvalue
    · intro hbeyond id
      exact or_iff_left fun h => hbeyond h.1

/-- A command answered under a number with a point, as some extensions write it. -/
theorem id_is_value_with_point :
    decode .commandFailure
        (.object [("id", .number (.double ⟨false, 1002 * 2 ^ 43, -43, by decide⟩))]) =
          .ok ⟨1002, false, none⟩ ∧
      decode .commandFailure
        (.object [("id", .number (.double ⟨false, 3 * 2 ^ 51, -52, by decide⟩))]) =
          .error (.invalidField "id" .notNatural) := by
  have hwhole : Number.value (.double ⟨false, 1002 * 2 ^ 43, -43, by decide⟩) = 1002 := by
    norm_num [Number.value, Double.value]
  have hhalf : Number.value (.double ⟨false, 3 * 2 ^ 51, -52, by decide⟩) = 3 / 2 := by
    norm_num [Number.value, Double.value]
  constructor
  · exact ((id_is_value rfl rfl .commandFailure).1 _).2 ⟨.inl hwhole, rfl, rfl⟩
  · refine (id_is_value rfl rfl .commandFailure).2.1 (fun id hid => ?_) (by rw [hhalf]; norm_num)
    rw [hhalf, div_eq_iff two_ne_zero] at hid
    have hodd : 3 = id.toNat * 2 := by exact_mod_cast hid
    omega

/-- A number that is too large for an id is taken for one all the same. -/
theorem id_beyond_largest : ¬ ∀ n : Number,
    (∃ r, decode .commandSuccess (.object [("id", .number n)]) = .ok r) ↔
      ∃ k : ℕ, k < 2 ^ 64 ∧ n.value = k := by
  intro hrule
  have hbeyond : Number.value (.double ⟨false, 2 ^ 52, 12, by decide⟩) = 2 ^ 64 := by
    norm_num [Number.value, Double.value]
  obtain ⟨k, hk, hvalue⟩ := (hrule (.double ⟨false, 2 ^ 52, 12, by decide⟩)).1 ⟨_, rfl⟩
  rw [hbeyond] at hvalue
  have heq : 2 ^ 64 = k := by exact_mod_cast hvalue
  omega

end ExtensionHost.CommandResponse
