import ExtensionHost.Proofs.Number.Integers
import ExtensionHost.Schema.Types

namespace ExtensionHost

theorem Double.short_trunc (d : Double) : Short d.trunc := by
  have hmantissa := d.canonical.1
  have hquotient : ∃ c k : ℕ, c < 2 ^ 53 ∧ d.numerator / d.denominator = c * 2 ^ k := by
    rcases le_total 0 d.exponent with he | he
    · refine ⟨d.mantissa, d.exponent.toNat, by omega, ?_⟩
      have hone : d.denominator = 1 := by simp [denominator, Int.toNat_of_nonpos (neg_nonpos.2 he)]
      rw [hone, Nat.div_one]
      rfl
    · have hwhole : d.numerator = d.mantissa := by simp [numerator, Int.toNat_of_nonpos he]
      refine ⟨d.mantissa / d.denominator, 0, ?_, by rw [hwhole, pow_zero, mul_one]⟩
      exact (Nat.div_le_self ..).trans_lt (by omega)
  obtain ⟨c, k, hc, hvalue⟩ := hquotient
  unfold trunc
  rw [hvalue]
  split
  · exact ⟨-c, k, by omega, by push_cast; ring⟩
  · exact ⟨c, k, by omega, by push_cast; rfl⟩

theorem Binary64.short_toSigned (b : Binary64) : b.toSigned = 2 ^ 63 - 1 ∨ Short b.toSigned := by
  have hleast : Short (-2 ^ 63) := ⟨-1, 63, by decide, rfl⟩
  unfold toSigned
  split
  · rename_i d
    rcases le_total d.trunc (-2 ^ 63) with hlow | hlow
    · right
      convert hleast using 1
      omega
    · rcases le_total d.trunc (2 ^ 63 - 1) with hhigh | hhigh
      · right
        convert d.short_trunc using 1
        omega
      · left
        omega
  · split
    · exact .inr hleast
    · exact .inl rfl
  · exact .inr ⟨0, 0, by decide, rfl⟩

theorem Number.exists_toBinary64 (n : Number) : ∃ d, n.toBinary64 = .finite d := by
  cases n with
  | integer n h =>
    obtain ⟨d, hd, -⟩ := Binary64.exists_nearest_ofInt (n := n) (by omega)
    exact ⟨d, hd⟩
  | double d => exact ⟨d, rfl⟩

namespace Binding

/-- The values that stand for a finite number. -/
def IsNumeric : Json → Prop
  | .number _ | .bool _ => True
  | .string s => ∃ d, Binary64.ofText? (Text.trim s.toList) = some (.finite d)
  | .null | .array _ | .object _ => False

theorem isNumeric_iff {v : Json} : IsNumeric v ↔ ∃ d, numeric? v = some (.finite d) := by
  cases v with
  | number n =>
    obtain ⟨d, hd⟩ := n.exists_toBinary64
    simp [IsNumeric, numeric?, hd]
  | bool b =>
    obtain ⟨d, hd⟩ := (Number.integer (if b then 1 else 0) (by split <;> decide)).exists_toBinary64
    have hd : Binary64.ofInt (if b then 1 else 0) = .finite d := hd
    simp [IsNumeric, numeric?, hd]
  | string s => rfl
  | null | array | object => simp [IsNumeric, numeric?]

/-- Integers are coerced by way of the nearest double. -/
theorem toInteger_integer {n : ℤ} (h) (hsigned : n < 2 ^ 63) :
    ∃ (d : Double) (m : ℤ) (hm : _), toInteger (.number (.integer n h)) = .integer m hm ∧
      d.Nearest n ∧ (m : ℚ) = min d.value (2 ^ 63 - 1) ∧ (m = n ↔ n = 2 ^ 63 - 1 ∨ Short n) := by
  obtain ⟨d, hd, hnearest⟩ := Binary64.exists_nearest_ofInt (n := n) (by omega)
  have hlow : -2 ^ 63 ≤ n := by omega
  refine ⟨d, (Binary64.finite d).toSigned, ?_, ?_, hnearest, hnearest.toSigned_eq hlow hsigned,
    hnearest.toSigned_eq_iff hlow hsigned⟩
  · have hmem := (Binary64.finite d).toSigned_mem
    omega
  · simp only [toInteger, numeric?, Number.toBinary64, hd]

theorem toInteger_toInteger (v : Json) : toInteger (.number (toInteger v)) = toInteger v := by
  have hinteger : ∃ (n : ℤ) (h : _), toInteger v = .integer n h ∧ n < 2 ^ 63 ∧
      (n = 2 ^ 63 - 1 ∨ Short n) := by
    unfold toInteger
    split
    · rename_i b _
      have hmem := b.toSigned_mem
      exact ⟨b.toSigned, by omega, rfl, hmem.2, b.short_toSigned⟩
    · exact ⟨0, by decide, rfl, by decide, .inr ⟨0, 0, by decide, rfl⟩⟩
  obtain ⟨n, h, hn, hsigned, hfixed⟩ := hinteger
  obtain ⟨d, m, hm, hcoerced, -, -, hiff⟩ := toInteger_integer h hsigned
  obtain rfl := hiff.2 hfixed
  rw [hn, hcoerced]

theorem toNumber_of_numeric {v : Json} (h : IsNumeric v) : ∃ d, toNumber v = .double d := by
  obtain ⟨d, hd⟩ := isNumeric_iff.1 h
  exact ⟨d, by simp only [toNumber, hd]⟩

theorem toNumber_of_not_numeric {v : Json} (h : ¬ IsNumeric v) : toNumber v = .zero := by
  unfold toNumber
  split
  · rename_i d hd
    exact (h (isNumeric_iff.2 ⟨d, hd⟩)).elim
  · rfl

theorem toDimension_toDimension {default : Json} (h : toDimension default default = default)
    (v : Json) : toDimension default (toDimension default v) = toDimension default v := by
  cases v with
  | number | string => rfl
  | null | bool | array | object => exact h

theorem coerce_coerce_of_ne_number {b : Binding} (hb : b ≠ .number) (v : Json) :
    b.coerce (b.coerce v) = b.coerce v := by
  cases b with
  | number => exact (hb rfl).elim
  | any | object | component | boolean | string | styledText | array => rfl
  | integer => exact congrArg Json.number (toInteger_toInteger v)
  | map | color => cases v <;> rfl
  | dimension | absoluteDimension | relativeDimension => exact toDimension_toDimension rfl v

theorem coerce_number_of_numeric {v : Json} (h : IsNumeric v) :
    Binding.number.coerce (Binding.number.coerce v) = Binding.number.coerce v := by
  obtain ⟨d, hd⟩ := toNumber_of_numeric h
  have hv : Binding.number.coerce v = .number (.double d) := congrArg Json.number hd
  rw [hv]
  rfl

theorem coerce_number_of_not_numeric {v : Json} (h : ¬ IsNumeric v) :
    Binding.number.coerce v = .number .zero ∧
      Binding.number.coerce (Binding.number.coerce v) = .number (.double (.zero false)) := by
  have hv : Binding.number.coerce v = .number .zero :=
    congrArg Json.number (toNumber_of_not_numeric h)
  rw [hv]
  exact ⟨rfl, rfl⟩

/-- Coercing a value again changes nothing, unless the binding is of numbers and the value stands
for none. Such a value is coerced to the integer zero first and to the double zero then. After that
nothing changes any more. -/
theorem coerce_settles (b : Binding) (v : Json) :
    (b.coerce (b.coerce v) = b.coerce v ↔ (b = .number → IsNumeric v)) ∧
    (¬ IsNumeric v → Binding.number.coerce v = .number .zero ∧
      Binding.number.coerce (Binding.number.coerce v) = .number (.double (.zero false))) ∧
    b.coerce (b.coerce (b.coerce v)) = b.coerce (b.coerce v) := by
  refine ⟨?_, coerce_number_of_not_numeric, ?_⟩
  · constructor
    · rintro hsame rfl
      by_contra hno
      obtain ⟨hfirst, hagain⟩ := coerce_number_of_not_numeric hno
      rw [hagain, hfirst] at hsame
      cases hsame
    · intro hnumeric
      by_cases hb : b = .number
      · obtain rfl := hb
        exact coerce_number_of_numeric (hnumeric rfl)
      · exact coerce_coerce_of_ne_number hb v
  · by_cases hb : b = .number
    · -- What the first coercion of a number leaves is one.
      obtain rfl := hb
      exact coerce_number_of_numeric trivial
    · exact coerce_coerce_of_ne_number hb _

/-- The zero of a missing number is no double, but coercing it makes it one. -/
theorem missing_number_changes : ¬ ∀ (b : Binding) (v : Json),
    b.coerce (b.coerce v) = b.coerce v := by
  intro hsame
  have hzero := hsame .number .null
  rw [(coerce_number_of_not_numeric (v := .null) id).2] at hzero
  cases hzero

end Binding

namespace Property

def integerDefinition (default : Number) : Json :=
  .object [("type", .string "integer"), ("default", .number default)]

/-- The default of an integer property, if it is an integer of 64 bits with a sign, is rounded to
the nearest double, and what is one too large then is cut off. So the default is read as it is
exactly if it is short or the largest integer. -/
theorem integer_default_rounded {definition : Json} {n : ℤ} {h}
    (htype : definition.fields.string? "type" = some "integer")
    (hdefault : definition.fields.get? "default" = some (.number (.integer n h)))
    (hsigned : n < 2 ^ 63) :
    ∃ (d : Double) (m : ℤ) (hm : _),
      read? definition = some ⟨.integer, .number (.integer m hm),
        definition.fields.flag "required" false⟩ ∧
      Binding.integer.coerce (.number (.integer n h)) = .number (.integer m hm) ∧
      d.Nearest n ∧ (m : ℚ) = min d.value (2 ^ 63 - 1) ∧ (m = n ↔ n = 2 ^ 63 - 1 ∨ Short n) := by
  obtain ⟨d, m, hm, hcoerced, hnearest, hmin, hiff⟩ := Binding.toInteger_integer h hsigned
  have hcoerced : Binding.integer.coerce (.number (.integer n h)) = .number (.integer m hm) :=
    congrArg Json.number hcoerced
  refine ⟨d, m, hm, ?_, hcoerced, hnearest, hmin, hiff⟩
  have hcontains : definition.fields.contains "type" := by
    obtain ⟨v, hv, -⟩ := Option.bind_eq_some_iff.1 htype
    rw [SortedMap.contains, hv]
    rfl
  have hname : Binding.ofName? "integer" = some .integer := by decide
  unfold read?
  split
  · cases hdefault
  · simp only [hcontains, if_true, htype, hdefault, Option.bind_some, hname, Option.getD_some,
      declared, hcoerced]

/-- The largest integer is rounded to one too large and comes back. -/
theorem integer_default_rounded_largest :
    read? (integerDefinition (.integer (2 ^ 63 - 1) (by decide))) =
      some ⟨.integer, .number (.integer (2 ^ 63 - 1) (by decide)), false⟩ := by
  have hdefault : (integerDefinition (.integer (2 ^ 63 - 1) (by decide))).fields.get? "default" =
      some (.number (.integer (2 ^ 63 - 1) (by decide))) := by rfl
  obtain ⟨d, m, hm, hread, -, -, -, hiff⟩ := integer_default_rounded rfl hdefault (by decide)
  obtain rfl := hiff.2 (.inl rfl)
  exact hread

/-- The first integer that is not short is read as the one before it. -/
theorem integer_default_changed :
    read? (integerDefinition (.integer (2 ^ 53 + 1) (by decide))) =
      some ⟨.integer, .number (.integer (2 ^ 53) (by decide)), false⟩ := by
  rfl

end Property

end ExtensionHost
