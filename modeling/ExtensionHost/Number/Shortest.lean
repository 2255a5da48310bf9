import ExtensionHost.Number.Binary64

namespace ExtensionHost

def ratioLog10 (num den : Nat) : Int :=
  let estimate := ratioLog2 num den * 30103 / 100000
  let reached := fun p : Int => den * Nat.pow 10 p.toNat ≤ num * Nat.pow 10 (-p).toNat
  if reached (estimate + 1) then estimate + 1
  else if reached estimate then estimate
  else estimate - 1

/-- Removes trailing zeros: `coefficient * 10 ^ exponent` is unchanged and the coefficient, if
positive, is no multiple of ten. -/
def stripZeros (coefficient : Nat) (exponent : Int) : Nat × Int :=
  if h : coefficient % 10 = 0 ∧ 0 < coefficient then stripZeros (coefficient / 10) (exponent + 1)
  else (coefficient, exponent)
termination_by coefficient
decreasing_by omega

namespace Double

/-- The multiple of `10 ^ exponent` nearest to the double among those that read back as the
same double, if there is one; an exact tie goes to the even multiple. Magnitudes are compared in
quarters of the double's unit, where the bounds of the interval that rounds to it are integers. -/
def onDecimalGrid? (d : Double) (exponent : Int) : Option Nat :=
  let quarter := d.exponent - 2
  let step := Nat.pow 10 exponent.toNat * Nat.pow 2 (-quarter).toNat
  let unit := Nat.pow 2 quarter.toNat * Nat.pow 10 (-exponent).toNat
  let value := 4 * d.mantissa * unit
  let least := d.mantissa = 0x10000000000000 ∧ -1074 < d.exponent
  let low := (4 * d.mantissa - if least then 1 else 2) * unit
  let high := (4 * d.mantissa + 2) * unit
  let readsBack := fun c : Nat =>
    if d.mantissa % 2 = 0 then low ≤ c * step ∧ c * step ≤ high
    else low < c * step ∧ c * step < high
  let below := value / step
  let nearer :=
    if 2 * (value % step) < step ∨ (2 * (value % step) = step ∧ below % 2 = 0) then below
    else below + 1
  let farther := if nearer = below then below + 1 else below
  if readsBack nearer then some nearer else if readsBack farther then some farther else none

/-- The fewest decimal digits that read back as the double's magnitude, as a coefficient
without trailing zeros and a power of ten. Seventeen digits always suffice. -/
def shortest (d : Double) : Nat × Int :=
  let top := ratioLog10 d.numerator d.denominator
  let found := (List.range 17).findSome? fun n : Nat =>
    (d.onDecimalGrid? (top - n)).map fun c => (c, top - (n : Int))
  match found with
  | some (c, e) => stripZeros c e
  | none => stripZeros (d.mantissa * Nat.pow 5 (-d.exponent).toNat * Nat.pow 2 d.exponent.toNat)
      (if d.exponent < 0 then d.exponent else 0)

end Double

end ExtensionHost
