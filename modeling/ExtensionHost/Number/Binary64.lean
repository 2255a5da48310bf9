namespace ExtensionHost

/-- The pairs that stand for a finite double: 53 bits of mantissa whose leading bit is set,
unless the exponent is already the least one. -/
def Double.Canonical (mantissa : Nat) (exponent : Int) : Prop :=
  mantissa < 0x20000000000000 ∧ -1074 ≤ exponent ∧ exponent ≤ 971 ∧
    (0x10000000000000 ≤ mantissa ∨ exponent = -1074)

instance (mantissa : Nat) (exponent : Int) : Decidable (Double.Canonical mantissa exponent) :=
  inferInstanceAs (Decidable (_ ∧ _))

/-- A finite binary64 number, `± mantissa * 2 ^ exponent`. Both signs of zero are numbers. -/
structure Double where
  negative : Bool
  mantissa : Nat
  exponent : Int
  canonical : Double.Canonical mantissa exponent
  deriving DecidableEq

/-- A binary64 number as arithmetic and decimal text may produce it. -/
inductive Binary64 where
  | finite (value : Double)
  | infinity (negative : Bool)
  | nan
  deriving DecidableEq

namespace Double

def zero (negative : Bool) : Double := ⟨negative, 0, -1074, by decide⟩

def neg (d : Double) : Double := { d with negative := !d.negative }

def isZero (d : Double) : Bool := d.mantissa == 0

/-- With `denominator`, the magnitude as an exact ratio. -/
def numerator (d : Double) : Nat := d.mantissa * Nat.pow 2 d.exponent.toNat

def denominator (d : Double) : Nat := Nat.pow 2 (-d.exponent).toNat

def isIntegral (d : Double) : Bool := d.numerator % d.denominator == 0

def trunc (d : Double) : Int :=
  if d.negative then -((d.numerator / d.denominator : Nat) : Int)
  else ((d.numerator / d.denominator : Nat) : Int)

end Double

/-- The floor of the binary logarithm of a positive ratio. -/
def ratioLog2 (num den : Nat) : Int :=
  let k : Int := (num.log2 : Int) - den.log2
  if den * Nat.pow 2 k.toNat ≤ num * Nat.pow 2 (-k).toNat then k else k - 1

/-- The integer nearest to a ratio; of two equally near the even one. -/
def nearestEven (num den : Nat) : Nat :=
  let q := num / den
  let r := num % den
  if 2 * r < den then q else if den < 2 * r then q + 1 else q + q % 2

namespace Binary64

/-- The double nearest to a ratio, ties to the even mantissa. Beyond the largest double the
result is infinite. -/
def ofRatio (negative : Bool) (num den : Nat) : Binary64 :=
  if num = 0 then .finite (.zero negative)
  else
    let e := max (-1074) (ratioLog2 num den - 52)
    let m := nearestEven (num * Nat.pow 2 (-e).toNat) (den * Nat.pow 2 e.toNat)
    if h : Double.Canonical m e then .finite ⟨negative, m, e, h⟩
    else if h : Double.Canonical 0x10000000000000 (e + 1) then
      .finite ⟨negative, 0x10000000000000, e + 1, h⟩
    else .infinity negative

def ofInt (n : Int) : Binary64 := ofRatio (n < 0) n.natAbs 1

def mul (a b : Double) : Binary64 :=
  ofRatio (a.negative != b.negative) (a.numerator * b.numerator) (a.denominator * b.denominator)

def div (a b : Double) : Binary64 :=
  ofRatio (a.negative != b.negative) (a.numerator * b.denominator) (a.denominator * b.numerator)

/-- The integer part, brought into the range of a signed 64-bit word; what is no number counts as
zero. -/
def toSigned : Binary64 → Int
  | .finite d => max (-0x8000000000000000) (min 0x7fffffffffffffff d.trunc)
  | .infinity negative => if negative then -0x8000000000000000 else 0x7fffffffffffffff
  | .nan => 0

theorem toSigned_mem (b : Binary64) :
    -0x8000000000000000 ≤ b.toSigned ∧ b.toSigned < 0x8000000000000000 := by
  unfold toSigned
  split
  · omega
  · split <;> decide
  · decide

def isZero : Binary64 → Bool
  | .finite d => d.isZero
  | _ => false

/-- The nearest double to `± coefficient * 10 ^ exponent`. Magnitudes far outside the range of
doubles are settled without computing the power. -/
def ofDecimal (negative : Bool) (coefficient : Nat) (exponent : Int) : Binary64 :=
  let order : Int := (Nat.toDigits 10 coefficient).length + exponent
  if coefficient = 0 ∨ order < -400 then .finite (.zero negative)
  else if 400 < order then .infinity negative
  else ofRatio negative (coefficient * Nat.pow 10 exponent.toNat) (Nat.pow 10 (-exponent).toNat)

end Binary64

end ExtensionHost
