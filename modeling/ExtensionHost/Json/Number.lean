import ExtensionHost.Number.Shortest
import ExtensionHost.Text.Blank

namespace ExtensionHost

/-- A number as JSON text carries it. An integer and the double of the same value are different
numbers, as they are written differently. -/
inductive Number where
  | integer (value : Int) (inRange : -0x8000000000000000 ≤ value ∧ value < 0x10000000000000000)
  | double (value : Double)
  deriving DecidableEq

namespace Number

def ofInt? (n : Int) : Option Number :=
  if h : -0x8000000000000000 ≤ n ∧ n < 0x10000000000000000 then some (.integer n h) else none

def zero : Number := .integer 0 (by decide)

def ofUInt64 (n : UInt64) : Number :=
  .integer n.toNat (by have := n.toNat_lt; omega)

def toBinary64 : Number → Binary64
  | .integer n _ => .ofInt n
  | .double d => .finite d

/-- The value if it is written as an unsigned integer. -/
def toUInt64? : Number → Option UInt64
  | .integer n _ => if 0 ≤ n then some (UInt64.ofNat n.toNat) else none
  | .double _ => none

def toSigned? : Number → Option Int
  | .integer n _ => if n < 0x8000000000000000 then some n else none
  | .double _ => none

def toClampedInt (n : Number) : Int :=
  n.toSigned?.getD n.toBinary64.toSigned

/-- Takes up digits as long as the number they form fits in 64 bits and returns it with the
digits that are left over. -/
def takeDigits (significand : Nat) : List Char → Nat × List Char
  | [] => (significand, [])
  | c :: rest =>
    let next := 10 * significand + (c.toNat - '0'.toNat)
    if next < 0x10000000000000000 then takeDigits next rest else (significand, c :: rest)

def powerOfTen (k : Nat) : Binary64 := .ofRatio false (Nat.pow 10 k) 1

def finite? : Binary64 → Option Double
  | .finite d => some d
  | _ => none

def divideByPower (k : Nat) (f : Double) : Option Double :=
  (finite? (powerOfTen k)).bind fun p => finite? (Binary64.div f p)

def divideRepeatedly : Nat → Double → Option Double
  | 0, f => some f
  | n + 1, f => if f.isZero then some f else (divideByPower 308 f).bind (divideRepeatedly n)

/-- Divides by a power of ten; what exceeds `10 ^ 308` is divided out first. -/
def scaleDown (k : Nat) (f : Double) : Option Double :=
  let n := (k - 1) / 308
  (divideRepeatedly n f).bind (divideByPower (k - 308 * n))

def scaleUp (k : Nat) (f : Double) : Option Double :=
  if f.isZero then some f
  else if 308 < k then none
  else (finite? (powerOfTen k)).bind fun p => finite? (Binary64.mul f p)

/-- `± significand * 10 ^ exponent`: the significand is rounded to a double first and the scaling
rounds again, so long decimals may come out next to the nearest double. -/
def ofScaled? (negative : Bool) (significand : Nat) (exponent : Int) : Option Number :=
  (finite? (.ofInt significand)).bind fun f =>
    (if exponent < 0 then scaleDown (-exponent).toNat f else scaleUp exponent.toNat f).map fun d =>
      .double (if negative then d.neg else d)

/-- Integers keep their value if it fits in 64 bits; minus zero is a double. -/
def ofDigits? (negative : Bool) (significand : Nat) : Option Number :=
  if negative then
    if significand = 0 ∨ 0x8000000000000000 < significand then ofScaled? true significand 0
    else ofInt? (-significand)
  else ofInt? significand

def ofParts? (negative : Bool) (whole : List Char) (fraction : Option (List Char))
    (exponent : Option Int) : Option Number :=
  let (significand, left) := takeDigits 0 whole
  match fraction, exponent, left with
  | none, none, [] => ofDigits? negative significand
  | _, _, _ =>
    let (significand, dropped) := takeDigits significand (fraction.getD [])
    let places : Int := (fraction.getD []).length - dropped.length
    ofScaled? negative significand (left.length - places + exponent.getD 0)

def fractionOfText? : List Char → Option (Option (List Char) × List Char)
  | '.' :: rest =>
    let digits := rest.takeWhile Char.isDigit
    if digits = [] then none else some (some digits, rest.dropWhile Char.isDigit)
  | rest => some (none, rest)

def exponentOfText? : List Char → Option (Option Int)
  | [] => some none
  | c :: rest =>
    if c = 'e' ∨ c = 'E' then
      let (negative, digits) := match rest with
        | '-' :: r => (true, r)
        | '+' :: r => (false, r)
        | r => (false, r)
      if digits ≠ [] ∧ digits.all Char.isDigit then
        let n : Int := Text.decimalValue digits
        some (some (if negative then -n else n))
      else none
    else none

/-- Reads the text of a JSON number: no plus sign and no leading zeros. A number beyond the
largest double is refused. -/
def ofText? (text : List Char) : Option Number :=
  let (negative, magnitude) := match text with
    | '-' :: r => (true, r)
    | r => (false, r)
  let whole := magnitude.takeWhile Char.isDigit
  if whole = [] ∨ (whole.head? = some '0' ∧ 1 < whole.length) then none
  else
    match fractionOfText? (magnitude.dropWhile Char.isDigit) with
    | none => none
    | some (fraction, rest) =>
      match exponentOfText? rest with
      | none => none
      | some exponent => ofParts? negative whole fraction exponent

/-- The text of a double: its shortest digits, in plain notation from `10 ^ -5` up to `10 ^ 16`
and with an exponent and its sign elsewhere. It never looks like an integer. -/
def doubleText (d : Double) : String :=
  let sign := if d.negative then "-" else ""
  if d.isZero then sign ++ "0.0"
  else
    let (coefficient, exponent) := d.shortest
    let digits := Nat.toDigits 10 coefficient
    let top : Int := exponent + digits.length - 1
    let text :=
      if -5 ≤ top ∧ top < 0 then
        "0." ++ String.ofList (List.replicate (-top - 1).toNat '0' ++ digits)
      else if 0 ≤ top ∧ top < 16 then
        if 0 ≤ exponent then String.ofList (digits ++ List.replicate exponent.toNat '0') ++ ".0"
        else
          let whole := (top + 1).toNat
          String.ofList (digits.take whole) ++ "." ++ String.ofList (digits.drop whole)
      else
        let fraction := if digits.length = 1 then "" else "." ++ String.ofList (digits.drop 1)
        String.ofList (digits.take 1) ++ fraction ++ "e" ++ (if top < 0 then "-" else "+") ++
          top.natAbs.repr
    sign ++ text

def text : Number → String
  | .integer n _ => toString n
  | .double d => doubleText d

end Number

end ExtensionHost
