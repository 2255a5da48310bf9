import ExtensionHost.Json.Number

namespace ExtensionHost

inductive Token where
  | openArray
  | closeArray
  | openObject
  | closeObject
  | colon
  | comma
  | null
  | bool (value : Bool)
  | number (value : Number)
  | string (value : String)

namespace Token

/-- What the scanner has read of the unit at hand. Collected characters are in reverse. -/
inductive Partial where
  | none
  | word (read : List Char)
  | number (read : List Char)
  | string (read : List Char)
  | escape (read : List Char)
  | code (read : List Char) (high : Option Nat) (digits : Nat) (value : Nat)
  | highSurrogate (read : List Char) (high : Nat)
  | lowSurrogate (read : List Char) (high : Nat)

def isNumberChar (c : Char) : Bool := c.isDigit || c ∈ ['+', '-', '.', 'e', 'E']

def hexValue? (c : Char) : Option Nat :=
  if c.isDigit then some (c.toNat - '0'.toNat)
  else if 'a' ≤ c ∧ c ≤ 'f' then some (c.toNat - 'a'.toNat + 10)
  else if 'A' ≤ c ∧ c ≤ 'F' then some (c.toNat - 'A'.toNat + 10)
  else none

def ofWord? (read : List Char) : Option Token :=
  if read.reverse = "null".toList then some .null
  else if read.reverse = "true".toList then some (.bool true)
  else if read.reverse = "false".toList then some (.bool false)
  else none

/-- The start of a unit, or one of the four characters between units. -/
def start (c : Char) : Option (Partial × List Token) :=
  if c = ' ' ∨ c = '\t' ∨ c = '\n' ∨ c = '\r' then some (.none, [])
  else if c = '[' then some (.none, [openArray])
  else if c = ']' then some (.none, [closeArray])
  else if c = '\x7b' then some (.none, [openObject])
  else if c = '\x7d' then some (.none, [closeObject])
  else if c = ':' then some (.none, [colon])
  else if c = ',' then some (.none, [comma])
  else if c = '"' then some (.string [], [])
  else if c.isDigit || c = '-' then some (.number [c], [])
  else if c.isLower then some (.word [c], [])
  else none

def escaped? (c : Char) : Option Char :=
  if c = '"' ∨ c = '\\' ∨ c = '/' then some c
  else if c = 'b' then some (Char.ofNat 8)
  else if c = 'f' then some (Char.ofNat 12)
  else if c = 'n' then some '\n'
  else if c = 'r' then some '\r'
  else if c = 't' then some '\t'
  else none

/-- A complete `\u` escape. Surrogates have to come in pairs, the high one first. -/
def ofCode? (read : List Char) (high : Option Nat) (code : Nat) : Option Partial :=
  let isLow := 0xDC00 ≤ code && code ≤ 0xDFFF
  match high with
  | some h =>
    if isLow then
      some (.string (Char.ofNat (0x10000 + (h - 0xD800) * 0x400 + (code - 0xDC00)) :: read))
    else Option.none
  | Option.none =>
    if isLow then Option.none
    else if 0xD800 ≤ code && code ≤ 0xDBFF then some (.highSurrogate read code)
    else some (.string (Char.ofNat code :: read))

/-- The unit at hand after one more character, and the units that this character completes. -/
def step (p : Partial) (c : Char) : Option (Partial × List Token) :=
  match p with
  | .none => start c
  | .word read =>
    if c.isLower then some (.word (c :: read), [])
    else (ofWord? read).bind fun t => (start c).map fun (p, ts) => (p, t :: ts)
  | .number read =>
    if isNumberChar c then some (.number (c :: read), [])
    else (Number.ofText? read.reverse).bind fun n =>
      (start c).map fun (p, ts) => (p, .number n :: ts)
  | .string read =>
    if c = '"' then some (.none, [.string (String.ofList read.reverse)])
    else if c = '\\' then some (.escape read, [])
    else if c.toNat < 0x20 then Option.none
    else some (.string (c :: read), [])
  | .escape read =>
    if c = 'u' then some (.code read Option.none 0 0, [])
    else (escaped? c).map fun d => (.string (d :: read), [])
  | .code read high digits value =>
    (hexValue? c).bind fun d =>
      let value := 16 * value + d
      if digits = 3 then (ofCode? read high value).map fun p => (p, [])
      else some (.code read high (digits + 1) value, [])
  | .highSurrogate read high => if c = '\\' then some (.lowSurrogate read high, []) else Option.none
  | .lowSurrogate read high =>
    if c = 'u' then some (.code read (some high) 0 0, []) else Option.none

def scanFrom (p : Partial) : List Char → Option (List Token)
  | [] =>
    match p with
    | .none => some []
    | .word read => (ofWord? read).map ([·])
    | .number read => (Number.ofText? read.reverse).map ([.number ·])
    | _ => Option.none
  | c :: rest => (step p c).bind fun (p, ts) => (scanFrom p rest).map (ts ++ ·)

def scan (text : String) : Option (List Token) := scanFrom .none text.toList

end Token

end ExtensionHost
