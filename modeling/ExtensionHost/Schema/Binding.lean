import ExtensionHost.Json.Compact
import ExtensionHost.Number.DecimalText

namespace ExtensionHost

def truthy : Json → Bool
  | .null => false
  | .bool b => b
  | .number n => !n.toBinary64.isZero
  | .string s => !s.isEmpty
  | .array _ | .object _ => true

inductive Binding where
  | any
  | array
  | boolean
  | color
  | component
  | dimension
  | absoluteDimension
  | relativeDimension
  | integer
  | map
  | number
  | object
  | string
  | styledText
  deriving DecidableEq

namespace Binding

def all : List Binding :=
  [any, array, boolean, color, component, dimension, absoluteDimension, relativeDimension,
    integer, map, number, object, string, styledText]

def name : Binding → String
  | any => "any"
  | array => "array"
  | boolean => "boolean"
  | color => "color"
  | component => "component"
  | dimension => "dimension"
  | absoluteDimension => "absoluteDimension"
  | relativeDimension => "relativeDimension"
  | integer => "integer"
  | map => "map"
  | number => "number"
  | object => "object"
  | string => "string"
  | styledText => "styledText"

def ofName? (s : String) : Option Binding := all.find? (·.name == s)

/-- The numeric reading of a value: numbers, decimal text with blanks around it, and booleans as
one and zero. -/
def numeric? : Json → Option Binary64
  | .number n => some n.toBinary64
  | .string s => Binary64.ofText? (Text.trim s.toList)
  | .bool b => some (.ofInt (if b then 1 else 0))
  | _ => none

/-- Always a double, except for what has no finite numeric reading, which becomes the integer
zero. -/
def toNumber (v : Json) : Number :=
  match numeric? v with
  | some (.finite d) => .double d
  | _ => .zero

def toInteger (v : Json) : Number :=
  match numeric? v with
  | some b => .integer b.toSigned (by have := b.toSigned_mem; omega)
  | none => .zero

/-- Numbers and strings are dimensions, everything else gives the default. -/
def toDimension (default : Json) : Json → Json
  | .number n => .number n
  | .string s => .string s
  | _ => default

def toText : Json → String
  | .null => ""
  | .string s => s
  | v => v.compact

def toItems : Json → List Json
  | .array items => items
  | .null => []
  | v => [v]

/-- Brings a declared default into the domain of the binding. An absent default is null and gives
the zero value of the binding. -/
def coerce (b : Binding) (v : Json) : Json :=
  match b with
  | any | object | component => v
  | boolean => .bool (truthy v)
  | number => .number (toNumber v)
  | integer => .number (toInteger v)
  | string | styledText => .string (toText v)
  | array => .array (toItems v)
  | map =>
    match v with
    | .object fields => .object fields
    | _ => .object []
  | color =>
    match v with
    | .string s => .string s
    | _ => .string "#00000000"
  | dimension => toDimension (.string "auto") v
  | absoluteDimension => toDimension (.number .zero) v
  | relativeDimension => toDimension (.string "0%") v

end Binding

end ExtensionHost
