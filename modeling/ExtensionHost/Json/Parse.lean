import ExtensionHost.Json.Basic
import ExtensionHost.Json.Token

namespace ExtensionHost.Json

/-- An array or object that is being read, with what it holds so far in reverse order. -/
inductive Frame where
  | array (items : List Json)
  | object (fields : List (String × Json)) (name : String)

def maxDepth : Nat := 127

mutual
def parseValue (outer : List Frame) : List Token → Option Json
  | .null :: rest => parseNext .null outer rest
  | .bool b :: rest => parseNext (.bool b) outer rest
  | .number n :: rest => parseNext (.number n) outer rest
  | .string s :: rest => parseNext (.string s) outer rest
  | .openArray :: rest =>
    if maxDepth ≤ outer.length then none
    else
      match rest with
      | .closeArray :: rest => parseNext (.array []) outer rest
      | rest => parseValue (.array [] :: outer) rest
  | .openObject :: rest =>
    if maxDepth ≤ outer.length then none
    else
      match rest with
      | .closeObject :: rest => parseNext (.object []) outer rest
      | .string name :: .colon :: rest => parseValue (.object [] name :: outer) rest
      | _ => none
  | _ => none

/-- Goes on after a complete value: it is the whole text, or it belongs to the innermost
container, which goes on or ends. -/
def parseNext (v : Json) (outer : List Frame) : List Token → Option Json
  | [] => if outer.isEmpty then some v else none
  | .comma :: rest =>
    match outer with
    | .array items :: outer => parseValue (.array (v :: items) :: outer) rest
    | .object fields name :: outer =>
      match rest with
      | .string next :: .colon :: rest =>
        parseValue (.object ((name, v) :: fields) next :: outer) rest
      | _ => none
    | [] => none
  | .closeArray :: rest =>
    match outer with
    | .array items :: outer => parseNext (.array (v :: items).reverse) outer rest
    | _ => none
  | .closeObject :: rest =>
    match outer with
    | .object fields name :: outer =>
      parseNext (ofObject (.ofList ((name, v) :: fields).reverse)) outer rest
    | _ => none
  | _ :: _ => none
end

def parse? (text : String) : Option Json := (Token.scan text).bind (parseValue [])

end ExtensionHost.Json
