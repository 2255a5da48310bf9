import ExtensionHost.Collection.SortedMap
import ExtensionHost.Json.Number

namespace ExtensionHost

/-- A JSON value. The fields of an object are those of `SortedMap.ofList`: their order carries no
meaning, and of several fields with one name the last counts. -/
inductive Json where
  | null
  | bool (value : Bool)
  | number (value : Number)
  | string (value : String)
  | array (items : List Json)
  | object (fields : List (String × Json))

abbrev Object := SortedMap String Json

namespace Json

instance : Inhabited Json := ⟨null⟩

mutual
def decideEq : (a b : Json) → Decidable (a = b)
  | .null, .null => isTrue rfl
  | .bool a, .bool b => if h : a = b then isTrue (h ▸ rfl) else isFalse (by simpa using h)
  | .number a, .number b => if h : a = b then isTrue (h ▸ rfl) else isFalse (by simpa using h)
  | .string a, .string b => if h : a = b then isTrue (h ▸ rfl) else isFalse (by simpa using h)
  | .array a, .array b =>
    match decideItemsEq a b with
    | isTrue h => isTrue (h ▸ rfl)
    | isFalse h => isFalse (by simpa using h)
  | .object a, .object b =>
    match decideFieldsEq a b with
    | isTrue h => isTrue (h ▸ rfl)
    | isFalse h => isFalse (by simpa using h)
  | .null, .bool _ | .null, .number _ | .null, .string _ | .null, .array _ | .null, .object _
  | .bool _, .null | .bool _, .number _ | .bool _, .string _ | .bool _, .array _
  | .bool _, .object _
  | .number _, .null | .number _, .bool _ | .number _, .string _ | .number _, .array _
  | .number _, .object _
  | .string _, .null | .string _, .bool _ | .string _, .number _ | .string _, .array _
  | .string _, .object _
  | .array _, .null | .array _, .bool _ | .array _, .number _ | .array _, .string _
  | .array _, .object _
  | .object _, .null | .object _, .bool _ | .object _, .number _ | .object _, .string _
  | .object _, .array _ => isFalse (by simp)

def decideItemsEq : (a b : List Json) → Decidable (a = b)
  | [], [] => isTrue rfl
  | x :: xs, y :: ys =>
    match decideEq x y, decideItemsEq xs ys with
    | isTrue h, isTrue hs => isTrue (by rw [h, hs])
    | isFalse h, _ => isFalse (by simp [h])
    | _, isFalse hs => isFalse (by simp [hs])
  | [], _ :: _ | _ :: _, [] => isFalse (by simp)

def decideFieldsEq : (a b : List (String × Json)) → Decidable (a = b)
  | [], [] => isTrue rfl
  | (k, x) :: xs, (l, y) :: ys =>
    if hk : k = l then
      match decideEq x y, decideFieldsEq xs ys with
      | isTrue h, isTrue hs => isTrue (by rw [h, hs, hk])
      | isFalse h, _ => isFalse (by simp [h])
      | _, isFalse hs => isFalse (by simp [hs])
    else isFalse (by simp [hk])
  | [], _ :: _ | _ :: _, [] => isFalse (by simp)
end

instance : DecidableEq Json := decideEq

def ofObject (o : Object) : Json := .object o.entries

def asObject? : Json → Option Object
  | .object fields => some (.ofList fields)
  | _ => none

def asString? : Json → Option String
  | .string s => some s
  | _ => none

def isNull : Json → Bool
  | .null => true
  | _ => false

def fields (v : Json) : Object := v.asObject?.getD .empty

theorem fields_of_asObject? {v : Json} {o : Object} (h : v.asObject? = some o) : v.fields = o := by
  rw [fields, h]
  rfl

theorem fields_of_asObject?_eq_none {v : Json} (h : v.asObject? = none) : v.fields = .empty := by
  rw [fields, h]
  rfl

theorem asObject?_ofObject (o : Object) : (ofObject o).asObject? = some o := by
  simp [ofObject, asObject?, SortedMap.ofList_entries]

end Json

namespace SortedMap

/-- The value of a field; null stands for an absent one. -/
def present? (o : Object) (field : String) : Option Json :=
  (o.get? field).filter (!·.isNull)

def string? (o : Object) (name : String) : Option String := (o.get? name).bind Json.asString?

def nonemptyString? (o : Object) (name : String) : Option String :=
  (o.string? name).filter (!·.isEmpty)

end SortedMap

end ExtensionHost
