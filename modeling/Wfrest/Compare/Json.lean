import Wfrest.Base.Bytes
import Wfrest.CJson.Strtod
import Wfrest.Lib.OrdMap

/-!
# JSON values

The file comparer handles two JSON libraries: it reads requests with `cJSON` and
writes answers with `wfrest::Json`. What is here is the tree that `cJSON_Parse` delivers
(`CJson`), and the value that the handlers build (`Json`), whose parser is left out.
-/

namespace Wfrest

/-! ### `wfrest::Json` -/

/-- A `wfrest::Json` value. The fields of an object stand in the order of a
`std::map<std::string, Json>`. The handlers store integers; a request may hold other
numbers, which stand here with their text. -/
inductive Json where
  | null
  | bool (b : Bool)
  | num (n : Int)
  | real (text : Bytes)
  | str (s : Bytes)
  | arr (js : List Json)
  | obj (fields : List (Bytes × Json))

namespace Json

/-- The fields of an object. -/
def fields : Json → List (Bytes × Json)
  | obj fs => fs
  | _ => []

/-- `json[key] = value` on a null value or an object. -/
def set (j : Json) (key : String) (value : Json) : Json :=
  obj (OrdMap.set (ascii key) value j.fields)

/-- `json.find(key)` -/
def get? (j : Json) (key : String) : Option Json := OrdMap.get? (ascii key) j.fields

theorem get?_set (j value : Json) (key key' : String) :
    (j.set key value).get? key' =
      if ascii key' = ascii key then some value else j.get? key' := by
  change OrdMap.get? (ascii key') (OrdMap.set (ascii key) value j.fields) = _
  rw [OrdMap.get?_set]
  by_cases h : ascii key' = ascii key
  · rw [if_pos h, if_pos h]
  · rw [if_neg h, if_neg h]
    rfl

@[simp] theorem get?_set_self (j value : Json) (key : String) :
    (j.set key value).get? key = some value := by
  rw [get?_set, if_pos rfl]

theorem get?_set_of_ne {j value : Json} {key key' : String} (h : ascii key' ≠ ascii key) :
    (j.set key value).get? key' = j.get? key' := by
  rw [get?_set, if_neg h]

/-- The second of two writes to a member stays. -/
theorem set_set (j x y : Json) (key : String) : (j.set key x).set key y = j.set key y :=
  congrArg obj (OrdMap.set_set (ascii key) x y j.fields)

/-- What a range-based `for` visits. A scalar is visited itself. -/
def items : Json → List Json
  | null => []
  | arr js => js
  | obj fs => fs.map Prod.snd
  | j => [j]

/-- `json.push_back(value)` on a null value or an array. -/
def pushBack (j value : Json) : Json := arr (j.items ++ [value])

@[simp] theorem items_pushBack (j value : Json) : (j.pushBack value).items = j.items ++ [value] :=
  rfl

end Json

/-! ### `cJSON` -/

/-- A tree that `cJSON_Parse` delivers, with the members the readers look at. -/
inductive CJson where
  | null
  | false
  | true
  | number (valueint : Int) (valuedouble : Double)
  | string (valuestring : Bytes)
  | array (items : List CJson)
  | object (items : List (Bytes × CJson))

namespace CJson

/-- `cJSON_GetObjectItem`: the first item whose name is `name` up to case. The
items of an array have no name, and a scalar has no items. -/
def getObjectItem (j : CJson) (name : String) : Option CJson :=
  match j with
  | object items =>
    (items.find? fun e => e.1.map tolower = (ascii name).map tolower).map Prod.snd
  | _ => none

end CJson

end Wfrest
