import Matador.Lib.SortedMap

/-!
# JSON values and their text

`json` with `str`, which escapes nothing. An object is a `std::map`, here the list of its fields in
ascending order of the keys; a real is given by the text it was read from.
-/

namespace Matador

def llongMin : Int := -2 ^ 63

def llongMax : Int := 2 ^ 63 - 1

/-- `long long`. -/
abbrev LongLong := { i : Int // llongMin ≤ i ∧ i ≤ llongMax }

/-- `json`. -/
inductive Json
  | null
  | integer (i : LongLong)
  | real (text : List Char)
  | boolean (b : Bool)
  | string (s : List Char)
  | object (fields : List (List Char × Json))
  | array (items : List Json)

namespace Json

/-- `std::string`. -/
abbrev Str := List Char

/-! ## Text -/

/-- `std::to_string(long long)`. -/
def integerText : Int → Str
  | .ofNat n => Nat.toDigits 10 n
  | .negSucc n => '-' :: Nat.toDigits 10 (n + 1)

def quoted (s : Str) : Str := '"' :: s ++ ['"']

mutual

def str : Json → Str
  | .object fields => '{' :: joinFields fields ++ ['}']
  | .array items => '[' :: joinItems items ++ [']']
  | .null => ['n', 'u', 'l', 'l']
  | .integer i => integerText i.1
  | .real text => text
  | .string s => quoted s
  | .boolean true => ['t', 'r', 'u', 'e']
  | .boolean false => ['f', 'a', 'l', 's', 'e']

/-- `join` of a map. -/
def joinFields : List (Str × Json) → Str
  | [] => []
  | [(key, value)] => quoted key ++ [':', ' '] ++ value.str
  | (key, value) :: field :: fields =>
    quoted key ++ [':', ' '] ++ value.str ++ [',', ' '] ++ joinFields (field :: fields)

/-- `join` of a vector. -/
def joinItems : List Json → Str
  | [] => []
  | [item] => item.str
  | item :: item' :: items => item.str ++ [',', ' '] ++ joinItems (item' :: items)

end

/-! ## Values without reals -/

mutual

/-- No reals, no string with a NUL, and the fields of each object in ascending order. -/
def Valid : Json → Prop
  | .real _ => False
  | .string s => '\x00' ∉ s
  | .object fields => ValidFields fields
  | .array items => ValidItems items
  | _ => True

def ValidFields : List (Str × Json) → Prop
  | [] => True
  | (key, value) :: fields => '\x00' ∉ key ∧ (∀ f ∈ fields, key < f.1) ∧ value.Valid ∧
      ValidFields fields

def ValidItems : List Json → Prop
  | [] => True
  | item :: items => item.Valid ∧ ValidItems items

end

end Json

end Matador
