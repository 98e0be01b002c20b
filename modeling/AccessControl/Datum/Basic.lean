import AccessControl.Datum.Scalar

/-!
# Data of a request

The values that a caller hands over before anything is known about them: single
values, lists and records. Only single values can be members of a set or keys of
a map.

* `Datum.isTrue`: which data count as true;
* `Datum.same`: which data are the same, as truth values are the same as numbers;
* `Datum.literal`: how data are shown in a message.
-/

namespace AccessControl

/-- A value of any kind. -/
inductive Datum
  | scalar (s : Scalar)
  | list (items : List Datum)
  | record (fields : List (String × Datum))
  deriving Inhabited

namespace Datum

/-- No value. -/
abbrev null : Datum := scalar .null

/-- A text. -/
abbrev text (s : String) : Datum := scalar (.text s)

/-- Empty data, zero and no value are false, everything else is true. -/
def isTrue : Datum → Bool
  | scalar .null => false
  | scalar (.bool b) => b
  | scalar (.int i) => i != 0
  | scalar (.text s) => !s.isEmpty
  | list items => !items.isEmpty
  | record fields => !fields.isEmpty

/-- The members of a list, or the fields of a record, between commas. -/
def commaSeparated (parts : List String) : String := String.intercalate ", " parts

mutual

/-- A value as a literal. -/
def literal : Datum → String
  | scalar s => s.literal
  | list items => "[" ++ commaSeparated (literals items) ++ "]"
  | record fields => "\x7b" ++ commaSeparated (fieldLiterals fields) ++ "\x7d"

/-- The members of a list as literals. -/
def literals : List Datum → List String
  | [] => []
  | d :: ds => d.literal :: literals ds

/-- The fields of a record as literals. -/
def fieldLiterals : List (String × Datum) → List String
  | [] => []
  | (name, d) :: fields => (Text.quote name ++ ": " ++ d.literal) :: fieldLiterals fields

end

mutual

/-- Whether two values are the same. -/
def same : Datum → Datum → Bool
  | scalar s, scalar t => s == t
  | list xs, list ys => sameAll xs ys
  | record xs, record ys => xs.length == ys.length && sameFields xs ys
  | _, _ => false

/-- Whether two lists are the same, member by member. -/
def sameAll : List Datum → List Datum → Bool
  | [], [] => true
  | x :: xs, y :: ys => x.same y && sameAll xs ys
  | _, _ => false

/-- Whether all fields of a record are the same in another one. -/
def sameFields : List (String × Datum) → List (String × Datum) → Bool
  | [], _ => true
  | (name, x) :: xs, ys =>
    (match ys.lookup name with
    | some y => x.same y
    | none => false) && sameFields xs ys

end

instance : BEq Datum := ⟨same⟩

end Datum

end AccessControl
