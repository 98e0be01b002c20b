import AccessControl.Error
import AccessControl.Text.Blank

/-!
# Reading request data

How data of any kind are taken where the library wants something particular:
a single value, a collection of values, of single values, of names or of children.

A collection may be given as a list, as a record (its field names) or as a text
(its characters), as the functions below say one by one.
-/

namespace AccessControl.Datum

/-- A single value; lists and records are refused. -/
def single : Datum → Except Error Scalar
  | scalar s => .ok s
  | list _ | record _ => .error .compound

/-- The single values among data; fails at the first list or record. -/
def singles (ds : List Datum) : Except Error (List Scalar) := ds.mapM single

/-- The values of a parameter: none, a lone text, or the members of a
    collection. -/
def values : Datum → Except Error (List Datum)
  | scalar .null => .ok []
  | scalar (.text s) => .ok [text s]
  | scalar (.bool _) | scalar (.int _) => .error .notCollection
  | list items => .ok items
  | record fields => .ok (fields.map fun field => text field.1)

/-- A collection of single values: the characters of a text or the members of a
    collection. Data that are not true stand for no values. -/
def scalars (d : Datum) : Except Error (List Scalar) :=
  if d.isTrue then
    match d with
    | scalar (.text s) => .ok (s.toList.map fun c => .text c.toString)
    | list items => singles items
    | record fields => .ok (fields.map fun field => .text field.1)
    | scalar _ => .error .notCollection
  else .ok []

/-- The names of the children of a privilege: the words of a text or the
    members of a collection. -/
def children : Datum → Except Error (List Scalar)
  | scalar (.text s) => .ok ((Text.words s.toList).map fun w => .text (String.ofList w))
  | d => d.scalars

/-- The name that a single value is; numbers are no names. -/
def name? : Scalar → Option (Option String)
  | .null => some none
  | .text s => some (some s)
  | .bool _ | .int _ => none

/-- A collection of names, in which a missing name may occur. Numbers among them
    are the names of nothing. -/
def names (d : Datum) : Except Error (List (Option String)) :=
  return (← d.scalars).filterMap name?

/-- The text that data hold; data that are not true stand for the empty text. -/
def textOrEmpty (d : Datum) : Except Error String :=
  match d with
  | scalar (.text s) => .ok s
  | d => if d.isTrue then .error .notText else .ok ""

/-- The first member of a list, or nothing if it is empty; other data as they
    are. -/
def firstOfList : Datum → Datum
  | list items => items.head?.getD null
  | d => d

end AccessControl.Datum
