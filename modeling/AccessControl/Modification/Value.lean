import AccessControl.Datum.Reading
import AccessControl.Decision.Operation
import AccessControl.Journal

/-!
# Words of a request

The words that say what a request does with a privilege (`PrivilegeValue`) and
which sides it deletes (`DeleteValue`). A word may be written with letters of
any case and with blanks around it. A value that is no such word is ignored,
with a warning.
-/

namespace AccessControl

/-- What a request does with a privilege. -/
inductive PrivilegeValue
  | allow
  | granted
  | none
  | denied
  | deny
  deriving DecidableEq

/-- Which sides of a decision a request deletes. -/
inductive DeleteValue
  | all
  | allow
  | deny
  deriving DecidableEq

/-- A word as it is compared: without blanks around it, in lower case. -/
def normalWord (text : String) : String :=
  String.ofList ((Text.trim text.toList).map Char.toLower)

namespace PrivilegeValue

/-- All values, in the order in which they are applied together: what comes
    later wins. -/
def inOrder : List PrivilegeValue := [allow, granted, none, denied, deny]

/-- The word for a value. -/
def word : PrivilegeValue → String
  | allow => "allow"
  | granted => "granted"
  | none => "none"
  | denied => "denied"
  | deny => "deny"

/-- The value of a word. -/
def ofWord? (w : String) : Option PrivilegeValue := inOrder.find? fun v => v.word == w

/-- Reads a value. Data that are not true stand for the empty word, which is
    none of the known ones. -/
def read (d : Datum) : Journal (Option PrivilegeValue) := do
  match ofWord? (normalWord (← d.textOrEmpty)) with
  | some v => return some v
  | Option.none =>
    Journal.warn (.ignoredPrivilegeValue d)
    return Option.none

/-- What a value does with a privilege, under restrictions. -/
def operation (v : PrivilegeValue) (rs : RestrictionSet) : Operation :=
  match v with
  | allow | granted => .set .allow rs
  | none => .drop
  | denied | deny => .set .deny rs

end PrivilegeValue

namespace DeleteValue

/-- All values. -/
def inOrder : List DeleteValue := [all, allow, deny]

/-- The word for a value. -/
def word : DeleteValue → String
  | all => "all"
  | allow => "allow"
  | deny => "deny"

/-- The value of a word. -/
def ofWord? (w : String) : Option DeleteValue := inOrder.find? fun v => v.word == w

/-- Reads a value. Data that are not true stand for the empty word, which is
    none of the known ones. -/
def read (d : Datum) : Journal (Option DeleteValue) := do
  match ofWord? (normalWord (← d.textOrEmpty)) with
  | some v => return some v
  | none =>
    Journal.warn (.ignoredDeleteValue d)
    return none

/-- Taking back the sides of a decision. -/
def clearing : DeleteValue → List Operation
  | all => [.clear .allow, .clear .deny]
  | allow => [.clear .allow]
  | deny => [.clear .deny]

/-- Removing a restriction from sides of a decision. -/
def unrestricting (v : DeleteValue) (name : String) : Operation :=
  match v with
  | all => .unrestrictBoth [some name]
  | allow => .unrestrict .allow [some name]
  | deny => .unrestrict .deny [some name]

end DeleteValue

end AccessControl
