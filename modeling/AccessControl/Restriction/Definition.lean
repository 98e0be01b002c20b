import AccessControl.Datum.Flag
import AccessControl.Datum.Reading

/-!
# Restriction definitions

A definition gives a restriction its name, the type of its values and whether it
takes several of them. Definitions are told apart by name and arity only
(`RestrictionDefinition.agrees`): the type of the values is a remark.
-/

namespace AccessControl

/-- What a restriction is called and what it holds. -/
structure RestrictionDefinition where
  /-- The name of the restriction. -/
  name : String
  /-- The type of its values. -/
  requiredType : String
  /-- Whether it takes several values. -/
  multi : Flag
  deriving DecidableEq

namespace RestrictionDefinition

/-- The type of values when none is given. -/
def defaultType : String := "String"

/-- Two definitions are of the same restriction when they have the same name
    and the same arity. -/
def agrees (d e : RestrictionDefinition) : Bool := d.name == e.name && d.multi == e.multi

/-- A field that holds one line of text. -/
def textLine : Datum → Except Error String
  | .scalar (.text s) =>
    if s.toList.any fun c => c == '\n' || c == '\r' then .error .lineBreak else .ok s
  | .scalar .null => .error .missingField
  | _ => .error .wrongKind

/-- A field that holds a truth value, or a number that stands for one. -/
def flag : Datum → Except Error Flag
  | .scalar (.bool b) => .ok (.bool b)
  | .scalar (.int i) => .ok (.int i)
  | .scalar .null => .error .missingField
  | _ => .error .wrongKind

/-- A definition from its fields, which are checked one after the other. -/
def ofFields (name requiredType multi : Datum) : Except Error RestrictionDefinition := do
  return ⟨← textLine name, ← textLine requiredType, ← flag multi⟩

/-- A definition from the fields that are given; the type and the arity may be
    left out. -/
def ofData : List Datum → Except Error RestrictionDefinition
  | [] => .error .missingField
  | [name] => ofFields name (.text defaultType) (.scalar (.bool false))
  | [name, type] => ofFields name type (.scalar (.bool false))
  | [name, type, multi] => ofFields name type multi
  | _ => .error .wrongCount

/-- The order in which definitions are listed: by name, type and arity. -/
def precedes (d e : RestrictionDefinition) : Bool :=
  (compareLex (compareOn name) (compareLex (compareOn requiredType) (compareOn multi)) d e).isLE

end RestrictionDefinition

end AccessControl
