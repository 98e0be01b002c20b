import AccessControl.Decision.Basic
import AccessControl.Text.Part

/-!
# Names of request parameters

What a parameter of a request is about is written into its name:

* `privilege@P`: what is done with the privilege `P`;
* `privilege@P@Delete`: the sides of `P` that are deleted;
* `restriction@R`: a restriction `R` of everything that is decided;
* `restriction@P@R@Allow`, `restriction@P@R@Deny`: a restriction `R` of one side
  of `P`;
* `restriction@R@Delete`: a restriction `R` that is deleted everywhere;
* `restriction@P@R@Delete`: a restriction `R` that is deleted from `P`.

A name may end with a line break, which does not belong to it, except to the
name of a restriction of everything. Parameters with other names are not about
access control.

`Parameter.write` writes these names, `Parameter.ofName?` reads them.
-/

namespace AccessControl

/-- What a parameter is about. -/
inductive Parameter
  | privilege (name : String)
  | privilegeDelete (name : String)
  | restriction (name : String)
  | restrictionOf (privilege name : String) (e : Effect)
  | restrictionDelete (name : String)
  | restrictionDeleteOf (privilege name : String)
  deriving DecidableEq

namespace Parameter

/-- The beginning of a name that is about a privilege. -/
def privilegeLead : String := "privilege@"

/-- The beginning of a name that is about a restriction. -/
def restrictionLead : String := "restriction@"

/-- The end of a name that deletes. -/
def deleteTrail : String := "@Delete"

/-- The word for a side. -/
def sideWord : Effect → String
  | .allow => "Allow"
  | .deny => "Deny"

/-- The name of a parameter. -/
def write : Parameter → String
  | privilege p => privilegeLead ++ p
  | privilegeDelete p => privilegeLead ++ p ++ deleteTrail
  | restriction r => restrictionLead ++ r
  | restrictionOf p r e => restrictionLead ++ p ++ "@" ++ r ++ "@" ++ sideWord e
  | restrictionDelete r => restrictionLead ++ r ++ deleteTrail
  | restrictionDeleteOf p r => restrictionLead ++ p ++ "@" ++ r ++ deleteTrail

/-- A name without the line break at its end, if it has one. -/
def withoutBreak (n : List Char) : List Char := (Text.upTo? ['\n'] n).getD n

/-- The name of a privilege: one line that is not empty. -/
def privilegeName? (cs : List Char) : Option String :=
  if cs.isEmpty || cs.contains '\n' then none else some (String.ofList cs)

/-- Reads a name that deletes a privilege. -/
def privilegeDelete? (n : List Char) : Option Parameter := do
  let body ← Text.upTo? deleteTrail.toList n
  let p ← Text.after? privilegeLead.toList body
  return privilegeDelete (← privilegeName? p)

/-- Reads a name that is about a privilege and does not delete. -/
def privilege? (n : List Char) : Option Parameter :=
  match Text.upTo? deleteTrail.toList n with
  | some _ => none
  | none => do
    let p ← Text.after? privilegeLead.toList n
    return privilege (← privilegeName? p)

/-- The parts of a name that is about a restriction; none of them is empty. -/
def restrictionParts? (n : List Char) : Option (List String) := do
  let body ← Text.after? restrictionLead.toList n
  let ps := body.splitOn '@'
  if ps.any List.isEmpty then none else some (ps.map String.ofList)

/-- Reads a name that deletes a restriction. -/
def restrictionDelete? (n : List Char) : Option Parameter := do
  match ← restrictionParts? (← Text.upTo? deleteTrail.toList n) with
  | [r] => some (restrictionDelete r)
  | [p, r] => some (restrictionDeleteOf p r)
  | _ => none

/-- The side that a word means. -/
def side? (w : String) : Option Effect :=
  if w = sideWord .allow then some .allow
  else if w = sideWord .deny then some .deny
  else none

/-- Reads a name of a restriction of everything. -/
def restriction? (n : List Char) : Option Parameter := do
  match ← restrictionParts? n with
  | [r] => some (restriction r)
  | _ => none

/-- Reads a name of a restriction of one side of a privilege. -/
def restrictionOf? (n : List Char) : Option Parameter := do
  match ← restrictionParts? n with
  | [p, r, w] => return restrictionOf p r (← side? w)
  | _ => none

/-- What the parameter of a name is about, if it is about access control. -/
def ofName? (name : String) : Option Parameter :=
  let n := withoutBreak name.toList
  privilegeDelete? n <|> privilege? n <|> restrictionDelete? n <|>
    restriction? name.toList <|> restrictionOf? n

end Parameter

end AccessControl
