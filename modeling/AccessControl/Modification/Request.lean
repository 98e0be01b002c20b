import AccessControl.Modification.Parameter
import AccessControl.Modification.Value

/-!
# Requested modifications

What the parameters of a request say about access control, sorted by what they
are about (`Modifications`). Parameters that are about the same privilege are
taken together, values that are no known words are left out.

* `Modifications.ofParameters`: reads the parameters of a request;
* `Modifications.toParameters`: writes parameters that say the same.
-/

namespace AccessControl

/-- A restriction that a request adds: to one side of a privilege, or to
    everything that is decided. -/
structure RestrictionRequest where
  /-- The privilege and the side that are restricted. -/
  target : Option (String × Effect)
  /-- The name of the restriction. -/
  restriction : String
  /-- Its values. -/
  values : List Datum

/-- The parameter that asks for a restriction. -/
def RestrictionRequest.parameter (r : RestrictionRequest) : Parameter :=
  match r.target with
  | some (p, e) => .restrictionOf p r.restriction e
  | none => .restriction r.restriction

/-- A restriction that a request deletes: from a privilege, or everywhere. -/
structure RestrictionDelete where
  /-- The privilege that it is deleted from. -/
  privilege : Option String
  /-- The name of the restriction. -/
  restriction : String
  /-- The sides that it is deleted from. -/
  values : List DeleteValue

/-- The parameter that deletes a restriction. -/
def RestrictionDelete.parameter (d : RestrictionDelete) : Parameter :=
  match d.privilege with
  | some p => .restrictionDeleteOf p d.restriction
  | none => .restrictionDelete d.restriction

/-- The modifications that a request asks for. -/
structure Modifications where
  /-- What is done with privileges. -/
  privileges : List (String × List PrivilegeValue)
  /-- The sides that are deleted of privileges. -/
  privilegeDeletes : List (String × List DeleteValue)
  /-- The restrictions that are added, in order. -/
  restrictions : List RestrictionRequest
  /-- The restrictions that are deleted, in order. -/
  restrictionDeletes : List RestrictionDelete

namespace Modifications

/-- No modifications. -/
def empty : Modifications := ⟨[], [], [], []⟩

/-- Whether anything is to be modified. -/
def isAny (m : Modifications) : Bool :=
  !m.privileges.isEmpty || !m.privilegeDeletes.isEmpty || !m.restrictions.isEmpty ||
    !m.restrictionDeletes.isEmpty

/-- Adds values to those of a name. A new name comes last. -/
def extend {α : Type} (name : String) (values : List α) :
    List (String × List α) → List (String × List α)
  | [] => [(name, values)]
  | (n, vs) :: rest =>
    if n = name then (n, vs ++ values) :: rest else (n, vs) :: extend name values rest

/-- Reads several values, leaving out those that are no known words. -/
def readAll {α : Type} (read : Datum → Journal (Option α)) (values : List Datum) :
    Journal (List α) := do
  return (← values.mapM read).reduceOption

/-- Adds what a parameter says. -/
def add (m : Modifications) (p : Parameter) (values : List Datum) : Journal Modifications :=
  match p with
  | .privilegeDelete p => do
    let vs ← readAll DeleteValue.read values
    return { m with privilegeDeletes := extend p vs m.privilegeDeletes }
  | .privilege p => do
    let vs ← readAll PrivilegeValue.read values
    return { m with privileges := extend p vs m.privileges }
  | .restrictionDeleteOf p r => do
    let vs ← readAll DeleteValue.read values
    return { m with restrictionDeletes := m.restrictionDeletes ++ [⟨some p, r, vs⟩] }
  | .restrictionDelete r =>
    return { m with restrictionDeletes := m.restrictionDeletes ++ [⟨none, r, [.all]⟩] }
  | .restrictionOf p r e =>
    return { m with restrictions := m.restrictions ++ [⟨some (p, e), r, values⟩] }
  | .restriction r =>
    return { m with restrictions := m.restrictions ++ [⟨none, r, values⟩] }

/-- Adds what a parameter of a name says, if it is about access control. -/
def addNamed (m : Modifications) (parameter : String × Datum) : Journal Modifications := do
  let values ← parameter.2.values
  match Parameter.ofName? parameter.1 with
  | some p => m.add p values
  | none => return m

/-- The modifications that the parameters of a request ask for. -/
def ofParameters (parameters : List (String × Datum)) : Journal Modifications :=
  parameters.foldlM addNamed empty

/-- The parameters that ask for modifications, with their values. -/
def parts (m : Modifications) : List (Parameter × List Datum) :=
  m.privileges.map (fun q => (.privilege q.1, q.2.map fun v => .text v.word)) ++
  m.privilegeDeletes.map (fun q => (.privilegeDelete q.1, q.2.map fun v => .text v.word)) ++
  m.restrictions.map (fun r => (r.parameter, r.values)) ++
  m.restrictionDeletes.map (fun d => (d.parameter, d.values.map fun v => .text v.word))

/-- A request that asks for modifications. -/
def toParameters (m : Modifications) : List (String × Datum) :=
  m.parts.map fun q => (q.1.write, .list q.2)

/-- Values of names as they are shown in a description. -/
def describeValues {α : Type} (word : α → String) (l : List (String × List α)) : String :=
  (Datum.record (l.map fun p => (p.1, .list (p.2.map fun v => .text (word v))))).literal

/-- Parts of a description between round brackets. -/
def describeTuple (parts : List Datum) : String :=
  "(" ++ Datum.commaSeparated (parts.map Datum.literal) ++ ")"

/-- The description of modifications. -/
def describe (m : Modifications) : String :=
  let name (s : Option String) : Datum := .scalar (.ofName s)
  "<AceModifications privileges=" ++ describeValues PrivilegeValue.word m.privileges ++
    " deletes=" ++ describeValues DeleteValue.word m.privilegeDeletes ++
    " restrictions=[" ++ Datum.commaSeparated (m.restrictions.map fun r => describeTuple
      [name (r.target.map Prod.fst), .text r.restriction,
        name (r.target.map fun t => Parameter.sideWord t.2), .list r.values]) ++
    "] restriction_deletes=[" ++ Datum.commaSeparated (m.restrictionDeletes.map fun d =>
      describeTuple [name d.privilege, .text d.restriction,
        .list (d.values.map fun v => .text v.word)]) ++ "]>"

end Modifications

end AccessControl
