import AccessControl.Entry.Placement
import AccessControl.Modification.Plan

/-!
# Modifying the entries of a principal

The entries of a principal are modified by loading them, changing the decisions
they make up, folding these and writing them as entries again. What is changed
is given by an `Amendment`, or by the parameters of a request.

* `Registry.amend`, `Registry.amendAll`: the new entries of a principal, and the
  list of all entries with them in their place;
* `Registry.modify`, `Registry.modifyAll`: the same for request parameters.
-/

namespace AccessControl

/-- A change of the entries of a principal. -/
structure Amendment where
  /-- What is done with privileges; their names may be written as parameters. -/
  privileges : List (String × Datum)
  /-- The restrictions under which it is done. -/
  restrictions : List (String × Datum)
  /-- More such restrictions, given by lists of values. -/
  listedRestrictions : List (String × Datum)
  /-- Data for the names of the restrictions that are removed from the entries
      first. -/
  removed : Datum

namespace Amendment

/-- Decisions without the restrictions that an amendment removes. Data that hold no
    names are refused only if there is a side in force to remove them from. -/
def remove (a : Amendment) (m : DecisionMap) : Except Error DecisionMap :=
  match a.removed.names with
  | .ok names => .ok (m.mapDecisions (·.strip names))
  | .error e => if m.rulings.any fun r => !r.decision.isUndecided then .error e else .ok m

/-- The restrictions of an amendment. Each must be known. -/
def restrictionSet (a : Amendment) (known : Vocabulary) : Except Error RestrictionSet := do
  let plain ← a.restrictions.mapM fun r => do
    (RestrictionDraft.ofRaw (← known.definition r.1) r.2).settle
  let listed ← a.listedRestrictions.mapM fun r => do
    let definition ← known.definition r.1
    (RestrictionDraft.ofRaw definition (.list (← r.2.values))).settle
  return Std.ExtTreeSet.ofList (plain ++ listed)

/-- The name of a privilege, which may be written as the name of a parameter. -/
def privilegeName (name : String) : String :=
  (Text.afterText? Parameter.privilegeLead name).getD name

/-- What an amendment does with privileges. -/
def requested (a : Amendment) (r : Registry) : Journal (List (Privilege × PrivilegeValue)) := do
  let read ← a.privileges.mapM fun (name, value) => do
    let p ← r.privilege (.text (privilegeName name))
    return (← PrivilegeValue.read value).map fun v => (p, v)
  return read.reduceOption

/-- Does with the leaves of privileges what is requested, one value after the
    other: what comes later in the order of values wins. -/
def decide (requested : List (Privilege × PrivilegeValue)) (rs : RestrictionSet)
    (m : DecisionMap) : Except Error DecisionMap :=
  PrivilegeValue.inOrder.foldlM (fun m v =>
    m.perform (v.operation rs) ((requested.filter fun q => q.2 == v).map Prod.fst)) m

end Amendment

namespace Registry

variable (r : Registry) (provider : Provider) (acl : List Entry) (principal : Principal)
  (path : Option String)

/-- The decisions about a principal after an amendment, not folded yet. -/
def amendedDecisions (a : Amendment) : Journal DecisionMap := do
  let known ← provider.supported path
  let m ← a.remove (← DecisionMap.ofEntries acl principal)
  let rs ← a.restrictionSet known
  let requested ← a.requested r
  Amendment.decide requested rs m

/-- The entries of a principal after an amendment. -/
def amend (a : Amendment) : Journal (List Entry) := do
  let m ← r.amendedDecisions provider acl principal path a
  return (m.consolidate r.depths r).entries r.depths principal

/-- All entries after an amendment of those of a principal. -/
def amendAll (a : Amendment) (order : Datum) : Journal (List Entry) := do
  let entries ← r.amend provider acl principal path a
  place acl principal entries order

/-- The decisions about a principal after the modifications of a request, not
    folded yet. -/
def modifiedDecisions (parameters : List (String × Datum)) : Journal DecisionMap := do
  let known ← provider.supported path
  let m ← DecisionMap.ofEntries acl principal
  let modifications ← Modifications.ofParameters parameters
  match m.carryOut (modifications.plan r known r.depths) with
  | (m, none) => return m
  | (_, some e) => Journal.ofExcept (.error e)

/-- The entries of a principal after the modifications of a request. -/
def modify (parameters : List (String × Datum)) : Journal (List Entry) := do
  let m ← r.modifiedDecisions provider acl principal path parameters
  return (m.consolidate r.depths r).entries r.depths principal

/-- The parameter that says where modified entries go. -/
def orderParameter : String := "order"

/-- All entries after the modifications that a request asks for. Of several
    orders the first one counts. -/
def modifyAll (parameters : List (String × Datum)) : Journal (List Entry) := do
  let entries ← r.modify provider acl principal path parameters
  let order := (parameters.lookup orderParameter).getD .null
  place acl principal entries order.firstOfList

end Registry

end AccessControl
