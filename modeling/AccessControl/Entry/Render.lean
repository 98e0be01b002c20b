import AccessControl.Decision.Fold
import AccessControl.Entry.Basic

/-!
# From decisions to entries

Decisions are written as entries by putting together the privileges that have
the same side in force under the same restrictions. What is denied comes first.
Within an effect the entries are in the order of their first privileges, and the
privileges of an entry in the order of their depths. Its restrictions are written
as for the privilege of it that was entered first.
-/

namespace AccessControl

namespace DecisionMap

/-- The sets of restrictions that occur among rulings for an effect, in the order
    of the rulings. Of sets that are the same only the first one counts. -/
def restrictionSets (e : Effect) (rs : List Ruling) : List RestrictionSet :=
  (rs.map fun r => (r.decision.side e).restrictions).eraseDupsBy RestrictionSet.same

/-- The entries of a principal for one effect. -/
def entriesFor (m : DecisionMap) (d : DepthIndex) (principal : Principal) (e : Effect) :
    List Entry :=
  let active := m.active e
  let ordered := active.mergeSort fun r s => d.precedes r.id s.id
  let written := restrictionSets e active
  (restrictionSets e ordered).map fun set =>
    ⟨principal, e,
      (ordered.filter fun r => (r.decision.side e).restrictions.same set).map Ruling.privilege,
      (written.find? set.same).getD set⟩

/-- The entries that say for a principal what a map says. -/
def entries (m : DecisionMap) (d : DepthIndex) (principal : Principal) : List Entry :=
  m.entriesFor d principal .deny ++ m.entriesFor d principal .allow

end DecisionMap

/-- The decisions about a principal that its entries make up, folded. -/
def Registry.decisionsOf (r : Registry) (acl : List Entry) (principal : Principal) :
    Except Error DecisionMap := do
  return (← DecisionMap.ofEntries acl principal).consolidate r.depths r

/-- The principals of a list of entries, in the order of their first entries. -/
def principals (acl : List Entry) : List Principal := (acl.map Entry.principal).eraseDups

/-- The folded decisions about each principal of a list of entries. -/
def Registry.allDecisions (r : Registry) (acl : List Entry) :
    Except Error (List (Principal × DecisionMap)) :=
  (principals acl).mapM fun p => return (p, ← r.decisionsOf acl p)

end AccessControl
