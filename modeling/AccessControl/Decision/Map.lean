import AccessControl.Decision.Ruling

/-!
# Decision maps

The decisions about the privileges of one principal, at most one for each
privilege, in the order in which they were entered. Two maps are the same when
they say the same of every name, whatever their orders. The order tells only which
of several ways of writing the same restrictions is shown.

* `DecisionMap.get?`: what a map says of a name;
* `DecisionMap.get?_change`, `DecisionMap.get?_rule`: a change of one name is a
  change of what the map says of it, and of nothing else.
-/

namespace AccessControl

/-- Decisions about different privileges. -/
structure DecisionMap where
  /-- The rulings, in the order in which they were entered. -/
  rulings : List Ruling
  /-- No two of them are about privileges of the same name. -/
  nodup_ids : (Ruling.ids rulings).Nodup

namespace DecisionMap

/-- The map without decisions. -/
def empty : DecisionMap := ⟨[], List.nodup_nil⟩

instance : EmptyCollection DecisionMap := ⟨empty⟩

/-- The decision about the privilege of a name. -/
def get? (m : DecisionMap) (id : String) : Option Decision := Ruling.decision? id m.rulings

/-- The restrictions under which the privilege of a name is allowed or denied,
    if it is. -/
def inForce? (m : DecisionMap) (e : Effect) (id : String) : Option RestrictionSet :=
  (m.get? id).bind fun d => (d.side e).inForce?

/-- The privileges of a map. -/
def privileges (m : DecisionMap) : List Privilege := m.rulings.map Ruling.privilege

/-- The rulings of a map, in the order of their names. -/
def sorted (m : DecisionMap) : List Ruling := m.rulings.mergeSort fun r s => decide (r.id ≤ s.id)

/-- The rulings whose side of an effect is in force. -/
def active (m : DecisionMap) (e : Effect) : List Ruling :=
  m.rulings.filter fun r => (r.decision.side e).active

/-! ## Changes -/

/-- Changes what a map says of the name of a privilege. -/
def alter (m : DecisionMap) (p : Privilege) (f : Option Decision → Option Decision) :
    DecisionMap :=
  ⟨Ruling.alter p f m.rulings, Ruling.nodup_ids_alter p f m.nodup_ids⟩

/-- Changes what a map says of a name. A privilege that the map did not hold is
    taken to be atomic. -/
def change (m : DecisionMap) (id : String) (f : Option Decision → Option Decision) :
    DecisionMap :=
  m.alter (.atomic id) f

theorem get?_change (m : DecisionMap) (id : String) (f : Option Decision → Option Decision)
    (k : String) : (m.change id f).get? k = if id = k then f (m.get? k) else m.get? k :=
  Ruling.decision?_alter (.atomic id) f m.nodup_ids k

/-- Changes the decision about a privilege, which starts undecided if the map
    has none. -/
def rule (m : DecisionMap) (p : Privilege) (f : Decision → Decision) : DecisionMap :=
  m.alter p fun d => some (f (d.getD .undecided))

theorem get?_rule (m : DecisionMap) (p : Privilege) (f : Decision → Decision) (k : String) :
    (m.rule p f).get? k =
      if p.id = k then some (f ((m.get? k).getD .undecided)) else m.get? k :=
  Ruling.decision?_alter p (fun d => some (f (d.getD .undecided))) m.nodup_ids k

/-- Changes every decision of a map. -/
def mapDecisions (m : DecisionMap) (f : Decision → Decision) : DecisionMap :=
  ⟨Ruling.mapDecisions f m.rulings, Ruling.ids_mapDecisions f m.rulings ▸ m.nodup_ids⟩

/-- Drops the decision about a privilege if no side of it is in force. -/
def discardUndecided (m : DecisionMap) (id : String) : DecisionMap :=
  m.change id fun d => d.bind Decision.decided?

/-- Drops all decisions of which no side is in force. -/
def prune (m : DecisionMap) : DecisionMap :=
  ⟨m.rulings.filter fun r => !r.decision.isUndecided,
    m.nodup_ids.sublist (List.filter_sublist.map Ruling.id)⟩

/-! ## Comparison -/

/-- Whether a map says the same of a name as a ruling. -/
def agrees (m : DecisionMap) (r : Ruling) : Bool := (m.get? r.id).any r.decision.same

/-- Whether two maps say the same of every name. -/
def same (m n : DecisionMap) : Bool :=
  m.rulings.length == n.rulings.length && m.rulings.all n.agrees

/-- The names of which both maps have a decision, but not the same. -/
def differing (m n : DecisionMap) : List String :=
  Ruling.ids (m.sorted.filter fun r => (n.get? r.id).isSome && !n.agrees r)

/-- The description of a map. -/
def describe (m : DecisionMap) : String :=
  "DecisionMap([" ++ Datum.commaSeparated (m.sorted.map Ruling.describe) ++ "])"

end DecisionMap

end AccessControl
