import AccessControl.Decision.Map

/-!
# Operations on decisions

An operation changes the decisions about given privileges. It first resolves
them into their leaves and then does the same to each leaf: an aggregate never
gets a decision by an operation.

* `Operation.act`: what an operation does to the decision about a leaf, the same
  for every leaf;
* `DecisionMap.perform`: an operation on the leaves of given privileges;
* `DecisionMap.attempt`: the same, when the argument of the operation is found to
  be of no use only where it is needed.
-/

namespace AccessControl

namespace Decision

/-- Puts the side of an effect in force and merges restrictions into it. -/
def grant (d : Decision) (e : Effect) (rs : RestrictionSet) : Decision :=
  (d.onSide e fun s => (s.switch true).merge rs).yield e.other

/-- Merges restrictions into the sides that are in force. -/
def restrict (d : Decision) (rs : RestrictionSet) : Decision :=
  let merge (s : Side) : Side := if s.active then s.merge rs else s
  ((d.onSide .allow merge).onSide .deny merge).yield .deny

/-- Removes the restrictions of some names from the side of an effect. -/
def unrestrict (d : Decision) (e : Effect) (names : List (Option String)) : Decision :=
  (d.onSide e fun s => s.remove names).yield e.other

/-- Removes the restrictions of some names from both sides. -/
def unrestrictBoth (d : Decision) (names : List (Option String)) : Decision :=
  ((d.onSide .allow fun s => s.remove names).onSide .deny fun s => s.remove names).yield .deny

/-- Removes the restrictions of some names from the sides that are in force, one
    side after the other: a side that gives way to the first is left alone. -/
def strip (d : Decision) (names : List (Option String)) : Decision :=
  let d := if d.allow.active then d.unrestrict .allow names else d
  if d.deny.active then d.unrestrict .deny names else d

end Decision

/-- The operations on decisions. -/
inductive Operation
  /-- Allows or denies, and merges restrictions into that side. -/
  | set (e : Effect) (rs : RestrictionSet)
  /-- Takes back what allows or denies. -/
  | clear (e : Effect)
  /-- Takes back the whole decision. -/
  | drop
  /-- Merges restrictions into the sides that are in force. -/
  | restrict (rs : RestrictionSet)
  /-- Removes the restrictions of some names from a side. -/
  | unrestrict (e : Effect) (names : List (Option String))
  /-- Removes the restrictions of some names from both sides. -/
  | unrestrictBoth (names : List (Option String))

/-- What an operation does to the decision about a leaf. When both sides end up
    in force under the same restrictions, the side that the operation is about
    wins, and the side that allows wins if it is about both. -/
def Operation.act : Operation → Option Decision → Option Decision
  | set e rs, d => some ((d.getD .undecided).grant e rs)
  | clear e, d => d.bind fun d => (d.onSide e fun s => s.switch false).decided?
  | drop, _ => none
  | restrict rs, d => d.map (·.restrict rs)
  | unrestrict e names, d => d.map (·.unrestrict e names)
  | unrestrictBoth names, d => d.map (·.unrestrictBoth names)

namespace DecisionMap

/-- An operation on the leaves of given names. -/
def performOnLeaves (m : DecisionMap) (op : Operation) (leaves : List String) : DecisionMap :=
  leaves.foldl (fun m leaf => m.change leaf op.act) m

/-- An operation on the leaves of given privileges. It fails, and changes
    nothing, if one of them cannot be resolved. -/
def perform (m : DecisionMap) (op : Operation) (targets : List Privilege) :
    Except Error DecisionMap := do
  return m.performOnLeaves op (← Privilege.expand targets)

/-- An operation whose argument may be of no use. It then fails if one of the leaves
    has a decision that the operation concerns, and changes nothing otherwise. -/
def attempt (m : DecisionMap) (op : Except Error Operation) (concerns : Decision → Bool)
    (targets : List Privilege) : Except Error DecisionMap := do
  let leaves ← Privilege.expand targets
  match op with
  | .ok op => return m.performOnLeaves op leaves
  | .error e => if leaves.any fun leaf => (m.get? leaf).any concerns then .error e else .ok m

/-- Allows or denies the leaves of given privileges under restrictions. -/
def set (m : DecisionMap) (e : Effect) (drafts : List RestrictionDraft)
    (targets : List Privilege) : Except Error DecisionMap := do
  m.perform (.set e (← RestrictionSet.ofDrafts drafts)) targets

/-- Merges a restriction into the sides in force of the leaves of given
    privileges. A restriction that no set can hold is refused only if there is
    such a side. -/
def restrict (m : DecisionMap) (draft : RestrictionDraft) (targets : List Privilege) :
    Except Error DecisionMap :=
  m.attempt (return .restrict (.single (← draft.settle))) (fun d => !d.isUndecided) targets

/-- Removes the restrictions of some names from a side of the decisions about the
    leaves of given privileges. Data that hold no names are refused only if there is
    such a decision. -/
def unrestrict (m : DecisionMap) (e : Effect) (names : Datum) (targets : List Privilege) :
    Except Error DecisionMap :=
  m.attempt (return .unrestrict e (← names.names)) (fun _ => true) targets

/-- Removes the restrictions of some names from both sides of the decisions about
    the leaves of given privileges, with data for the names as for one side. -/
def unrestrictBoth (m : DecisionMap) (names : Datum) (targets : List Privilege) :
    Except Error DecisionMap :=
  m.attempt (return .unrestrictBoth (← names.names)) (fun _ => true) targets

end DecisionMap

end AccessControl
