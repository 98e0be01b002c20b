import AccessControl.Restriction.Set

/-!
# Decisions

A decision about a privilege has two sides, one that allows it and one that
denies it. Each side is active or not and carries restrictions. The sides are
independent of each other: a privilege may be allowed under some restrictions
and denied under others. Only if both sides are active under the same
restrictions do they contradict each other; one of them then has to give way
(`Decision.yield`).
-/

namespace AccessControl

/-- What a decision, or an entry, does with a privilege. -/
inductive Effect
  | allow
  | deny
  deriving DecidableEq

/-- The opposite effect. -/
def Effect.other : Effect → Effect
  | allow => deny
  | deny => allow

/-- The word for an effect. -/
def Effect.word : Effect → String
  | allow => "allow"
  | deny => "deny"

/-- One side of a decision. -/
structure Side where
  /-- Whether the side is in force. -/
  active : Bool
  /-- The restrictions of the side. -/
  restrictions : RestrictionSet

namespace Side

/-- A side that is not in force and has no restrictions. -/
def off : Side := ⟨false, ∅⟩

/-- Switches a side on or off. A side that is switched off loses its
    restrictions. -/
def switch (s : Side) (active : Bool) : Side :=
  if active then { s with active := true } else off

/-- A side with other restrictions. -/
def withRestrictions (s : Side) (rs : RestrictionSet) : Side := { s with restrictions := rs }

/-- A side with restrictions merged into its own. -/
def merge (s : Side) (rs : RestrictionSet) : Side :=
  s.withRestrictions (RestrictionSet.merge s.restrictions rs)

/-- A side without the restrictions of some names. -/
def remove (s : Side) (names : List (Option String)) : Side :=
  s.withRestrictions (RestrictionSet.remove s.restrictions names)

/-- The restrictions under which a side is in force, if it is. -/
def inForce? (s : Side) : Option RestrictionSet :=
  if s.active then some s.restrictions else none

/-- Whether two sides are the same: both or none in force, under the same
    restrictions. -/
def same (s t : Side) : Bool := s.active == t.active && s.restrictions.same t.restrictions

/-- The description of a side: whether it is in force, and its restrictions. -/
def describe (s : Side) : String :=
  (Scalar.bool s.active).plain ++ if s.restrictions.isEmpty then "" else s.restrictions.describe

end Side

/-- A decision about a privilege. -/
structure Decision where
  /-- The side that allows. -/
  allow : Side
  /-- The side that denies. -/
  deny : Side

namespace Decision

/-- The decision of which no side is in force. -/
def undecided : Decision := ⟨.off, .off⟩

/-- The side of an effect. -/
def side (d : Decision) : Effect → Side
  | .allow => d.allow
  | .deny => d.deny

/-- Changes the side of an effect. -/
def onSide (d : Decision) (e : Effect) (f : Side → Side) : Decision :=
  match e with
  | .allow => { d with allow := f d.allow }
  | .deny => { d with deny := f d.deny }

/-- Whether two decisions are the same, side by side. -/
def same (d e : Decision) : Bool := d.allow.same e.allow && d.deny.same e.deny

/-- Whether no side is in force. -/
def isUndecided (d : Decision) : Bool := !d.allow.active && !d.deny.active

/-- The decision, unless no side of it is in force. -/
def decided? (d : Decision) : Option Decision := if d.isUndecided then none else some d

/-- Whether both sides are in force under the same restrictions. -/
def isContradictory (d : Decision) : Bool :=
  d.allow.active && d.deny.active && d.allow.restrictions.same d.deny.restrictions

/-- Lets the side of an effect give way if the decision is contradictory. -/
def yield (d : Decision) (e : Effect) : Decision :=
  if d.isContradictory then d.onSide e fun _ => .off else d

end Decision

end AccessControl
