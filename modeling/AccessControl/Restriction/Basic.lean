import AccessControl.Restriction.Definition
import Std.Data.ExtTreeSet

/-!
# Restrictions

A restriction qualifies a decision: it has a name, if there is a definition
behind it, and values. How many values it holds depends on its arity, which
comes from the definition, or from the value itself if there is no definition.

A restriction is drafted from any data (`RestrictionDraft`). Once all its values
are single ones (`RestrictionDraft.settle`) it is a `Restriction`, of which sets
can be formed.

* `instTransOrd`, `instLawfulBEqOrd`: restrictions are ordered by name, arity and
  values, the ones without a name first, and two of them are at the same place if
  and only if they are the same.
-/

namespace AccessControl

/-- A restriction with values of type `α`. -/
structure RestrictionOf (α : Type) where
  /-- The name of its definition, if it has one. -/
  name : Option String
  /-- Whether it takes several values. -/
  multi : Flag
  /-- Its values, in order. -/
  values : List α

/-- A restriction as it is asked for, with values of any kind. -/
abbrev RestrictionDraft := RestrictionOf Datum

/-- A restriction that decisions and entries can carry. -/
abbrev Restriction := RestrictionOf Scalar

namespace RestrictionOf

variable {α : Type} [Ord α]

/-- Restrictions are ordered by name, arity and values. -/
def order : RestrictionOf α → RestrictionOf α → Ordering :=
  compareLex (compareOn name) (compareLex (compareOn multi) (compareOn values))

instance : Ord (RestrictionOf α) := ⟨order⟩

/-- Restrictions are the same when they are at the same place in the order. -/
instance : BEq (RestrictionOf α) := ⟨fun r s => (compare r s).isEq⟩

instance [Std.TransOrd α] : Std.TransCmp (@order α _) := by
  unfold order
  infer_instance

instance instTransOrd [Std.TransOrd α] : Std.TransOrd (RestrictionOf α) :=
  inferInstanceAs (Std.TransCmp order)

instance instLawfulBEqOrd : Std.LawfulBEqOrd (RestrictionOf α) := ⟨Ordering.isEq_iff_eq_eq.symm⟩

/-- Restrictions that are the same have the same name. -/
theorem name_eq_of_compare {r s : RestrictionOf α} (h : compare r s = .eq) : r.name = s.name := by
  change order r s = .eq at h
  rw [order, compareLex_eq_eq] at h
  exact Std.LawfulEqOrd.eq_of_compare h.1

end RestrictionOf

namespace RestrictionDraft

/-- The values of a restriction that takes several: a lone value stands for a
    list of one. -/
def several : Datum → List Datum
  | .list items => items
  | .scalar .null => []
  | d => [d]

/-- The values of a restriction that takes one. -/
def one : Datum → List Datum
  | .scalar .null => []
  | d => [d]

/-- Whether data are a list. -/
def isList : Datum → Bool
  | .list _ => true
  | _ => false

/-- A restriction of a given name and arity, drafted from its value. -/
def shaped (name : Option String) (multi : Flag) (value : Datum) : RestrictionDraft :=
  ⟨name, multi, if multi.isTrue then several value else one value⟩

/-- A restriction drafted from its definition, if there is one, and its value. -/
def ofValue (definition : Option RestrictionDefinition) (value : Datum) : RestrictionDraft :=
  shaped (definition.map (·.name)) ((definition.map (·.multi)).getD (.bool (isList value))) value

/-- A restriction drafted from its definition and a value that may be a list in
    any case: a restriction that takes one value takes the first of them. -/
def ofRaw (definition : RestrictionDefinition) (value : Datum) : RestrictionDraft :=
  ofValue (some definition) (if definition.multi.isTrue then value else value.firstOfList)

/-- A restriction like `r` with another value. Without a definition the arity
    follows the new value. -/
def withValue (r : RestrictionDraft) (value : Datum) : RestrictionDraft :=
  shaped r.name (if r.name.isSome then r.multi else .bool (isList value)) value

/-- The first value of a restriction, if it has one. -/
def value (r : RestrictionDraft) : Datum := r.values.head?.getD .null

/-- Whether two drafts are of equal restrictions. -/
def same (r s : RestrictionDraft) : Bool :=
  r.name == s.name && r.multi == s.multi && r.values == s.values

/-- The description of a restriction. -/
def describe (r : RestrictionDraft) : String :=
  "LocalRestriction(name=" ++ (Scalar.ofName r.name).plain ++ ", values=" ++
    (if r.multi.isTrue then Datum.list r.values else r.value).literal ++ ")"

/-- Settles a draft: its values must be single ones. -/
def settle (r : RestrictionDraft) : Except Error Restriction := do
  return ⟨r.name, r.multi, ← Datum.singles r.values⟩

end RestrictionDraft

/-- A settled restriction as a draft. -/
def RestrictionOf.draft (r : Restriction) : RestrictionDraft :=
  ⟨r.name, r.multi, r.values.map .scalar⟩

end AccessControl
