import AccessControl.Entry.Render
import AccessControl.Journal
import AccessControl.Text.Numeral
import AccessControl.Text.Part

/-!
# Placing entries

New entries of a principal take the place of its old ones in a list of entries,
or go where an *order* says: first, last, beside the entries of another
principal, or to the place of a principal in the list, counted from zero.

* `Position.ofText`: the positions that an order can mean;
* `Position.index`: where a position is in the list of the other entries;
* `place`, `delete`: the lists that result.
-/

namespace AccessControl

/-- A place in a list of entries. -/
inductive Position
  /-- Before all entries. -/
  | first
  /-- After all entries. -/
  | last
  /-- Right before the first entry of a principal. -/
  | before (principal : String)
  /-- Right after the last entry of a principal. -/
  | after (principal : String)
  /-- Right before the first entry of a principal, given by its number. -/
  | nth (i : Int)
  deriving DecidableEq

namespace Position

def firstWord : String := "first"
def lastWord : String := "last"
def beforeWord : String := "before "
def afterWord : String := "after "

/-- The position that an order means. -/
def ofText (order : String) : Except Error Position :=
  if order = firstWord then .ok first
  else if order = lastWord then .ok last
  else
    match Text.afterText? beforeWord order with
    | some principal => .ok (before principal)
    | none =>
      match Text.afterText? afterWord order with
      | some principal => .ok (after principal)
      | none =>
        match Text.integer? order with
        | some i => .ok (nth i)
        | none => .error (.illegalOrder order)

/-- The number of entries before the first one of a principal. -/
def firstOf? (acl : List Entry) (principal : Principal) : Option Nat :=
  acl.findIdx? fun a => a.principal == principal

/-- The number of entries up to the last one of a principal. -/
def lastOf? (acl : List Entry) (principal : Principal) : Option Nat :=
  (firstOf? acl.reverse principal).map fun i => acl.length - i

/-- The number of entries of a list that come before a position. A number beyond
    the number of entries is refused; any other number that is not the number of
    a principal means the end of the list. -/
def index (acl : List Entry) : Position → Except Error Nat
  | first => .ok 0
  | last => .ok acl.length
  | before q =>
    match firstOf? acl (.text q) with
    | some i => .ok i
    | none => .error (.noEntryOf q)
  | after q =>
    match lastOf? acl (.text q) with
    | some i => .ok i
    | none => .error (.noEntryOf q)
  | nth i =>
    if i > acl.length then .error (.orderTooLarge i)
    else if i < 0 then .ok acl.length
    else
      match (principals acl)[i.toNat]? with
      | some p => .ok ((firstOf? acl p).getD acl.length)
      | none => .ok acl.length

end Position

/-- The entries of all other principals. -/
def othersThan (principal : Principal) (acl : List Entry) : List Entry :=
  acl.filter fun a => a.principal != principal

/-- The position of a principal among the principals of a list; the last one if
    it has no entries. -/
def positionOf (acl : List Entry) (principal : Principal) : Position :=
  match (principals acl).findIdx? (· == principal) with
  | some i => .nth i
  | none => .last

/-- Replaces the entries of a principal by others, at a position among the
    entries of the other principals. -/
def placeAt (acl : List Entry) (principal : Principal) (entries : List Entry)
    (position : Position) : Except Error (List Entry) := do
  let others := othersThan principal acl
  let i ← position.index others
  return others.take i ++ entries ++ others.drop i

/-- Replaces the entries of a principal by others, in the order that is asked
    for. An order that is not true leaves the principal where it was. -/
def place (acl : List Entry) (principal : Principal) (entries : List Entry) (order : Datum) :
    Except Error (List Entry) := do
  if order.isTrue then
    placeAt acl principal entries (← Position.ofText (← order.textOrEmpty))
  else placeAt acl principal entries (positionOf acl principal)

/-- Principals in order. Values of different kinds have no order among each other. -/
def sortPrincipals (ps : List Principal) : Except Error (List Principal) :=
  match ps with
  | [] => .ok []
  | p :: rest =>
    if rest.all fun q => q.rank == p.rank then .ok (ps.mergeSort fun p q => (compare p q).isLE)
    else .error .unordered

/-- Deletes the entries of some principals, with a warning for each of them that
    has none. -/
def delete (acl : List Entry) (ps : List Principal) : Journal (List Entry) := do
  let present := principals acl
  let missing ← sortPrincipals (ps.eraseDups.filter fun p => !present.contains p)
  missing.forM fun p => Journal.warn (.nothingDeleted p)
  return acl.filter fun a => !ps.contains a.principal

end AccessControl
