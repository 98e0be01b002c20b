import AccessControl.Datum.Reading
import AccessControl.Privilege.Catalogue

/-!
# Privilege definitions

A list of definitions names privileges and, for each of them, its children in
order. From it a catalogue is built, depth first: the children of a privilege
are defined before the privilege itself. Two things can be wrong with a list of
definitions: a child that is not defined, and a privilege that is among its own
descendants.

* `Definitions.undefined?`: the first child without a definition;
* `Definitions.visit`: one step of the depth first construction, which meets a
  privilege on the way to itself or adds it to the catalogue.
-/

namespace AccessControl

/-- Names of privileges with the names of their children. -/
abbrev Definitions := List (String × List String)

namespace Definitions

/-- The names that are defined, in order. -/
def names (ds : Definitions) : List String := ds.map Prod.fst

/-- The declared children of a name; none if it is not defined. -/
def childrenOf (ds : Definitions) (name : String) : List String := (ds.lookup name).getD []

/-- Declarations with each child once, in the order of its first mention. The
    names of the children are not known to be texts yet. -/
def distinct (ds : List (String × List Scalar)) : List (String × List Scalar) :=
  ds.map fun d => (d.1, d.2.eraseDups)

/-- Whether a child is among the names that are defined. -/
def isDefined (ds : List (String × List Scalar)) : Scalar → Bool
  | .text name => ds.any fun d => d.1 == name
  | _ => false

/-- The first child that is declared and not defined. -/
def undefined? (ds : List (String × List Scalar)) : Option Error :=
  ds.findSome? fun d => (d.2.find? fun child => !isDefined ds child).map (.undefinedChild d.1)

/-- Definitions from declarations, all children of which must be defined. -/
def ofDeclarations (ds : List (String × List Scalar)) : Except Error Definitions :=
  let ds := distinct ds
  match undefined? ds with
  | some e => .error e
  | none => .ok (ds.map fun d => (d.1, d.2.filterMap Scalar.text?))

/-- Defines a name in a catalogue, and before it all that is below it. `path`
    holds the names that are being defined, outermost first; a name that is
    among them closes a cycle. As the names of a path differ, `fuel` more names
    suffice when the definitions hold no more than that beside those of the
    path. -/
def visit (ds : Definitions) :
    (fuel : Nat) → (path : List String) → Catalogue → String → Except Error Catalogue
  | 0, path, c, name =>
    if c.contains name then .ok c
    else .error (.cycle (path.dropWhile (· != name) ++ [name]))
  | fuel + 1, path, c, name =>
    if c.contains name then .ok c
    else if path.contains name then .error (.cycle (path.dropWhile (· != name) ++ [name]))
    else do
      let children := ds.childrenOf name
      let c ← children.foldlM (visit ds fuel (path ++ [name])) c
      return c.define name children

/-- The catalogue of a list of definitions, in their order. -/
def catalogue (ds : Definitions) : Except Error Catalogue := do
  let c ← ds.names.foldlM (visit ds ds.length []) .empty
  return c.arrange ds.names

end Definitions

end AccessControl
