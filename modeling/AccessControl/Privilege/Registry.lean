import AccessControl.Privilege.Definitions
import AccessControl.Privilege.Depth

/-!
# Registries

A registry is a catalogue of privileges with a root, which is an aggregate. It
is built from definitions and never changes.

* `Registry.ofDeclarations`: the registry of a list of definitions;
* `Registry.immediateChildren`: the children of an aggregate that are not below
  another child as well, the steps along which decisions are folded.
-/

namespace AccessControl

/-- The privileges of a repository. -/
structure Registry where
  /-- The privileges, in the order of their definitions. -/
  catalogue : Catalogue
  /-- The privilege that stands for all others. -/
  root : Privilege
  /-- The root is one of the privileges. -/
  root_mem : root ∈ catalogue.privileges
  /-- The root has children. -/
  root_isAggregate : root.isAggregate = true

namespace Registry

/-- The privileges of a registry, in the order of their definitions. -/
def privileges (r : Registry) : List Privilege := r.catalogue.privileges

/-- The number of privileges. -/
def size (r : Registry) : Nat := r.privileges.length

/-- The privilege of a name, if there is one. -/
def get? (r : Registry) (name : String) : Option Privilege := r.catalogue.get? name

/-- The privilege of a name, which must be known. -/
def privilege (r : Registry) (name : Scalar) : Except Error Privilege :=
  match name with
  | .text s =>
    match r.get? s with
    | some p => .ok p
    | none => .error (.unknownPrivilege name)
  | _ => .error (.unknownPrivilege name)

/-- Whether a name is known. -/
def contains (r : Registry) (name : String) : Bool := (r.get? name).isSome

/-- The aggregates of a registry, in the order of their definitions. -/
def aggregates (r : Registry) : List Privilege := r.privileges.filter Privilege.isAggregate

/-- The names below some of the given privileges. -/
def reached (r : Registry) (names : List String) : Std.ExtTreeSet String :=
  names.foldl (fun s name => ((r.get? name).map Privilege.descendants).getD ∅ ∪ s) ∅

/-- The children of the privilege of a name that are not below another child. -/
def immediateChildren (r : Registry) (name : String) : List String :=
  match r.get? name with
  | some p =>
    let covered := r.reached p.children
    p.children.filter fun child => !covered.contains child
  | none => []

/-- The depth index of the root. -/
def depths (r : Registry) : DepthIndex := r.root.depths

/-- The aggregates in a depth index, deepest first and by name within a depth. -/
def aggregatesByDepth (r : Registry) (d : DepthIndex) : List Privilege :=
  (r.aggregates.filter fun p => d.contains p.id).mergeSort fun p q =>
    (compareLex (compareOn fun p => -d.rank p.id) (compareOn Privilege.id) p q).isLE

/-- A registry of a catalogue, with the root of a name. -/
def ofCatalogue (c : Catalogue) (root : Scalar) : Except Error Registry :=
  match root with
  | .text name =>
    match h : c.get? name with
    | some p =>
      if ha : p.isAggregate then .ok ⟨c, p, Catalogue.mem_of_get? h, ha⟩
      else .error (.atomicRoot name)
    | none => .error (.undefinedRoot root)
  | _ => .error (.undefinedRoot root)

/-- The registry of declarations: names with the names of their children. -/
def ofDeclarations (ds : List (String × List Scalar)) (root : Datum) : Except Error Registry := do
  let c ← (← Definitions.ofDeclarations ds).catalogue
  ofCatalogue c (← root.single)

/-- The registry of definitions whose children are given in any form. -/
def ofData (ds : List (String × Datum)) (root : Datum) : Except Error Registry := do
  ofDeclarations (← ds.mapM fun d => return (d.1, ← d.2.children)) root

/-- The description of a registry. -/
def describe (r : Registry) : String :=
  "<PrivilegeRegistry root=" ++ r.root.id ++ " privileges=" ++ toString r.size ++ ">"

end Registry

end AccessControl
