import AccessControl.Privilege.Registry

/-!
# References to privileges

How a request refers to a privilege: by its name in a registry, or by writing
down a privilege of its own, in which parts may again be names.
-/

namespace AccessControl

/-- A way to refer to a privilege. -/
inductive Reference
  /-- The privilege of a name in the registry. What is given as a name may be any
      data. -/
  | name (name : Datum)
  /-- An atomic privilege. -/
  | atomic (id : String)
  /-- A privilege that is known by name only. -/
  | nominal (id : String)
  /-- An aggregate of other privileges. -/
  | aggregate (id : String) (children : List Reference)
  deriving Inhabited

/-- A privilege at hand, or the name of one that is still to be looked up. -/
inductive Designation
  | name (name : Datum)
  | privilege (p : Privilege)

namespace Registry

/-- The privilege that data name. -/
def named (r : Registry) (name : Datum) : Except Error Privilege := do
  r.privilege (← name.single)

mutual

/-- The privilege that a reference means. -/
def resolve (r : Registry) : Reference → Except Error Privilege
  | .name name => r.named name
  | .atomic id => .ok (.atomic id)
  | .nominal id => .ok (.nominal id)
  | .aggregate id children => do Privilege.aggregate id (← r.resolveAll children)

/-- The privileges that references mean, in order. -/
def resolveAll (r : Registry) : List Reference → Except Error (List Privilege)
  | [] => .ok []
  | ref :: refs => do return (← r.resolve ref) :: (← r.resolveAll refs)

end

/-- Works out a reference, except that a name is left to be looked up later. -/
def designate (r : Registry) : Reference → Except Error Designation
  | .name name => .ok (.name name)
  | ref => do return .privilege (← r.resolve ref)

/-- The privilege that is designated. -/
def look (r : Registry) : Designation → Except Error Privilege
  | .name name => r.named name
  | .privilege p => .ok p

/-- Whether a registry has a privilege of the name of what is designated. -/
def knows (r : Registry) : Designation → Except Error Bool
  | .name name => return (← name.single).text?.any r.contains
  | .privilege p => .ok (r.contains p.id)

end Registry

end AccessControl
