import AccessControl.Restriction.Definition

/-!
# Restriction providers

A provider says which restrictions are supported at a resource path. It supports
the same ones at every path and none at the level of the repository, which has
no path. Of definitions that agree the first one counts.

* `Vocabulary`: the restrictions that are known at a path;
* `Provider.supported`: the vocabulary of a path.
-/

namespace AccessControl

namespace RestrictionName

def glob := "rep:glob"
def nodeTypeNames := "rep:ntNames"
def leads := "rep:prefixes"
def itemNames := "rep:itemNames"
def current := "rep:current"
def globs := "rep:globs"
def subtrees := "rep:subtrees"

end RestrictionName

/-- The restrictions that are known where entries are read or changed: their
    definitions, no two of which agree. -/
abbrev Vocabulary := List RestrictionDefinition

namespace Vocabulary

/-- Definitions without those that agree with an earlier one. -/
def ofDefinitions (ds : List RestrictionDefinition) : Vocabulary :=
  ds.foldl (fun known d => if known.any d.agrees then known else known ++ [d]) []

/-- The definition of a name. If several have the name, the last one counts. -/
def find? (known : Vocabulary) (name : String) : Option RestrictionDefinition :=
  known.reverse.find? fun d => d.name == name

/-- The definition of a name, which must be known. -/
def definition (known : Vocabulary) (name : String) : Except Error RestrictionDefinition :=
  match known.find? name with
  | some d => .ok d
  | none => .error (.unsupportedRestriction name)

/-- The names that are known, in alphabetical order. -/
def names (known : Vocabulary) : List String :=
  (known.map (·.name)).eraseDups.mergeSort fun a b => decide (a ≤ b)

/-- The restrictions that repositories know. -/
def standard : Vocabulary := [
  ⟨RestrictionName.glob, "String", .bool false⟩,
  ⟨RestrictionName.nodeTypeNames, "Name", .bool true⟩,
  ⟨RestrictionName.leads, "String", .bool true⟩,
  ⟨RestrictionName.itemNames, "Name", .bool true⟩,
  ⟨RestrictionName.current, "String", .bool true⟩,
  ⟨RestrictionName.globs, "String", .bool true⟩,
  ⟨RestrictionName.subtrees, "String", .bool true⟩]

end Vocabulary

/-- The restriction definitions that are supported at the paths of a repository.
    A definition may be missing, which shows when the provider is asked. -/
structure Provider where
  /-- The definitions, as they were given. -/
  definitions : List (Option RestrictionDefinition)

namespace Provider

/-- A provider of everything that some of the given providers support. -/
def compose (ps : List Provider) : Provider := ⟨ps.flatMap definitions⟩

/-- A definition, which must not be missing. -/
def required : Option RestrictionDefinition → Except Error RestrictionDefinition
  | some d => .ok d
  | none => .error .noDefinition

/-- The restrictions supported at a path; without a path there are none. -/
def supported (p : Provider) (path : Option String) : Except Error Vocabulary :=
  if path.isSome then return .ofDefinitions (← p.definitions.mapM required) else .ok []

/-- The provider of the restrictions that repositories know. -/
def standard : Provider := ⟨Vocabulary.standard.map some⟩

end Provider

end AccessControl
