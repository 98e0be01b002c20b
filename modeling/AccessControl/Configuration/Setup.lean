import AccessControl.Configuration.Document
import AccessControl.Privilege.Standard
import AccessControl.Restriction.Provider
import AccessControl.Text.Part

/-!
# Configured registries and providers

A configuration document defines privileges in its section `[privileges]`, one
for each option, with the names of the children as the value. The section
`[registry]` may name the root. The section `[restrictions]` defines restrictions
with the types of their values; a type that ends in `[]` is of a restriction that
takes several values.

A *setup* says which registry and which provider are in use where none is given:
those that were registered, or else the standard ones.

* `Document.registry`, `Document.provider`: what a document defines;
* `Document.write`: a document that defines given privileges.
-/

namespace AccessControl

namespace Document

def privilegesSection : String := "privileges"
def restrictionsSection : String := "restrictions"
def registrySection : String := "registry"
def rootOption : String := "root"

/-- The end of the type of a restriction that takes several values. -/
def severalMark : String := "[]"

/-- The privileges that a document defines, with the names of their children. -/
def privileges (d : Document) : List (String × List String) :=
  (d.items privilegesSection).map fun o =>
    (o.1, (Text.words o.2.toList).map String.ofList)

/-- The name of the root of the registry. -/
def root (d : Document) : String := (d.value? registrySection rootOption).getD PrivilegeName.all

/-- The registry that a document defines. -/
def registry (d : Document) : Except Error Registry :=
  Registry.ofDeclarations (d.privileges.map fun p => (p.1, p.2.map .text)) (.text d.root)

/-- A type of values without blanks around it, or the default one. -/
def typeOr (type : List Char) : String :=
  let type := Text.trim type
  if type.isEmpty then RestrictionDefinition.defaultType else String.ofList type

/-- The definition of a restriction from its name and its type. -/
def restrictionDefinition (name value : String) : Except Error RestrictionDefinition :=
  let type := typeOr value.toList
  let (type, multi) :=
    match Text.upTo? severalMark.toList type.toList with
    | some single => (typeOr single, true)
    | none => (type, false)
  RestrictionDefinition.ofFields (.text name) (.text type) (.scalar (.bool multi))

/-- The restrictions that a document defines, in order. -/
def restrictions (d : Document) : Except Error (List RestrictionDefinition) :=
  (d.items restrictionsSection).mapM fun o => restrictionDefinition o.1 o.2

/-- The provider that a document defines. -/
def provider (d : Document) : Except Error Provider :=
  return ⟨(← d.restrictions).map some⟩

/-- The text of a file, whose lines may end in a carriage return, a line feed or
    both. -/
def normalBreaks : List Char → List Char
  | '\r' :: '\n' :: cs => '\n' :: normalBreaks cs
  | '\r' :: cs => '\n' :: normalBreaks cs
  | c :: cs => c :: normalBreaks cs
  | [] => []

/-- The document of a file, which may not exist. -/
def ofFile (content : Option String) : Except Error Document :=
  match content with
  | some text => parse (String.ofList (normalBreaks text.toList))
  | none => .error .noFile

/-- The text of a document that defines a root and privileges. -/
def write (root : String) (definitions : Definitions) : String :=
  String.intercalate "\n" <|
    ["[" ++ registrySection ++ "]", rootOption ++ " = " ++ root, "[" ++ privilegesSection ++ "]"] ++
      definitions.map fun d => d.1 ++ " = " ++ String.intercalate " " d.2

end Document

/-- Where the environment says that privileges are defined. -/
inductive Setting
  /-- Nowhere: the setting is missing. -/
  | unset
  /-- Nowhere: the setting is empty. -/
  | empty
  /-- In a file, which may not exist. -/
  | file (content : Option String)

/-- The registry that the environment asks for; the standard one if it does not
    ask for any. -/
def Setting.registry : Setting → Except Error Registry
  | unset | empty => .ok .standard
  | file content => do (← Document.ofFile content).registry

/-- The registry and the provider that are registered. -/
structure Setup where
  /-- The registered registry. -/
  registered : Option Registry
  /-- The registered provider. -/
  registeredProvider : Option Provider

namespace Setup

/-- The registry in use: the given one, else the registered one, else the
    standard one. -/
def registry (s : Setup) (given : Option Registry) : Registry :=
  (given <|> s.registered).getD .standard

/-- The provider in use: the given one, else the registered one, else the
    standard one. -/
def provider (s : Setup) (given : Option Provider) : Provider :=
  (given <|> s.registeredProvider).getD .standard

/-- The memory that the registry in use has of depth indexes. Only the standard
    registry has been in use before. -/
def memory (s : Setup) (given : Option Registry) : DepthMemory :=
  if (given <|> s.registered).isSome then ∅ else .standard

end Setup

end AccessControl
