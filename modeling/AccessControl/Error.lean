import AccessControl.Datum.Basic

/-!
# Errors

Everything that can stop a computation, as causes. `Error.kind` groups the
causes by what went wrong, and `Error.message` words the causes that a user of
the library is told about; the other causes are about malformed data and have
no wording of their own.
-/

namespace AccessControl

/-- Why a computation stopped. -/
inductive Error
  /-- A privilege declares a child that is not defined. -/
  | undefinedChild (privilege : String) (child : Scalar)
  /-- The privilege that is to be the root of a registry is not defined. -/
  | undefinedRoot (root : Scalar)
  /-- Following the declared children leads back to where it started. -/
  | cycle (walk : List String)
  /-- The root of a registry has no children. -/
  | atomicRoot (root : String)
  /-- An aggregate has no children. -/
  | emptyAggregate (id : String)
  /-- A name that no privilege of the registry has. -/
  | unknownPrivilege (name : Scalar)
  /-- A privilege that is known by name only has no leaves. -/
  | noLeaves (id : String)
  /-- A restriction that is not supported where it is used. -/
  | unsupportedRestriction (name : String)
  /-- A restriction definition is missing where one is needed. -/
  | noDefinition
  /-- A field of a restriction definition is missing. -/
  | missingField
  /-- A field of a restriction definition is of the wrong kind. -/
  | wrongKind
  /-- A field of a restriction definition holds a line break. -/
  | lineBreak
  /-- An entry names no privilege. -/
  | noPrivilege
  /-- The entries of a principal are to be placed beside those of one that has none. -/
  | noEntryOf (principal : String)
  /-- An order that is neither a word nor a numeral. -/
  | illegalOrder (order : String)
  /-- An order that counts beyond the entries. -/
  | orderTooLarge (position : Int)
  /-- A collection was expected. -/
  | notCollection
  /-- A list or a record cannot be a member of a set. -/
  | compound
  /-- Too many or too few values were given. -/
  | wrongCount
  /-- Values that have no order were to be put in order. -/
  | unordered
  /-- A text was expected. -/
  | notText
  /-- A configuration file does not exist. -/
  | noFile
  /-- A line of a configuration stands before its first section. -/
  | noSection
  /-- A line of a configuration is neither a section nor an option. -/
  | malformedLine
  /-- A section of a configuration is given twice. -/
  | repeatedSection
  /-- An option is given twice in a section. -/
  | repeatedOption
  deriving DecidableEq, Inhabited

namespace Error

/-- What went wrong, without its particulars. -/
inductive Kind
  | danglingPrivilege
  | privilegeCycle
  | invalidDefinition
  | unknownPrivilege
  | noLeaves
  | unsupportedRestriction
  | missingField
  | wrongKind
  | lineBreak
  | noPrivilege
  | invalidOrder
  | unsuitableValue
  | notText
  | noFile
  | noSection
  | malformedLine
  | repeatedSection
  | repeatedOption
  deriving DecidableEq

/-- The kind of an error. -/
def kind : Error → Kind
  | undefinedChild .. | undefinedRoot _ => .danglingPrivilege
  | cycle _ => .privilegeCycle
  | atomicRoot _ | emptyAggregate _ => .invalidDefinition
  | unknownPrivilege _ => .unknownPrivilege
  | noLeaves _ => .noLeaves
  | unsupportedRestriction _ => .unsupportedRestriction
  | noDefinition | notText => .notText
  | missingField => .missingField
  | wrongKind => .wrongKind
  | lineBreak => .lineBreak
  | noPrivilege => .noPrivilege
  | noEntryOf _ | illegalOrder _ | orderTooLarge _ => .invalidOrder
  | notCollection | compound | wrongCount | unordered => .unsuitableValue
  | noFile => .noFile
  | noSection => .noSection
  | malformedLine => .malformedLine
  | repeatedSection => .repeatedSection
  | repeatedOption => .repeatedOption

/-- The code that a message ends with. -/
def Kind.code? : Kind → Option String
  | danglingPrivilege => some "DanglingPrivilege"
  | privilegeCycle => some "PrivilegeCycle"
  | invalidDefinition => some "InvalidPrivilegeDefinition"
  | unknownPrivilege => some "UnknownPrivilege"
  | unsupportedRestriction => some "UnsupportedRestriction"
  | invalidOrder => some "InvalidOrder"
  | _ => none

/-- The wording of an error, without its code. -/
def wording? : Error → Option String
  | undefinedChild privilege child =>
    some ("Privilege " ++ privilege ++ " declares undefined child " ++ child.plain)
  | undefinedRoot root => some ("Root privilege " ++ root.plain ++ " is not defined")
  | cycle walk =>
    some ("Privilege definitions contain a cycle: " ++ String.intercalate " -> " walk)
  | atomicRoot root => some ("Root privilege " ++ root ++ " is not an aggregate")
  | emptyAggregate id => some ("Aggregate privilege " ++ id ++ " has no children")
  | unknownPrivilege name => some ("Unknown privilege " ++ name.plain)
  | unsupportedRestriction name =>
    some ("Invalid or not supported restriction name was supplied: " ++ name)
  | noPrivilege => some "Must provide a privilege"
  | noEntryOf principal =>
    some ("No entry was found for the specified principal: " ++ principal)
  | illegalOrder order => some ("Illegal value for the order parameter: " ++ order)
  | orderTooLarge position => some ("Index value is too large: " ++ toString position)
  | _ => none

/-- The message of an error: its wording, followed by its code if it has one. -/
def message? (e : Error) : Option String :=
  e.wording?.map fun text =>
    match e.kind.code? with
    | some code => text ++ ". Code:" ++ code
    | none => text

end Error

end AccessControl
