import AccessControl.Error
import AccessControl.Text.Blank

/-!
# Configuration documents

A configuration is a text of sections, each with a header in square brackets and
options below it:

```
[section]
option = value
```

A line that is indented deeper than the line of an option continues its value. A
line that starts with `#` or `;` is a comment. The options of the section
`[DEFAULT]` show in every other section, unless it has an option of the same name.

The lines of a text are looked at one by one. `Line.ofText` says what a line can
be without regard to those before it, `Reader.read` takes up the next line.

* `Document.parse`: the document of a text, or what is wrong with the text;
* `Document.items`: the options that show in a section.
-/

namespace AccessControl

/-- A line of a configuration. -/
inductive Line
  /-- A line without characters that are not blank. -/
  | blank
  /-- A line that is passed over. -/
  | comment
  /-- A line with a text, that starts after a number of blanks. -/
  | content (indent : Nat) (text : List Char)

/-- What a line is. -/
def Line.ofText (cs : List Char) : Line :=
  match Text.trim cs with
  | [] => blank
  | c :: rest =>
    if c == '#' || c == ';' then comment else content (cs.takeWhile Text.isBlank).length (c :: rest)

/-- The name in a section header: what stands between the opening bracket and
    the last closing one. What follows the header is not looked at. -/
def Line.header? : List Char → Option (List Char)
  | '[' :: cs =>
    match (cs.reverse.dropWhile (· != ']')).drop 1 with
    | [] => none
    | c :: name => some (c :: name).reverse
  | _ => none

/-- The name and the value of an option: what stands before the first equals
    sign and after it. -/
def Line.option? (cs : List Char) : Option (List Char × List Char) :=
  match cs.dropWhile (· != '=') with
  | [] => none
  | _ :: value => some (Text.trimRight (cs.takeWhile (· != '=')), Text.trim value)

/-- The options of a section: names with the lines of their values. -/
abbrev OptionLines := List (String × List (List Char))

/-- What has been read of a configuration. -/
structure Reader where
  /-- The section that options are added to: the defaults, or the last of the
      sections; none before the first header. -/
  current : Option Bool
  /-- The options that show in every section. -/
  defaults : OptionLines
  /-- The sections before the last one. -/
  sections : List (String × OptionLines)
  /-- The name and the options of the last section. -/
  last : Option (String × OptionLines)
  /-- Whether the value of the last option may go on. -/
  isOpen : Bool
  /-- The indentation of the last line that was no continuation. -/
  indent : Nat
  /-- Whether a line was neither a header nor an option. -/
  isMalformed : Bool

namespace Reader

/-- The name of the section that holds the defaults. -/
def defaultSection : String := "DEFAULT"

/-- Nothing has been read. -/
def start : Reader := ⟨none, [], [], none, false, 0, false⟩

/-- All sections. -/
def allSections (r : Reader) : List (String × OptionLines) := r.sections ++ r.last.toList

/-- The options of the section that options are added to. -/
def options (r : Reader) : OptionLines :=
  if r.current = some true then r.defaults else (r.last.map Prod.snd).getD []

/-- Changes the options of the section that options are added to. -/
def withOptions (r : Reader) (options : OptionLines) : Reader :=
  if r.current = some true then { r with defaults := options }
  else { r with last := r.last.map fun s => (s.1, options) }

/-- Adds a line to the value of the last option. -/
def continueValue (r : Reader) (line : List Char) : Reader :=
  match r.options.getLast? with
  | some (name, lines) => r.withOptions (r.options.dropLast ++ [(name, lines ++ [line])])
  | none => r

/-- Opens a section. The defaults may be opened again, other sections not. -/
def openSection (r : Reader) (name : String) : Except Error Reader :=
  if r.allSections.any fun s => s.1 == name then .error .repeatedSection
  else if name = defaultSection then .ok { r with current := some true, isOpen := false }
  else .ok { r with
    current := some false, sections := r.allSections, last := some (name, []), isOpen := false }

/-- Adds an option, whose value starts with a line. An option without a name is
    not well formed, and its value does not go on. -/
def addOption (r : Reader) (name line : List Char) : Except Error Reader :=
  let key := String.ofList name
  if r.options.any fun o => o.1 == key then .error .repeatedOption
  else .ok { r.withOptions (r.options ++ [(key, [line])]) with
    isOpen := !name.isEmpty, isMalformed := r.isMalformed || name.isEmpty }

/-- Takes up a line that is no continuation. -/
def readContent (r : Reader) (text : List Char) : Except Error Reader :=
  match Line.header? text with
  | some name => r.openSection (String.ofList name)
  | none =>
    if r.current.isNone then .error .noSection
    else
      match Line.option? text with
      | some (name, value) => r.addOption name value
      | none => .ok { r with isMalformed := true }

/-- Takes up the next line. -/
def read (r : Reader) (line : List Char) : Except Error Reader :=
  match Line.ofText line with
  | .comment => .ok r
  | .blank => .ok (if r.isOpen then r.continueValue [] else r)
  | .content indent text =>
    if r.isOpen && r.indent < indent then .ok (r.continueValue text)
    else { r with indent := indent }.readContent text

end Reader

/-- A section of a document: names with values. -/
abbrev Options := List (String × String)

/-- A configuration. -/
structure Document where
  /-- The options that show in every section. -/
  defaults : Options
  /-- The sections, in order. -/
  sections : List (String × Options)

namespace Document

/-- The value that lines make up. -/
def valueOf (lines : List (List Char)) : String :=
  String.ofList (Text.trimRight (List.intercalate ['\n'] lines))

/-- The options that lines make up. -/
def optionsOf (options : OptionLines) : Options := options.map fun o => (o.1, valueOf o.2)

/-- The document of lines that have been read. -/
def ofReader (r : Reader) : Except Error Document :=
  if r.isMalformed then .error .malformedLine
  else .ok ⟨optionsOf r.defaults, r.allSections.map fun s => (s.1, optionsOf s.2)⟩

/-- The document of a text. -/
def parse (text : String) : Except Error Document := do
  ofReader (← (text.toList.splitOn '\n').foldlM Reader.read .start)

/-- The options that show in a section, if there is one: the defaults first,
    with the values of the section where it has them. -/
def items? (d : Document) (name : String) : Option Options :=
  (d.sections.lookup name).map fun own =>
    (d.defaults.map fun o => (o.1, (own.lookup o.1).getD o.2)) ++
      own.filter fun o => !d.defaults.any fun e => e.1 == o.1

/-- The options that show in a section; none if it is missing. -/
def items (d : Document) (name : String) : Options := (d.items? name).getD []

/-- The value of an option in a section, if both are there. -/
def value? (d : Document) (name option : String) : Option String :=
  (d.items? name).bind fun options => options.lookup option

end Document

end AccessControl
