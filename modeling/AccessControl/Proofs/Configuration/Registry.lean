import AccessControl.Configuration.Setup
import AccessControl.Proofs.Configuration.Document
import AccessControl.Proofs.Privilege.Validation

/-!
# Registries that are configured

Definitions may be written down in a configuration, one on each line, with the root in a section
of its own. What is read from the text is what was written: the same names in the same order with
the same children, whatever characters they are made of, as long as no name can be taken for
something else. So the text makes up the same registry as the definitions themselves do, and is
refused for the same reason if they are.

* `Document.Presents`: a text of a root and definitions;
* `Document.registry_of_sections`: the registry of a document that has been read;
* `Document.presents_write`: a document that is written is such a text;
* `Document.registry_eq_ofData`: a text makes up the same registry as its definitions.
-/

namespace AccessControl

namespace Document

variable {ds : Definitions} {root text name : String}

/-! ## What is set out -/

/-- The section that names the root. -/
def rootSection (root : String) : String × Options := (registrySection, [(rootOption, root)])

/-- The section with a line for each definition. -/
def definitionSection (ds : Definitions) : String × Options :=
  (privilegesSection, ds.map fun d => (d.1, String.intercalate " " d.2))

/-- A text of a root and definitions: of the sections that it sets out, in whatever order, one
    names the root, and one has the definitions. -/
def Presents (text root : String) (ds : Definitions) : Prop :=
  ∃ sections, Writable sections ∧ rootSection root ∈ sections ∧ definitionSection ds ∈ sections ∧
    SetsOut text sections

/-- Definitions that can be written down: different names, none of which can be taken for
    something else, of privileges whose children have names, too. -/
structure Presentable (root : String) (ds : Definitions) : Prop where
  /-- The root has a name. -/
  root : Text.IsWord root
  /-- No privilege is defined twice. -/
  nodup : ds.names.Nodup
  /-- The names of what is defined can be written. -/
  names : ∀ name ∈ ds.names, Line.Writable name
  /-- The children have names, be they defined or not. -/
  children : ∀ d ∈ ds, ∀ child ∈ d.2, Text.IsWord child

/-! ## Reading -/

/-- Without defaults a section shows what it has itself. -/
theorem items?_of_lookup {sections : List (String × Options)} {own : Options}
    (h : sections.lookup name = some own) : items? ⟨[], sections⟩ name = some own := by
  simp [items?, h]

/-- The values of the definitions are split into the names of the children. -/
theorem words_definitionSection (h : ∀ d ∈ ds, ∀ child ∈ d.2, Text.IsWord child) :
    ((trimmed (definitionSection ds).2).map fun o =>
      (o.1, (Text.words o.2.toList).map String.ofList)) = ds := by
  rw [trimmed, definitionSection, List.map_map, List.map_map]
  refine (List.map_congr_left fun d hd => ?_).trans (List.map_id ds)
  dsimp only [Function.comp_apply]
  rw [String.toList_ofList, Text.words_trim, Text.words_intercalate (h d hd)]
  rfl

/-- A document with both sections makes up the registry of the definitions. -/
theorem registry_of_sections {sections : List (String × Options)} (h : Presentable root ds)
    (hroot : sections.lookup registrySection = some (trimmed (rootSection root).2))
    (hdefinitions : sections.lookup privilegesSection = some (trimmed (definitionSection ds).2)) :
    registry ⟨[], sections⟩ = Registry.ofDeclarations ds.declarations (.text root) := by
  have hvalue : value? ⟨[], sections⟩ registrySection rootOption = some root := by
    rw [value?, items?_of_lookup hroot, Option.bind_some, rootSection, trimmed, List.map_singleton,
      h.root.trim_eq, String.ofList_toList]
    simp
  rw [registry, Document.root, hvalue, Option.getD_some, privileges, items,
    items?_of_lookup hdefinitions, Option.getD_some, words_definitionSection h.children,
    Definitions.declarations]

theorem registry_of_presents (h : Presentable root ds) (htext : Presents text root ds) :
    (parse text).bind registry = Registry.ofDeclarations ds.declarations (.text root) := by
  obtain ⟨sections, hsections, hroot, hdefinitions, hlines⟩ := htext
  have hlookup : ∀ s ∈ sections,
      (sections.map fun s => (s.1, trimmed s.2)).lookup s.1 = some (trimmed s.2) := by
    intro s hs
    refine lookup_eq_some_of_mem ?_ (List.mem_map_of_mem hs)
    rw [List.map_map]
    exact hsections.nodup
  rw [parse_of_setsOut hsections hlines]
  exact registry_of_sections h (hlookup _ hroot) (hlookup _ hdefinitions)

/-! ## Writing -/

/-- The sections of a document that is written. -/
def written (root : String) (ds : Definitions) : List (String × Options) :=
  [rootSection root, definitionSection ds]

theorem write_eq (root : String) (ds : Definitions) :
    write root ds = String.intercalate "\n" ((written root ds).flatMap linesOf) := by
  simp [write, written, rootSection, definitionSection, linesOf, Line.ofHeader, Line.ofOption,
    Function.comp_def]

/-- Names and values without other blanks than spaces make up such lines. -/
theorem spaced_of_mem_linesOf {s : String × Options} (hname : Text.Spaced s.1)
    (hoptions : ∀ o ∈ s.2, Text.Spaced o.1 ∧ Text.Spaced o.2) : ∀ l ∈ linesOf s, Text.Spaced l := by
  have hmarks : ∀ mark ∈ ["[", "]", " = "], Text.Spaced mark := by decide
  intro l hl
  rcases List.mem_cons.1 hl with rfl | hl
  · exact ((hmarks "[" (by simp)).append hname).append (hmarks "]" (by simp))
  · obtain ⟨o, ho, rfl⟩ := List.mem_map.1 hl
    obtain ⟨hkey, hvalue⟩ := hoptions o ho
    exact (hkey.append (hmarks " = " (by simp))).append hvalue

namespace Presentable

theorem writable (h : Presentable root ds) : Writable (written root ds) where
  nodup := by
    change [registrySection, privilegesSection].Nodup
    decide
  named s hs := by
    have hnamed : ∀ name ∈ [registrySection, privilegesSection],
        name ≠ "" ∧ name ≠ Reader.defaultSection := by decide
    exact hnamed s.1 (List.mem_map_of_mem hs)
  nodup_options s hs := by
    rcases List.mem_pair.1 hs with rfl | rfl
    · exact List.nodup_singleton _
    · rw [definitionSection, List.map_map]
      exact h.nodup
  options s hs o ho := by
    have hrootOption : Line.Writable rootOption := by decide
    rcases List.mem_pair.1 hs with rfl | rfl
    · obtain rfl := List.mem_singleton.1 ho
      exact hrootOption
    · obtain ⟨d, hd, rfl⟩ := List.mem_map.1 ho
      exact h.names d.1 (List.mem_map_of_mem hd)

/-- What is written on a line has spaces only. -/
theorem spaced (h : Presentable root ds) :
    ∀ l ∈ (written root ds).flatMap linesOf, Text.Spaced l := by
  have hnames : ∀ name ∈ [registrySection, privilegesSection, rootOption, " "],
      Text.Spaced name := by decide
  intro l hl
  obtain ⟨s, hs, hl⟩ := List.mem_flatMap.1 hl
  rcases List.mem_pair.1 hs with rfl | rfl
  · refine spaced_of_mem_linesOf (hnames registrySection (by simp)) (fun o ho => ?_) l hl
    obtain rfl := List.mem_singleton.1 ho
    exact ⟨hnames rootOption (by simp), h.root.spaced⟩
  · refine spaced_of_mem_linesOf (hnames privilegesSection (by simp)) (fun o ho => ?_) l hl
    obtain ⟨d, hd, rfl⟩ := List.mem_map.1 ho
    refine ⟨(h.names d.1 (List.mem_map_of_mem hd)).spaced, ?_⟩
    exact Text.spaced_intercalate (hnames " " (by simp)) fun child hchild =>
      (h.children d hd child hchild).spaced

end Presentable

theorem presents_write (h : Presentable root ds) : Presents (write root ds) root ds := by
  refine ⟨written root ds, h.writable, List.mem_cons_self, by simp [written], ?_⟩
  rw [write_eq]
  refine setsOut_intercalate h.writable (by simp [written]) fun l hl hbreak => ?_
  exact absurd (h.spaced l hl _ hbreak (by decide)) (by decide)

/-- In a file, line breaks are found where they were written. -/
theorem normalBreaks_of_forall {cs : List Char} (h : '\r' ∉ cs) : normalBreaks cs = cs := by
  fun_induction normalBreaks cs with
  | case1 cs ih => exact absurd List.mem_cons_self h
  | case2 cs hcs ih => exact absurd List.mem_cons_self h
  | case3 c cs hpair hreturn ih => rw [ih fun hmem => h (List.mem_cons_of_mem _ hmem)]
  | case4 => rfl

theorem ofFile_write (h : Presentable root ds) :
    ofFile (some (write root ds)) = parse (write root ds) := by
  have hreturn : '\r' ∉ (write root ds).toList := by
    rw [write_eq]
    intro hmem
    rcases Text.mem_intercalate hmem with hmem | ⟨l, hl, hmem⟩
    · exact absurd hmem (by decide)
    · exact absurd (h.spaced l hl _ hmem (by decide)) (by decide)
  rw [ofFile, normalBreaks_of_forall hreturn, String.ofList_toList]

/-! ## Main result -/

/-- A text of a root and definitions makes up the same registry as these do, however the names of
    the children are given, or is refused for the same reason. A document that is written is such
    a text, and remains one in a file. -/
theorem registry_eq_ofData {data : List (String × Datum)} (h : Presentable root ds)
    (hdata : List.Forall₂ (fun d decl => d.1 = decl.1 ∧ d.2.Lists decl.2) data ds) :
    (∀ text, Presents text root ds →
        (parse text).bind registry = Registry.ofData data (.text root)) ∧
      Presents (write root ds) root ds ∧
      (ofFile (some (write root ds))).bind registry = Registry.ofData data (.text root) := by
  have hall (text : String) (htext : Presents text root ds) :
      (parse text).bind registry = Registry.ofData data (.text root) := by
    rw [registry_of_presents h htext, Registry.ofData_eq_ofDeclarations hdata]
  refine ⟨hall, presents_write h, ?_⟩
  rw [ofFile_write h]
  exact hall _ (presents_write h)

/-- Definitions whose names have colons, capitals, percent signs and semicolons. -/
def appDefinitions : Definitions :=
  [("app:Read", []), ("app:100%", []), ("APP:all;", ["app:Read", "app:100%"])]

/-- The same definitions, with the children given in three ways. -/
def appData : List (String × Datum) :=
  [("app:Read", .null), ("app:100%", .list []), ("APP:all;", .text "app:Read  app:100%")]

/-- A text of them, with comments and blank lines, and the root at the end. -/
def appText : String :=
  "; what an application asks for\n[privileges]\napp:Read =\n\n  # nothing is below\n" ++
    "app:100% = \nAPP:all; = app:Read app:100%\n\n[registry]\nroot = APP:all;\n"

theorem presentable_appDefinitions : Presentable "APP:all;" appDefinitions where
  root := by decide
  nodup := by decide
  names := by decide
  children := by decide

theorem presents_appText : Presents appText "APP:all;" appDefinitions := by
  refine ⟨[definitionSection appDefinitions, rootSection "APP:all;"],
    presentable_appDefinitions.writable.perm (.swap _ _ _), by simp, by simp, ?_⟩
  unfold SetsOut
  decide +kernel

/-- They make up the same registry, with the definitions in their order. -/
theorem registry_eq_ofData_app :
    Presentable "APP:all;" appDefinitions ∧
      List.Forall₂ (fun d decl => d.1 = decl.1 ∧ d.2.Lists decl.2) appData appDefinitions ∧
      Presents appText "APP:all;" appDefinitions ∧
      (parse appText).bind registry = Registry.ofData appData (.text "APP:all;") ∧
      ((parse appText).bind registry).toOption.map (fun r => r.privileges.map fun p =>
        (p.id, p.children)) = some appDefinitions := by
  have hdata : List.Forall₂ (fun d decl => d.1 = decl.1 ∧ d.2.Lists decl.2) appData
      appDefinitions :=
    .cons ⟨rfl, .none⟩ (.cons ⟨rfl, .names []⟩ (.cons ⟨rfl, .words "app:Read  app:100%"⟩ .nil))
  obtain ⟨hall, _⟩ := registry_eq_ofData presentable_appDefinitions hdata
  exact ⟨presentable_appDefinitions, hdata, presents_appText, hall _ presents_appText,
    by decide +kernel⟩

end Document

end AccessControl
