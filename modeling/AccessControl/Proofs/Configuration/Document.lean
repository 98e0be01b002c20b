import AccessControl.Configuration.Document
import AccessControl.Proofs.Text.Blank
import Mathlib.Data.List.Nodup

/-!
# Documents that are set out plainly

A document is set out plainly if every header and every option has a line of its own, which is
not indented. There may be blank lines and comments between these lines, and blanks at their
ends. Such a document is read back: the sections and their options come in the order of the
lines, each value without the blanks around it.

A blank line below an option is taken for a part of its value, as the value may still go on. So
while lines are read, values are known only as far as the blanks at their ends do not count
(`Reader.Has`).

* `Document.SetsOut`: the text of plain sections;
* `Reader.Has`: the sections that have been read;
* `Reader.Has.pass`, `Reader.Has.readHeader`, `Reader.Has.readOption`: what a line adds to them;
* `Reader.Has.exists_readSections`: reading section by section;
* `Document.parse_of_setsOut`: a document is read back.
-/

namespace AccessControl

variable {name key : String} {line : List Char} {lines : List (List Char)}

/-! ## Lines -/

namespace Line

/-- A line that is neither blank nor a comment: its indentation, and its text without the blanks
    around it. -/
def content? (cs : List Char) : Option (Nat × List Char) :=
  match ofText cs with
  | content indent text => some (indent, text)
  | _ => none

/-- The content of a line that is not indented. -/
def plain (line : String) : Nat × List Char := (0, Text.trim line.toList)

/-- The line of a section. -/
def ofHeader (name : String) : String := "[" ++ name ++ "]"

/-- The line of an option. -/
def ofOption (o : String × String) : String := o.1 ++ " = " ++ o.2

/-- A name that an option can be given: a word without equals sign that does not look like
    a comment or a header. -/
structure Writable (name : String) : Prop extends Text.IsWord name where
  /-- No part of it can be taken for a value. -/
  noEquals : '=' ∉ name.toList
  /-- It does not start as a comment or a header does. -/
  head : ∀ c ∈ name.toList.head?, c ∉ ['#', ';', '[']

instance (name : String) : Decidable (Writable name) :=
  decidable_of_iff (Text.IsWord name ∧ '=' ∉ name.toList ∧
      name.toList.head?.all fun c => c ∉ ['#', ';', '['])
    ⟨fun ⟨hword, hequals, hhead⟩ => ⟨hword, hequals, by simpa [Option.all_eq_true] using hhead⟩,
      fun h => ⟨h.toIsWord, h.noEquals, by simpa [Option.all_eq_true] using h.head⟩⟩

theorem trim_ofHeader (name : String) :
    Text.trim (ofHeader name).toList = '[' :: name.toList ++ [']'] := by
  have hline : (ofHeader name).toList = ('[' :: name.toList) ++ ']' :: [] := by simp [ofHeader]
  rw [hline, List.cons_append, Text.trim_eq_trimRight (by decide), ← List.cons_append,
    Text.trimRight_append_cons (by decide)]
  rfl

/-- A header is read as the name between the brackets. -/
theorem header?_ofHeader (hname : name ≠ "") :
    header? (Text.trim (ofHeader name).toList) = some name.toList := by
  have hrev : name.toList.reverse ≠ [] := by simpa using hname
  obtain ⟨c, cs, hcs⟩ := List.exists_cons_of_ne_nil hrev
  have hback : name.toList = (c :: cs).reverse := by rw [← hcs, List.reverse_reverse]
  rw [trim_ofHeader, hback]
  simp [header?]

theorem exists_head (hkey : Writable key) :
    ∃ c cs, key.toList = c :: cs ∧ Text.isBlank c = false ∧ c ∉ ['#', ';', '['] := by
  obtain ⟨c, cs, hcs⟩ := List.exists_cons_of_ne_nil hkey.toList_ne_nil
  exact ⟨c, cs, hcs, hkey.isBlank_eq c (by simp [hcs]), hkey.head c (by simp [hcs])⟩

/-- Of the line of an option, only what follows the equals sign can end in blanks. -/
theorem trim_ofOption (hkey : Writable key) (value : String) :
    Text.trim (ofOption (key, value)).toList =
      (key.toList ++ [' ']) ++ '=' :: Text.trimRight (' ' :: value.toList) := by
  obtain ⟨c, cs, hcs, hc, _⟩ := exists_head hkey
  have hline : (ofOption (key, value)).toList =
      (key.toList ++ [' ']) ++ '=' :: (' ' :: value.toList) := by simp [ofOption]
  have hstart (rest : List Char) : key.toList ++ [' '] ++ rest = c :: (cs ++ ' ' :: rest) := by
    simp [hcs]
  rw [hline, hstart, Text.trim_eq_trimRight hc, ← hstart, Text.trimRight_append_cons (by decide)]

theorem header?_ofOption (hkey : Writable key) (value : String) :
    header? (Text.trim (ofOption (key, value)).toList) = none := by
  obtain ⟨c, cs, hcs, _, hc⟩ := exists_head hkey
  have hne : c ≠ '[' := fun heq => hc (by simp [heq])
  rw [trim_ofOption hkey, hcs]
  simp [header?, hne]

/-- An option is read as its name and its value without the blanks around it. -/
theorem option?_ofOption (hkey : Writable key) (value : String) :
    option? (Text.trim (ofOption (key, value)).toList) =
      some (key.toList, Text.trim value.toList) := by
  have hbefore : ∀ c ∈ key.toList ++ [' '], (c != '=') = true := by
    intro c hc
    rcases List.mem_append.1 hc with hc | hc
    · exact bne_iff_ne.2 fun heq => hkey.noEquals (heq ▸ hc)
    · rw [List.mem_singleton.1 hc]
      decide
  rw [trim_ofOption hkey, option?, List.dropWhile_append_of_pos hbefore,
    List.takeWhile_append_of_pos hbefore, List.dropWhile_cons_of_neg (by decide),
    List.takeWhile_cons_of_neg (by decide), List.append_nil, Text.trimRight_concat (by decide),
    hkey.trimRight_eq]
  simp only [Text.trim_trimRight, Text.trim_cons (show Text.isBlank ' ' = true by decide)]

/-- A line is plain if it starts with a character that is not blank and marks no comment. -/
theorem content?_eq_plain {s : String} {c : Char} {cs : List Char} (hs : s.toList = c :: cs)
    (hc : Text.isBlank c = false) (hmark : c ∉ ['#', ';']) :
    content? s.toList = some (plain s) := by
  have htrim : Text.trim (c :: cs) = c :: Text.trimRight cs := by
    rw [Text.trim_eq_trimRight hc]
    exact Text.trimRight_append_cons hc [] cs
  have hcomment : (c == '#' || c == ';') = false := by simpa using hmark
  have hindent : (c :: cs).takeWhile Text.isBlank = [] := by simp [hc]
  rw [plain, hs, content?, ofText, htrim]
  dsimp only
  rw [hcomment, hindent]
  rfl

theorem content?_ofHeader (name : String) :
    content? (ofHeader name).toList = some (plain (ofHeader name)) := by
  have hstart : (ofHeader name).toList = '[' :: (name.toList ++ [']']) := by simp [ofHeader]
  exact content?_eq_plain hstart (by decide) (by decide)

theorem content?_ofOption (hkey : Writable key) (value : String) :
    content? (ofOption (key, value)).toList = some (plain (ofOption (key, value))) := by
  obtain ⟨c, cs, hcs, hc, hmark⟩ := exists_head hkey
  have hstart : (ofOption (key, value)).toList =
      c :: (cs ++ ' ' :: '=' :: ' ' :: value.toList) := by simp [ofOption, hcs]
  exact content?_eq_plain hstart hc fun hmem => hmark (List.mem_append_left ['['] hmem)

end Line

/-! ## What has been read -/

namespace Document

/-- Values without the blanks around them. -/
def trimmed (options : Options) : Options :=
  options.map fun o => (o.1, String.ofList (Text.trim o.2.toList))

theorem names_trimmed (options : Options) :
    (trimmed options).map Prod.fst = options.map Prod.fst := by
  rw [trimmed, List.map_map]
  rfl

/-- An empty line at the end of a value does not count. -/
theorem valueOf_concat_nil (lines : List (List Char)) :
    valueOf (lines ++ [[]]) = valueOf lines := by
  cases lines with
  | nil => rfl
  | cons l ls =>
    have hbreak : List.intercalate ['\n'] (l :: ls ++ [[]]) =
        List.intercalate ['\n'] (l :: ls) ++ ['\n'] := by
      induction ls generalizing l with
      | nil => simp
      | cons m ms ih => simpa using ih m
    rw [valueOf, hbreak, Text.trimRight_concat (by decide), valueOf]

end Document

open Document

namespace Reader

variable {r : Reader} {sections : List (String × Options)} {options : Options}

/-- What a reader has read of a document without defaults: some sections, which end with the one
    that options are added to. All lines were well formed, and none of them was indented. -/
structure Has (r : Reader) (sections : List (String × Options)) : Prop where
  /-- The sections, with values that the blanks at their ends do not count for. -/
  sections_eq : r.allSections.map (fun s => (s.1, optionsOf s.2)) = sections
  /-- Without a last section there is none. -/
  first : r.last = none → r.sections = []
  /-- Options are added to the last section, if there is one. -/
  current_eq : r.current = r.last.map fun _ => false
  /-- There are no defaults. -/
  defaults_eq : r.defaults = []
  /-- The last option was not indented. -/
  indent_eq : r.indent = 0
  /-- No line was malformed. -/
  wellFormed : r.isMalformed = false

theorem has_start : start.Has [] where
  sections_eq := rfl
  first _ := rfl
  current_eq := rfl
  defaults_eq := rfl
  indent_eq := rfl
  wellFormed := rfl

namespace Has

/-- Options are added to the last section, … -/
theorem current_eq_of_last (h : r.Has sections) {s : String × OptionLines}
    (hlast : r.last = some s) : r.current = some false := by
  rw [h.current_eq, hlast]
  rfl

theorem options_eq_of_last (h : r.Has sections) {s : String × OptionLines}
    (hlast : r.last = some s) : r.options = s.2 := by
  simp [Reader.options, h.current_eq_of_last hlast, hlast]

/-- … which is the last one that has been read. -/
theorem exists_last (h : r.Has (sections ++ [(name, options)])) :
    ∃ own, r.last = some (name, own) ∧ optionsOf own = options ∧
      r.sections.map (fun s => (s.1, optionsOf s.2)) = sections ∧ r.options = own := by
  have hsections := h.sections_eq
  cases hlast : r.last with
  | none =>
    rw [allSections, hlast, h.first hlast] at hsections
    simp at hsections
  | some s =>
    rw [allSections, hlast, List.map_append] at hsections
    obtain ⟨hbefore, hown⟩ := List.append_inj' hsections rfl
    obtain ⟨rfl, rfl⟩ := Prod.mk.inj (List.singleton_inj.1 hown)
    exact ⟨s.2, rfl, rfl, hbefore, h.options_eq_of_last hlast⟩

/-- Other options in the last section. -/
theorem withOptions {new : OptionLines} {options' : Options}
    (h : r.Has (sections ++ [(name, options)])) (hnew : optionsOf new = options') :
    (r.withOptions new).Has (sections ++ [(name, options')]) := by
  obtain ⟨own, hlast, _, hbefore, _⟩ := h.exists_last
  have hcurrent := h.current_eq_of_last hlast
  have hwith : r.withOptions new = { r with last := some (name, new) } := by
    simp [Reader.withOptions, hcurrent, hlast]
  rw [hwith]
  refine ⟨?_, fun hnone => (by cases hnone), hcurrent, h.defaults_eq, h.indent_eq, h.wellFormed⟩
  rw [allSections, List.map_append, hbefore, ← hnew]
  rfl

/-- A blank line below an option does not count. -/
theorem continueValue (h : r.Has sections) : (r.continueValue []).Has sections := by
  rw [Reader.continueValue.eq_def]
  split
  next key lines hvalue =>
    obtain ⟨before, hown⟩ := List.getLast?_eq_some_iff.1 hvalue
    cases hlast : r.last with
    | none =>
      -- Before the first header there are no options.
      rw [Reader.options, h.current_eq, hlast, Option.map_none, if_neg (by simp)] at hown
      exact absurd hown.symm (by simp)
    | some s =>
      have hoptions := h.options_eq_of_last hlast
      have hsame : optionsOf (r.options.dropLast ++ [(key, lines ++ [[]])]) = optionsOf s.2 := by
        rw [← hoptions, hown, List.dropLast_concat]
        simp [optionsOf, valueOf_concat_nil]
      have hsections : sections =
          r.sections.map (fun s => (s.1, optionsOf s.2)) ++ [(s.1, optionsOf s.2)] := by
        rw [← h.sections_eq, allSections, hlast, List.map_append]
        rfl
      rw [hsections] at h ⊢
      exact h.withOptions hsame
  next => exact h

/-- A line that is blank or a comment makes no difference. -/
theorem pass (h : r.Has sections) (hline : Line.content? line = none) :
    ∃ r', r.read line = .ok r' ∧ r'.Has sections := by
  rw [Line.content?] at hline
  rw [read]
  cases hkind : Line.ofText line with
  | blank =>
    refine ⟨_, rfl, ?_⟩
    split
    · exact h.continueValue
    · exact h
  | comment => exact ⟨r, rfl, h⟩
  | content indent text =>
    rw [hkind] at hline
    cases hline

/-- A line that is not indented is no continuation. -/
theorem read_plain {s : String} (h : r.Has sections)
    (hline : Line.content? line = some (Line.plain s)) :
    r.read line = r.readContent (Text.trim s.toList) := by
  rw [Line.content?.eq_def] at hline
  split at hline
  next indent text hkind =>
    obtain ⟨rfl, rfl⟩ := Prod.mk.inj (Option.some.inj hline)
    have hindent : { r with indent := 0 } = r := by rw [← h.indent_eq]
    simp [read, hkind, hindent]
  next => cases hline

theorem readHeader (h : r.Has sections)
    (hline : Line.content? line = some (Line.plain (Line.ofHeader name))) (hne : name ≠ "")
    (hdefault : name ≠ defaultSection) (hnew : name ∉ sections.map Prod.fst) :
    ∃ r', r.read line = .ok r' ∧ r'.Has (sections ++ [(name, [])]) := by
  have hopen : r.allSections.any (fun s => s.1 == name) = false := by
    refine List.any_eq_false.2 fun s hs heq => hnew ?_
    rw [← h.sections_eq, List.map_map]
    exact List.mem_map.2 ⟨s, hs, beq_iff_eq.1 heq⟩
  rw [h.read_plain hline, readContent, Line.header?_ofHeader hne]
  dsimp only
  rw [String.ofList_toList, openSection, hopen, if_neg (by simp), if_neg hdefault]
  refine ⟨_, rfl, ?_, fun hnone => (by cases hnone), rfl, h.defaults_eq, h.indent_eq, h.wellFormed⟩
  rw [allSections, List.map_append, h.sections_eq]
  rfl

theorem readOption {o : String × String} (h : r.Has (sections ++ [(name, options)]))
    (hline : Line.content? line = some (Line.plain (Line.ofOption o)))
    (hkey : Line.Writable o.1) (hnew : o.1 ∉ options.map Prod.fst) :
    ∃ r', r.read line = .ok r' ∧ r'.Has (sections ++ [(name, options ++ trimmed [o])]) := by
  obtain ⟨own, hlast, hown, _, hoptions⟩ := h.exists_last
  have hcurrent := h.current_eq_of_last hlast
  have hfree : own.any (fun o' => o'.1 == o.1) = false := by
    refine List.any_eq_false.2 fun o' ho' heq => hnew ?_
    rw [← hown, optionsOf, List.map_map]
    exact List.mem_map.2 ⟨o', ho', beq_iff_eq.1 heq⟩
  have hadded : optionsOf (own ++ [(o.1, [Text.trim o.2.toList])]) = options ++ trimmed [o] := by
    rw [← hown]
    simp [optionsOf, trimmed, valueOf, Text.trimRight_trim]
  have hhas := h.withOptions hadded
  have hnamed : o.1.toList.isEmpty = false := by simpa using hkey.ne_empty
  rw [h.read_plain hline, readContent, Line.header?_ofOption hkey, hcurrent]
  dsimp only
  rw [Option.isNone_some, if_neg (by simp), Line.option?_ofOption hkey]
  dsimp only
  rw [addOption, String.ofList_toList, hoptions, hfree, if_neg (by simp), hnamed]
  exact ⟨_, rfl, hhas.sections_eq, hhas.first, hhas.current_eq, hhas.defaults_eq, hhas.indent_eq,
    by simp [h.wellFormed]⟩

/-! ## Reading to the end -/

theorem exists_pass (h : r.Has sections) (hlines : ∀ line ∈ lines, Line.content? line = none) :
    ∃ r', lines.foldlM read r = .ok r' ∧ r'.Has sections := by
  induction lines generalizing r with
  | nil => exact ⟨r, rfl, h⟩
  | cons line lines ih =>
    obtain ⟨mid, hmid, hhas⟩ := h.pass (hlines line List.mem_cons_self)
    rw [List.foldlM_cons, hmid]
    exact ih hhas fun line hline => hlines line (List.mem_cons_of_mem _ hline)

/-- What has a content is read, once what comes before it has been passed over. -/
theorem exists_of_pass {before after : List (List Char)} {sections' : List (String × Options)}
    (h : r.Has sections) (hbefore : ∀ line ∈ before, Line.content? line = none)
    (hafter : ∀ r : Reader, r.Has sections →
      ∃ r', (line :: after).foldlM read r = .ok r' ∧ r'.Has sections') :
    ∃ r', (before ++ line :: after).foldlM read r = .ok r' ∧ r'.Has sections' := by
  obtain ⟨mid, hmid, hhas⟩ := h.exists_pass hbefore
  rw [List.foldlM_append, hmid]
  exact hafter mid hhas

theorem exists_readOptions {added : Options} (h : r.Has (sections ++ [(name, options)]))
    (hlines : lines.filterMap Line.content? = added.map fun o => Line.plain (Line.ofOption o))
    (hkeys : ∀ o ∈ added, Line.Writable o.1) (hnodup : ((options ++ added).map Prod.fst).Nodup) :
    ∃ r', lines.foldlM read r = .ok r' ∧
      r'.Has (sections ++ [(name, options ++ trimmed added)]) := by
  induction added generalizing r lines options with
  | nil =>
    rw [trimmed, List.map_nil, List.append_nil]
    exact h.exists_pass (List.filterMap_eq_nil_iff.1 hlines)
  | cons o added ih =>
    obtain ⟨before, line, after, rfl, hbefore, hline, hafter⟩ :=
      List.filterMap_eq_cons_iff.1 hlines
    refine h.exists_of_pass hbefore fun r h => ?_
    have hnew : o.1 ∉ options.map Prod.fst := by
      rw [List.map_append, List.map_cons, List.nodup_append] at hnodup
      exact fun hmem => hnodup.2.2 _ hmem _ List.mem_cons_self rfl
    obtain ⟨mid, hmid, hhas⟩ := h.readOption hline (hkeys o List.mem_cons_self) hnew
    have hnodup' : ((options ++ trimmed [o] ++ added).map Prod.fst).Nodup := by
      rw [List.append_assoc, List.map_append, List.map_append, names_trimmed]
      simpa using hnodup
    obtain ⟨r', hr', hhas'⟩ :=
      ih hhas hafter (fun o ho => hkeys o (List.mem_cons_of_mem _ ho)) hnodup'
    rw [List.foldlM_cons, hmid]
    refine ⟨r', hr', ?_⟩
    rwa [List.append_assoc, trimmed, trimmed, ← List.map_append] at hhas'

end Has

end Reader

/-! ## Main result -/

namespace Document

variable {text : String} {sections : List (String × Options)}

/-- The lines of a section. -/
def linesOf (s : String × Options) : List String := Line.ofHeader s.1 :: s.2.map Line.ofOption

/-- The text sets out sections: apart from blank lines and comments, and from the blanks at their
    ends, its lines are those of the sections, one after the other. -/
def SetsOut (text : String) (sections : List (String × Options)) : Prop :=
  (text.toList.splitOn '\n').filterMap Line.content? = (sections.flatMap linesOf).map Line.plain

/-- Sections that can be set out: they are told apart by their names, and so are the options of
    each of them, whose names can be written. -/
structure Writable (sections : List (String × Options)) : Prop where
  /-- The names of the sections are different. -/
  nodup : (sections.map Prod.fst).Nodup
  /-- They are names, and none of them is that of the defaults. -/
  named : ∀ s ∈ sections, s.1 ≠ "" ∧ s.1 ≠ Reader.defaultSection
  /-- The names of the options of a section are different. -/
  nodup_options : ∀ s ∈ sections, (s.2.map Prod.fst).Nodup
  /-- They can be written. -/
  options : ∀ s ∈ sections, ∀ o ∈ s.2, Line.Writable o.1

theorem Writable.tail {s : String × Options} (h : Writable (s :: sections)) :
    Writable sections where
  nodup := (List.nodup_cons.1 h.nodup).2
  named t ht := h.named t (List.mem_cons_of_mem _ ht)
  nodup_options t ht := h.nodup_options t (List.mem_cons_of_mem _ ht)
  options t ht := h.options t (List.mem_cons_of_mem _ ht)

/-- Sections may be set out in any order. -/
theorem Writable.perm {sections' : List (String × Options)} (h : Writable sections)
    (hperm : sections.Perm sections') : Writable sections' where
  nodup := (hperm.map Prod.fst).nodup_iff.1 h.nodup
  named s hs := h.named s (hperm.mem_iff.2 hs)
  nodup_options s hs := h.nodup_options s (hperm.mem_iff.2 hs)
  options s hs := h.options s (hperm.mem_iff.2 hs)

/-- Section by section is read. -/
theorem exists_readSections {r : Reader} {done : List (String × Options)} (h : r.Has done)
    (hlines : lines.filterMap Line.content? = (sections.flatMap linesOf).map Line.plain)
    (hsections : Writable sections) (hnew : ∀ s ∈ sections, s.1 ∉ done.map Prod.fst) :
    ∃ r', lines.foldlM Reader.read r = .ok r' ∧
      r'.Has (done ++ sections.map fun s => (s.1, trimmed s.2)) := by
  induction sections generalizing r lines done with
  | nil =>
    rw [List.map_nil, List.append_nil]
    exact h.exists_pass (List.filterMap_eq_nil_iff.1 hlines)
  | cons s sections ih =>
    rw [List.flatMap_cons, linesOf, List.cons_append, List.map_cons, List.map_append] at hlines
    obtain ⟨before, line, rest, rfl, hbefore, hline, hrest⟩ := List.filterMap_eq_cons_iff.1 hlines
    obtain ⟨own, after, rfl, hown, hafter⟩ := List.filterMap_eq_append_iff.1 hrest
    refine h.exists_of_pass hbefore fun r h => ?_
    obtain ⟨hne, hdefault⟩ := hsections.named s List.mem_cons_self
    -- The header, …
    obtain ⟨mid, hmid, hhas⟩ :=
      h.readHeader hline hne hdefault (hnew s List.mem_cons_self)
    -- … the options below it, …
    rw [List.map_map] at hown
    obtain ⟨mid', hmid', hhas'⟩ := hhas.exists_readOptions hown
      (hsections.options s List.mem_cons_self) (hsections.nodup_options s List.mem_cons_self)
    -- … and the sections that follow.
    have hnew' : ∀ t ∈ sections, t.1 ∉ (done ++ [(s.1, [] ++ trimmed s.2)]).map Prod.fst := by
      intro t ht hmem
      rw [List.map_append, List.mem_append] at hmem
      rcases hmem with hmem | hmem
      · exact hnew t (List.mem_cons_of_mem _ ht) hmem
      · refine (List.nodup_cons.1 hsections.nodup).1 (List.mem_map.2 ⟨t, ht, ?_⟩)
        exact List.mem_singleton.1 hmem
    obtain ⟨r', hr', hhas''⟩ := ih hhas' hafter hsections.tail hnew'
    rw [List.foldlM_cons, hmid]
    refine ⟨r', ?_, ?_⟩
    · change (own ++ after).foldlM Reader.read mid = _
      rw [List.foldlM_append, hmid']
      exact hr'
    · rwa [List.append_assoc] at hhas''

/-- A text that sets out sections is the text of a document with these sections. -/
theorem parse_of_setsOut (hsections : Writable sections) (h : SetsOut text sections) :
    parse text = .ok ⟨[], sections.map fun s => (s.1, trimmed s.2)⟩ := by
  obtain ⟨r, hr, hhas⟩ :=
    exists_readSections Reader.has_start h hsections fun _ _ hmem => by cases hmem
  rw [List.nil_append] at hhas
  rw [parse, hr]
  change ofReader r = _
  rw [ofReader, hhas.wellFormed, hhas.defaults_eq, hhas.sections_eq]
  rfl

/-- The lines of sections make up such a text, if no value has more than one line. -/
theorem setsOut_intercalate (hsections : Writable sections) (hne : sections ≠ [])
    (hlines : ∀ l ∈ sections.flatMap linesOf, '\n' ∉ l.toList) :
    SetsOut (String.intercalate "\n" (sections.flatMap linesOf)) sections := by
  have hne' : (sections.flatMap linesOf).map String.toList ≠ [] := by
    obtain ⟨s, ss, rfl⟩ := List.exists_cons_of_ne_nil hne
    simp [linesOf]
  have hplain : ∀ l ∈ sections.flatMap linesOf, Line.content? l.toList = some (Line.plain l) := by
    intro l hl
    obtain ⟨s, hs, hl⟩ := List.mem_flatMap.1 hl
    rcases List.mem_cons.1 hl with rfl | hl
    · exact Line.content?_ofHeader s.1
    · obtain ⟨o, ho, rfl⟩ := List.mem_map.1 hl
      exact Line.content?_ofOption (hsections.options s hs o ho) o.2
  have hsplit : (String.intercalate "\n" (sections.flatMap linesOf)).toList.splitOn '\n' =
      (sections.flatMap linesOf).map String.toList := by
    rw [String.toList_intercalate]
    exact List.splitOn_intercalate '\n' (List.forall_mem_map.2 hlines) hne'
  rw [SetsOut, hsplit, List.filterMap_map, ← List.filterMap_eq_map]
  exact List.filterMap_congr hplain

end Document

end AccessControl
