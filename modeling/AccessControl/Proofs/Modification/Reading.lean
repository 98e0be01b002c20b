import AccessControl.Privilege.Catalogue
import AccessControl.Proofs.Distinct
import AccessControl.Proofs.Modification.Parameter

/-!
# Reading a request

A request is read parameter by parameter. Each of them adds to one of four collections what its
name spells, with its values, and parameters with other names add nothing. Values for the same
privilege are put one after the other, in the order of the parameters; texts that are no known
words are left out, with a warning for each.

* `PrivilegeValue.read_eq`, `DeleteValue.read_eq`: how a value is read;
* `Parameter.Adds`: what a parameter adds, on its own;
* `Modifications.joined`: what several parts of a request ask for together;
* `Modifications.ofParameters_eq`: a request asks for what its parameters add;
* `Modifications.reads_exactly`: and it can be read just if the values that count can be.
-/

namespace AccessControl

/-! ## Words -/

namespace Journal

variable {α β : Type}

theorem lift_ok_bind (a : α) (f : α → Journal β) :
    ((liftM (Except.ok a : Except Error α) : Journal α) >>= f) = f a := rfl

theorem mk_ok_bind (ws : List Warning) (a : α) (f : α → Journal β) :
    ((⟨ws, .ok a⟩ : Journal α) >>= f) = ⟨ws ++ (f a).warnings, (f a).result⟩ := rfl

/-- Remarks come in the order of the computations that make them. -/
theorem mapM_eq {f : α → Journal β} {ws : α → List Warning} {g : α → β} {as : List α}
    (h : ∀ a ∈ as, f a = ⟨ws a, .ok (g a)⟩) : as.mapM f = ⟨as.flatMap ws, .ok (as.map g)⟩ := by
  induction as with
  | nil => rfl
  | cons a as ih =>
    obtain ⟨ha, hrest⟩ := List.forall_mem_cons.1 h
    rw [List.mapM_cons, ha, ih hrest, mk_ok_bind, mk_ok_bind]
    simp [pure]

end Journal

/-- Data that can be read as a word: a text, or data that are not true. -/
def Datum.IsWord (d : Datum) : Prop := ∃ text, d.textOrEmpty = .ok text

namespace PrivilegeValue

/-- The value that a text is read as, if it is one of the known words. -/
def ofText? (text : String) : Option PrivilegeValue := ofWord? (normalWord text)

/-- The value that data are read as, if they hold one of the known words. -/
def ofDatum? (d : Datum) : Option PrivilegeValue := d.textOrEmpty.toOption.bind ofText?

theorem read_eq {d : Datum} {text : String} (h : d.textOrEmpty = .ok text) :
    read d =
      ⟨if (ofDatum? d).isSome then [] else [.ignoredPrivilegeValue d], .ok (ofDatum? d)⟩ := by
  rw [read, ofDatum?, h, Journal.lift_ok_bind, Except.toOption, Option.bind_some, ofText?]
  cases ofWord? (normalWord text) <;> rfl

theorem result_read {d : Datum} {text : String} (h : d.textOrEmpty = .ok text) :
    (read d).result = .ok (ofDatum? d) :=
  congrArg Journal.result (read_eq h)

theorem result_read_text (text : String) : (read (.text text)).result = .ok (ofText? text) := by
  have hword : (Datum.text text).textOrEmpty = .ok text := rfl
  rw [result_read hword, ofDatum?, hword, Except.toOption, Option.bind_some]

theorem isWord_of_read {d : Datum} {o : Option PrivilegeValue} (h : (read d).result = .ok o) :
    d.IsWord := by
  obtain ⟨text, htext, _⟩ := Journal.exists_of_result_bind h
  exact ⟨text, htext⟩

end PrivilegeValue

namespace DeleteValue

/-- The value that data are read as, if they hold one of the known words. -/
def ofDatum? (d : Datum) : Option DeleteValue :=
  d.textOrEmpty.toOption.bind fun text => ofWord? (normalWord text)

theorem read_eq {d : Datum} {text : String} (h : d.textOrEmpty = .ok text) :
    read d = ⟨if (ofDatum? d).isSome then [] else [.ignoredDeleteValue d], .ok (ofDatum? d)⟩ := by
  rw [read, ofDatum?, h, Journal.lift_ok_bind, Except.toOption, Option.bind_some]
  cases ofWord? (normalWord text) <;> rfl

theorem isWord_of_read {d : Datum} {o : Option DeleteValue} (h : (read d).result = .ok o) :
    d.IsWord := by
  obtain ⟨text, htext, _⟩ := Journal.exists_of_result_bind h
  exact ⟨text, htext⟩

end DeleteValue

/-- If several values are read, each of them is a word. -/
theorem Modifications.isWord_of_readAll {α : Type} {read : Datum → Journal (Option α)}
    {values : List Datum} {vs : List α}
    (hread : ∀ {v o}, (read v).result = .ok o → v.IsWord)
    (h : (readAll read values).result = .ok vs) : ∀ v ∈ values, v.IsWord := by
  intro v hv
  obtain ⟨os, hos, _⟩ := Journal.exists_of_result_bind h
  rw [Journal.result_mapM] at hos
  obtain ⟨o, _, ho⟩ := (corresponds_of_mapM hos).forth v hv
  exact hread ho

theorem Modifications.readAll_eq {α : Type} {read : Datum → Journal (Option α)}
    {value? : Datum → Option α} {ignored : Datum → Warning} {values : List Datum}
    (h : ∀ v ∈ values, read v = ⟨if (value? v).isSome then [] else [ignored v], .ok (value? v)⟩) :
    readAll read values =
      ⟨(values.filter fun v => (value? v).isNone).map ignored, .ok (values.filterMap value?)⟩ := by
  have hignored : (values.flatMap fun v => if (value? v).isSome then [] else [ignored v]) =
      (values.filter fun v => (value? v).isNone).map ignored := by
    clear h
    induction values with
    | nil => rfl
    | cons v values ih => cases hv : value? v <;> simp [hv, ih]
  have hkept (os : List (Option α)) : os.reduceOption = os.filterMap id := rfl
  rw [readAll, Journal.mapM_eq h, hignored, Journal.mk_ok_bind, hkept, List.filterMap_map]
  exact congrArg (Journal.mk · _) (List.append_nil _)

theorem Modifications.readAll_privilegeValues {values : List Datum}
    (h : ∀ v ∈ values, v.IsWord) : readAll PrivilegeValue.read values =
      ⟨(values.filter fun v => (PrivilegeValue.ofDatum? v).isNone).map .ignoredPrivilegeValue,
        .ok (values.filterMap PrivilegeValue.ofDatum?)⟩ :=
  readAll_eq fun v hv => by
    obtain ⟨_, htext⟩ := h v hv
    exact PrivilegeValue.read_eq htext

theorem Modifications.readAll_deleteValues {values : List Datum}
    (h : ∀ v ∈ values, v.IsWord) : readAll DeleteValue.read values =
      ⟨(values.filter fun v => (DeleteValue.ofDatum? v).isNone).map .ignoredDeleteValue,
        .ok (values.filterMap DeleteValue.ofDatum?)⟩ :=
  readAll_eq fun v hv => by
    obtain ⟨_, htext⟩ := h v hv
    exact DeleteValue.read_eq htext

/-! ## What a parameter adds -/

namespace Modifications

/-- How much there is in the four collections. -/
def size (m : Modifications) : Nat :=
  m.privileges.length + m.privilegeDeletes.length + m.restrictions.length +
    m.restrictionDeletes.length

/-- The names of some pairs, each once, with all that goes with it. -/
def grouped {α : Type} (l : List (String × List α)) : List (String × List α) :=
  (l.map Prod.fst).eraseDups.map fun name => (name, (l.filter fun q => q.1 == name).flatMap Prod.snd)

/-- What the parts of a request ask for together: values for the same privilege one after the
    other, and whatever there is of restrictions. -/
def joined (parts : List Modifications) : Modifications where
  privileges := grouped (parts.flatMap privileges)
  privilegeDeletes := grouped (parts.flatMap privilegeDeletes)
  restrictions := parts.flatMap restrictions
  restrictionDeletes := parts.flatMap restrictionDeletes

end Modifications

/-- What one parameter adds to a request. -/
structure Contribution where
  /-- What it asks for. -/
  asked : Modifications
  /-- The warnings for those of its values that are left out. -/
  ignored : List Warning

namespace Parameter

/-- Whether the values of a parameter have to be known words. -/
def takesWords : Parameter → Bool
  | privilege _ | privilegeDelete _ | restrictionDeleteOf _ _ => true
  | restriction _ | restrictionOf _ _ _ | restrictionDelete _ => false

/-- What a parameter adds with some values, on its own. -/
def contribution (p : Parameter) (values : List Datum) : Contribution :=
  let privilegeValues := values.filterMap PrivilegeValue.ofDatum?
  let deleteValues := values.filterMap DeleteValue.ofDatum?
  let notPrivilegeValues := values.filter fun v => (PrivilegeValue.ofDatum? v).isNone
  let notDeleteValues := values.filter fun v => (DeleteValue.ofDatum? v).isNone
  match p with
  | privilege x => ⟨{ Modifications.empty with privileges := [(x, privilegeValues)] },
      notPrivilegeValues.map .ignoredPrivilegeValue⟩
  | privilegeDelete x => ⟨{ Modifications.empty with privilegeDeletes := [(x, deleteValues)] },
      notDeleteValues.map .ignoredDeleteValue⟩
  | restrictionDeleteOf a b =>
    ⟨{ Modifications.empty with restrictionDeletes := [⟨some a, b, deleteValues⟩] },
      notDeleteValues.map .ignoredDeleteValue⟩
  | restrictionDelete a =>
    ⟨{ Modifications.empty with restrictionDeletes := [⟨none, a, [.all]⟩] }, []⟩
  | restrictionOf a b e =>
    ⟨{ Modifications.empty with restrictions := [⟨some (a, e), b, values⟩] }, []⟩
  | restriction a => ⟨{ Modifications.empty with restrictions := [⟨none, a, values⟩] }, []⟩

/-- What a parameter adds, given by its name and its values. -/
inductive Adds : String × Datum → Contribution → Prop
  | spelled {name : String} {value : Datum} {p : Parameter} {values : List Datum} :
    Spells name p → value.values = .ok values → Adds (name, value) (p.contribution values)
  /-- A name that spells nothing is ignored. -/
  | other {name : String} {value : Datum} : (∀ p, ¬Spells name p) →
    Adds (name, value) ⟨.empty, []⟩

/-- A parameter whose values can be read, as far as they have to be words. -/
def Readable (q : String × Datum) : Prop :=
  ∃ values, q.2.values = .ok values ∧
    ∀ p, Spells q.1 p → p.takesWords = true → ∀ v ∈ values, v.IsWord

theorem size_contribution (p : Parameter) (values : List Datum) :
    (p.contribution values).asked.size = 1 := by
  cases p <;> rfl

end Parameter

namespace Modifications

variable {α : Type} {name : String} {values : List α} {l : List (String × List α)}

/-! ## Grouping -/

/-- Values of a name that is new come last. -/
theorem extend_of_notMem (h : name ∉ l.map Prod.fst) :
    extend name values l = l ++ [(name, values)] := by
  induction l with
  | nil => rfl
  | cons a l ih =>
    rw [List.map_cons, List.mem_cons, not_or] at h
    rw [extend, if_neg (Ne.symm h.1), ih h.2, List.cons_append]

/-- Values are added to those of a name that is there once. -/
theorem extend_map {names : List String} (hnodup : names.Nodup) (hname : name ∈ names)
    (f : String → List α) : extend name values (names.map fun n => (n, f n)) =
      names.map fun n => (n, f n ++ if n = name then values else []) := by
  induction names with
  | nil => cases hname
  | cons n names ih =>
    rw [List.nodup_cons] at hnodup
    rw [List.map_cons, List.map_cons, extend]
    split
    next hn =>
      -- The names that follow are different.
      refine congrArg _ (List.map_congr_left fun n' hn' => ?_)
      have hne : n' ≠ name := fun h => hnodup.1 (hn ▸ h ▸ hn')
      rw [if_neg hne, List.append_nil]
    next hn =>
      rw [List.append_nil, ih hnodup.2 ((List.mem_cons.1 hname).resolve_left (Ne.symm hn))]

theorem map_fst_grouped (l : List (String × List α)) :
    (grouped l).map Prod.fst = (l.map Prod.fst).eraseDups := by
  rw [grouped, List.map_map]
  exact List.map_id _

theorem eraseDups_append_singleton (names : List String) (name : String) :
    (names ++ [name]).eraseDups =
      if name ∈ names then names.eraseDups else names.eraseDups ++ [name] := by
  rw [List.eraseDups_append, List.removeAll]
  split
  next h => simp [h]
  next h => simp [h, List.eraseDups_cons]

/-- Values of one more pair come after those of its name, or last. -/
theorem extend_grouped (name : String) (values : List α) (l : List (String × List α)) :
    extend name values (grouped l) = grouped (l ++ [(name, values)]) := by
  have hvalues (n : String) : ((l ++ [(name, values)]).filter fun q => q.1 == n).flatMap Prod.snd =
      ((l.filter fun q => q.1 == n).flatMap Prod.snd) ++ if n = name then values else [] := by
    rw [List.filter_append, List.flatMap_append, List.filter_singleton]
    by_cases hn : n = name
    · simp [hn]
    · simp [hn, beq_false_of_ne (Ne.symm hn)]
  by_cases hname : name ∈ l.map Prod.fst
  · have hmem : name ∈ (l.map Prod.fst).eraseDups := List.mem_eraseDups.2 hname
    rw [grouped, extend_map (Catalogue.nodup_eraseDups _) hmem, grouped, List.map_append,
      List.map_singleton, eraseDups_append_singleton, if_pos hname]
    simp only [hvalues]
  · rw [extend_of_notMem (by rwa [map_fst_grouped, List.mem_eraseDups]), grouped, grouped,
      List.map_append, List.map_singleton, eraseDups_append_singleton, if_neg hname,
      List.map_append, List.map_singleton]
    -- There are no values of the name yet, and those of others stay the same.
    have hnone : (l.filter fun q => q.1 == name) = [] := by
      refine List.filter_eq_nil_iff.2 fun q hq heq => hname ?_
      exact beq_iff_eq.1 heq ▸ List.mem_map_of_mem hq
    simp only [hvalues]
    rw [hnone, List.flatMap_nil, List.nil_append, if_true]
    refine congrArg (· ++ _) (List.map_congr_left fun n hn => ?_)
    have hne : n ≠ name := fun h => hname (h ▸ List.mem_eraseDups.1 hn)
    rw [if_neg hne, List.append_nil]

/-- What is added to a request is what a parameter contributes. -/
theorem add_joined {p : Parameter} {values : List Datum}
    (h : p.takesWords = true → ∀ v ∈ values, v.IsWord) (parts : List Modifications) :
    (joined parts).add p values = ⟨(p.contribution values).ignored,
      .ok (joined (parts ++ [(p.contribution values).asked]))⟩ := by
  cases p with
  | privilege x =>
    rw [add, readAll_privilegeValues (h rfl), Journal.mk_ok_bind]
    simp [pure, Parameter.contribution, joined, empty, extend_grouped]
  | privilegeDelete x =>
    rw [add, readAll_deleteValues (h rfl), Journal.mk_ok_bind]
    simp [pure, Parameter.contribution, joined, empty, extend_grouped]
  | restrictionDeleteOf a b =>
    rw [add, readAll_deleteValues (h rfl), Journal.mk_ok_bind]
    simp [pure, Parameter.contribution, joined, empty]
  | restrictionDelete a => simp [add, pure, Parameter.contribution, joined, empty]
  | restrictionOf a b e => simp [add, pure, Parameter.contribution, joined, empty]
  | restriction a => simp [add, pure, Parameter.contribution, joined, empty]

/-! ## Requests -/

/-- One more parameter is read. -/
theorem addNamed_joined {q : String × Datum} {c : Contribution} (hq : Parameter.Readable q)
    (hc : Parameter.Adds q c) (parts : List Modifications) :
    (joined parts).addNamed q = ⟨c.ignored, .ok (joined (parts ++ [c.asked]))⟩ := by
  obtain ⟨values, hvalues, hwords⟩ := hq
  rw [addNamed, hvalues, Journal.lift_ok_bind]
  cases hc with
  | spelled hname hvalues' =>
    obtain rfl := Except.ok.inj (hvalues.symm.trans hvalues')
    simp only [Parameter.ofName?_eq_some_iff.2 hname]
    exact add_joined (hwords _ hname) parts
  | other hname =>
    simp only [Parameter.ofName?_eq_none_iff.2 hname]
    simp [pure, joined, empty]

/-- A request asks for what its parameters add. -/
theorem ofParameters_eq {parameters : List (String × Datum)} {cs : List Contribution}
    (h : ∀ q ∈ parameters, Parameter.Readable q)
    (hcs : List.Forall₂ Parameter.Adds parameters cs) :
    ofParameters parameters =
      ⟨cs.flatMap Contribution.ignored, .ok (joined (cs.map Contribution.asked))⟩ := by
  have hfold (parts : List Modifications) : parameters.foldlM addNamed (joined parts) =
      ⟨cs.flatMap Contribution.ignored, .ok (joined (parts ++ cs.map Contribution.asked))⟩ := by
    induction hcs generalizing parts with
    | nil => simp [pure]
    | cons hc _ ih =>
      obtain ⟨hq, hrest⟩ := List.forall_mem_cons.1 h
      rw [List.foldlM_cons, addNamed_joined hq hc, Journal.mk_ok_bind, ih hrest]
      simp
  exact hfold []

/-- A parameter that is read is readable. -/
theorem readable_of_addNamed {m n : Modifications} {q : String × Datum}
    (h : (m.addNamed q).result = .ok n) : Parameter.Readable q := by
  obtain ⟨values, hvalues, hadd⟩ := Journal.exists_of_result_bind h
  refine ⟨values, hvalues, fun p hp hwords => ?_⟩
  rw [Parameter.ofName?_eq_some_iff.2 hp] at hadd
  cases p with
  | privilege x =>
    obtain ⟨_, hread, _⟩ := Journal.exists_of_result_bind hadd
    exact isWord_of_readAll PrivilegeValue.isWord_of_read hread
  | privilegeDelete x | restrictionDeleteOf a b =>
    obtain ⟨_, hread, _⟩ := Journal.exists_of_result_bind hadd
    exact isWord_of_readAll DeleteValue.isWord_of_read hread
  | restriction a | restrictionOf a b e | restrictionDelete a => cases hwords

theorem readable_of_ofParameters {parameters : List (String × Datum)} {m : Modifications}
    (h : (ofParameters parameters).result = .ok m) :
    ∀ q ∈ parameters, Parameter.Readable q := by
  rw [ofParameters] at h
  generalize empty = start at h
  induction parameters generalizing start with
  | nil => exact List.forall_mem_nil _
  | cons q parameters ih =>
    rw [List.foldlM_cons] at h
    obtain ⟨n, hq, hrest⟩ := Journal.exists_of_result_bind h
    exact List.forall_mem_cons.2 ⟨readable_of_addNamed hq, ih n hrest⟩

theorem exists_adds {parameters : List (String × Datum)}
    (h : ∀ q ∈ parameters, Parameter.Readable q) :
    ∃ cs, List.Forall₂ Parameter.Adds parameters cs := by
  induction parameters with
  | nil => exact ⟨[], .nil⟩
  | cons q parameters ih =>
    obtain ⟨⟨values, hvalues, _⟩, hrest⟩ := List.forall_mem_cons.1 h
    obtain ⟨cs, hcs⟩ := ih hrest
    cases hname : Parameter.ofName? q.1 with
    | none => exact ⟨_, .cons (.other (Parameter.ofName?_eq_none_iff.1 hname)) hcs⟩
    | some p => exact ⟨_, .cons (.spelled (Parameter.ofName?_eq_some_iff.1 hname) hvalues) hcs⟩

/-- What it means that a request is read exactly. -/
structure ReadsExactly (parameters : List (String × Datum)) : Prop where
  /-- It is read just if its parameters are readable. -/
  readable : (∃ m, (ofParameters parameters).result = .ok m) ↔
    ∀ q ∈ parameters, Parameter.Readable q
  /-- Then it asks for what each of its parameters adds, and there is a warning for each value
      that is left out. -/
  adds : (∀ q ∈ parameters, Parameter.Readable q) →
    ∃ cs, List.Forall₂ Parameter.Adds parameters cs ∧ ofParameters parameters =
      ⟨cs.flatMap Contribution.ignored, .ok (joined (cs.map Contribution.asked))⟩

/-- Every name is read as what it spells, if it spells something. What it spells is added to
    one of the collections, and a request is read exactly. -/
theorem reads_exactly :
    (∀ name p, Parameter.ofName? name = some p ↔ Parameter.Spells name p) ∧
      (∀ (p : Parameter) (values : List Datum), (p.contribution values).asked.size = 1) ∧
        ∀ parameters, ReadsExactly parameters := by
  refine ⟨fun _ _ => Parameter.ofName?_eq_some_iff, Parameter.size_contribution,
    fun parameters => ⟨⟨fun ⟨_, hm⟩ => readable_of_ofParameters hm, fun h => ?_⟩, fun h => ?_⟩⟩
  · obtain ⟨cs, hcs⟩ := exists_adds h
    exact ⟨_, congrArg Journal.result (ofParameters_eq h hcs)⟩
  · obtain ⟨cs, hcs⟩ := exists_adds h
    exact ⟨cs, hcs, ofParameters_eq h hcs⟩

/-- A request with names that end with line breaks, or as other forms do. -/
def intricate : List (String × Datum) :=
  [("privilege@x@Delete\n", .text "all"), ("privilege@x", .list [.text " Allow ", .text "maybe"]),
    ("privilege@Delete", .text "allow"), ("privilege@@Delete@Delete", .text "Deny"),
    ("privilege@x\n", .list [.text "none", .null]), ("restriction@r\n", .text "v"),
    ("restriction@x@Delete@Delete", .text "either"), ("restriction@x@r@Deny\n", .text "v"),
    ("restriction@x@r", .text "v")]

theorem reads_exactly_intricate :
    ReadsExactly intricate ∧
      (∀ p, Parameter.Spells "privilege@x\n" p ↔ p = .privilege "x") ∧
      (∀ p, ¬Parameter.Spells "privilege@Delete" p) ∧
      ofParameters intricate =
        ⟨[.ignoredPrivilegeValue (.text "maybe"), .ignoredPrivilegeValue .null,
            .ignoredDeleteValue (.text "either")],
          .ok ⟨[("x", [.allow, .none])], [("x", [.all]), ("@Delete", [.deny])],
            [⟨none, "r\n", [.text "v"]⟩, ⟨some ("x", .deny), "r", [.text "v"]⟩],
            [⟨some "x", "Delete", []⟩]⟩⟩ := by
  obtain ⟨hspells, _, hexact⟩ := reads_exactly
  have hshort : Parameter.ofName? "privilege@x\n" = some (.privilege "x") := by decide
  have hnone : Parameter.ofName? "privilege@Delete" = none := by decide
  refine ⟨hexact intricate, fun p => ?_, fun p hp => ?_, rfl⟩
  · rw [← hspells, hshort, Option.some.injEq, eq_comm]
  · rw [← hspells, hnone] at hp
    cases hp

end Modifications

end AccessControl
