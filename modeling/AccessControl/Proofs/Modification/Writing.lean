import Mathlib.Data.List.Induction
import Mathlib.Data.List.Nodup
import AccessControl.Proofs.Modification.Plan
import AccessControl.Proofs.Modification.Reading

/-!
# Writing a request

Modifications can be written as the parameters that ask for them, if the names in them can be
told apart, and are read from these as they were. Only values for a privilege of one name are
lost: its parameter would be that of a name that deletes, of nothing.

* `Modifications.Writable`: the modifications that can be written;
* `Parameter.write_injOn`: different parameters have different names;
* `Modifications.ofParameters_toParameters`: what is read from what was written;
* `Modifications.reads_back`: it is what was written, but for this name.
-/

namespace AccessControl

/-! ## Values -/

theorem PrivilegeValue.ofDatum?_word (v : PrivilegeValue) : ofDatum? (.text v.word) = some v := by
  cases v <;> decide +kernel

theorem DeleteValue.ofDatum?_word (v : DeleteValue) : ofDatum? (.text v.word) = some v := by
  cases v <;> decide +kernel

namespace Parameter

variable {p q : Parameter}

/-! ## Names -/

/-- The parameters whose names are put together of parts. -/
def Plain : Parameter → Prop
  | privilege p | privilegeDelete p => IsPart p
  | restriction r | restrictionDelete r => IsPart r
  | restrictionOf p r _ | restrictionDeleteOf p r => IsPart p ∧ IsPart r

/-- Values of a privilege of this name cannot be asked for. -/
def unwritable : Parameter := .privilege "Delete"

theorem Plain.legible (h : p.Plain) (hne : p ≠ unwritable) : p.Legible := by
  cases p with
  | privilege p => exact ⟨h, fun hp => hne (congrArg privilege hp)⟩
  | privilegeDelete p | restriction r | restrictionDelete r => exact h
  | restrictionOf p r e | restrictionDeleteOf p r => exact h

theorem ofName?_unwritable : ofName? unwritable.write = none := by decide +kernel

theorem write_injOn (hp : p.Plain) (hq : q.Plain) (h : p.write = q.write) : p = q := by
  have hread {p : Parameter} (hp : p.Plain) (hne : p ≠ unwritable) :
      ofName? p.write = some p := ofName?_write (hp.legible hne)
  by_cases hpw : p = unwritable <;> by_cases hqw : q = unwritable
  · rw [hpw, hqw]
  · have hnone := ofName?_unwritable
    rw [← hpw, h, hread hq hqw] at hnone
    cases hnone
  · have hnone := ofName?_unwritable
    rw [← hqw, ← h, hread hp hpw] at hnone
    cases hnone
  · have hsome := hread hp hpw
    rw [h, hread hq hqw] at hsome
    exact (Option.some.inj hsome).symm

end Parameter

namespace Modifications

variable {α : Type} {m : Modifications}

theorem map_fst_parts (m : Modifications) : m.parts.map Prod.fst = m.parameters := by
  simp [parts, parameters, Function.comp_def]

/-- Modifications that can be written as parameters. -/
structure Writable (m : Modifications) : Prop where
  /-- The names in them are parts of names of parameters. -/
  plain : ∀ p ∈ m.parameters, p.Plain
  /-- Each parameter is there once. -/
  nodup : m.parameters.Nodup
  /-- What is deleted everywhere is deleted from both sides. -/
  everywhere : ∀ d ∈ m.restrictionDeletes, d.privilege = none → d.values = [.all]

theorem Writable.plain_of_mem_parts (h : m.Writable) {q : Parameter × List Datum}
    (hq : q ∈ m.parts) : q.1.Plain := by
  have hmem : q.1 ∈ m.parts.map Prod.fst := List.mem_map_of_mem hq
  rw [map_fst_parts] at hmem
  exact h.plain q.1 hmem

theorem grouped_of_nodup {l : List (String × List α)} (h : (l.map Prod.fst).Nodup) :
    grouped l = l := by
  induction l using List.reverseRecOn with
  | nil => rfl
  | append_singleton l a ih =>
    obtain ⟨name, values⟩ := a
    rw [List.map_append, List.nodup_append] at h
    have hname : name ∉ l.map Prod.fst := fun hn => h.2.2 _ hn _ (List.mem_singleton_self _) rfl
    rw [← extend_grouped, ih h.1, extend_of_notMem hname]

/-- What a part of modifications adds when it is read. -/
def readPart (q : Parameter × List Datum) : Contribution :=
  if q.1 = Parameter.unwritable then ⟨empty, []⟩ else q.1.contribution q.2

theorem readPart_privilege (q : String × List PrivilegeValue) :
    readPart (.privilege q.1, q.2.map fun v => .text v.word) =
      ⟨{ empty with privileges := [q].filter fun q => q.1 ≠ "Delete" }, []⟩ := by
  rw [readPart]
  by_cases hq : q.1 = "Delete"
  · simp [hq, Parameter.unwritable, empty]
  · simp [hq, Parameter.unwritable, Parameter.contribution, List.filterMap_map, Function.comp_def,
      PrivilegeValue.ofDatum?_word, List.filter_map]

theorem readPart_privilegeDelete (q : String × List DeleteValue) :
    readPart (.privilegeDelete q.1, q.2.map fun v => .text v.word) =
      ⟨{ empty with privilegeDeletes := [q] }, []⟩ := by
  simp [readPart, Parameter.unwritable, Parameter.contribution, List.filterMap_map,
    Function.comp_def, DeleteValue.ofDatum?_word, List.filter_map]

theorem readPart_restriction (r : RestrictionRequest) :
    readPart (r.parameter, r.values) = ⟨{ empty with restrictions := [r] }, []⟩ := by
  obtain ⟨target, x, values⟩ := r
  cases target <;> simp [readPart, RestrictionRequest.parameter, Parameter.unwritable,
    Parameter.contribution]

theorem readPart_restrictionDelete {d : RestrictionDelete}
    (h : d.privilege = none → d.values = [.all]) :
    readPart (d.parameter, d.values.map fun v => .text v.word) =
      ⟨{ empty with restrictionDeletes := [d] }, []⟩ := by
  obtain ⟨privilege, x, values⟩ := d
  cases privilege with
  | none =>
    obtain rfl := h rfl
    rfl
  | some p =>
    simp [readPart, RestrictionDelete.parameter, Parameter.unwritable, Parameter.contribution,
      List.filterMap_map, Function.comp_def, DeleteValue.ofDatum?_word, List.filter_map]

theorem Writable.map_readPart (h : m.Writable) : m.parts.map readPart =
    (m.privileges.map fun q =>
      ⟨{ empty with privileges := [q].filter fun q => q.1 ≠ "Delete" }, []⟩) ++
    (m.privilegeDeletes.map fun q => ⟨{ empty with privilegeDeletes := [q] }, []⟩) ++
    (m.restrictions.map fun r => ⟨{ empty with restrictions := [r] }, []⟩) ++
    (m.restrictionDeletes.map fun d => ⟨{ empty with restrictionDeletes := [d] }, []⟩) := by
  have hdeletes : (m.restrictionDeletes.map fun d =>
      readPart (d.parameter, d.values.map fun v => .text v.word)) =
        m.restrictionDeletes.map fun d => ⟨{ empty with restrictionDeletes := [d] }, []⟩ :=
    List.map_congr_left fun d hd => readPart_restrictionDelete (h.everywhere d hd)
  simp only [parts, List.map_append, List.map_map, Function.comp_def, readPart_privilege,
    readPart_privilegeDelete, readPart_restriction, hdeletes]

theorem Writable.adds (h : m.Writable) :
    List.Forall₂ Parameter.Adds m.toParameters (m.parts.map readPart) := by
  rw [toParameters, List.forall₂_map_left_iff, List.forall₂_map_right_iff, List.forall₂_same]
  intro q hq
  rw [readPart]
  split
  next hname =>
    rw [hname]
    exact .other (Parameter.ofName?_eq_none_iff.1 Parameter.ofName?_unwritable)
  next hname =>
    exact .spelled (Parameter.spells_write ((h.plain_of_mem_parts hq).legible hname)) rfl

/-- The values of a part are words, where they have to be. -/
theorem isWord_of_mem_parts {q : Parameter × List Datum} (hq : q ∈ m.parts)
    (hwords : q.1.takesWords = true) : ∀ v ∈ q.2, v.IsWord := by
  have hword {β : Type} (word : β → String) (vs : List β) :
      ∀ v ∈ vs.map fun v => Datum.text (word v), v.IsWord := by
    intro v hv
    obtain ⟨w, _, rfl⟩ := List.mem_map.1 hv
    exact ⟨word w, rfl⟩
  simp only [parts, List.mem_append, List.mem_map] at hq
  rcases hq with ((⟨q, _, rfl⟩ | ⟨q, _, rfl⟩) | ⟨r, _, rfl⟩) | ⟨d, _, rfl⟩
  · exact hword _ q.2
  · exact hword _ q.2
  · -- The values of restrictions that are added can be anything.
    obtain ⟨target, x, values⟩ := r
    cases target <;> cases hwords
  · exact hword _ d.values

theorem Writable.readable (h : m.Writable) : ∀ q ∈ m.toParameters, Parameter.Readable q := by
  intro q hq
  obtain ⟨part, hpart, rfl⟩ := List.mem_map.1 hq
  refine ⟨part.2, rfl, fun p hp hwords => isWord_of_mem_parts hpart ?_⟩
  have hread := Parameter.ofName?_eq_some_iff.2 hp
  by_cases hname : part.1 = Parameter.unwritable
  · rw [hname, Parameter.ofName?_unwritable] at hread
    cases hread
  · rw [Parameter.ofName?_write ((h.plain_of_mem_parts hpart).legible hname)] at hread
    exact Option.some.inj hread ▸ hwords

theorem Writable.nodup_privileges (h : m.Writable) : (m.privileges.map Prod.fst).Nodup := by
  have hnodup := h.nodup
  simp only [parameters, List.nodup_append] at hnodup
  have hprivileges : ((m.privileges.map Prod.fst).map Parameter.privilege).Nodup := by
    rw [List.map_map]
    exact hnodup.1.1.1
  exact hprivileges.of_map

theorem Writable.nodup_privilegeDeletes (h : m.Writable) :
    (m.privilegeDeletes.map Prod.fst).Nodup := by
  have hnodup := h.nodup
  simp only [parameters, List.nodup_append] at hnodup
  have hdeletes : ((m.privilegeDeletes.map Prod.fst).map Parameter.privilegeDelete).Nodup := by
    rw [List.map_map]
    exact hnodup.1.1.2.1
  exact hdeletes.of_map

/-- Parts of modifications are put together again, in each collection. -/
theorem Writable.joined_readPart (h : m.Writable) :
    joined ((m.parts.map readPart).map Contribution.asked) =
      { m with privileges := m.privileges.filter fun q => q.1 ≠ "Delete" } := by
  have hnil {α β : Type} (l : List α) : (l.flatMap fun _ => ([] : List β)) = [] :=
    List.flatMap_eq_nil_iff.2 fun _ _ => rfl
  have hprivileges : ((m.parts.map readPart).map Contribution.asked).flatMap privileges =
      m.privileges.filter fun q => q.1 ≠ "Delete" := by
    rw [h.map_readPart]
    simp [List.flatMap_map, empty, ← List.filter_flatMap]
  have hdeletes : ((m.parts.map readPart).map Contribution.asked).flatMap privilegeDeletes =
      m.privilegeDeletes := by
    rw [h.map_readPart]
    simp [List.flatMap_map, empty, hnil]
  have hrestrictions : ((m.parts.map readPart).map Contribution.asked).flatMap restrictions =
      m.restrictions := by
    rw [h.map_readPart]
    simp [List.flatMap_map, empty, hnil]
  have hrestrictionDeletes :
      ((m.parts.map readPart).map Contribution.asked).flatMap restrictionDeletes =
        m.restrictionDeletes := by
    rw [h.map_readPart]
    simp [List.flatMap_map, empty, hnil]
  have hkept : ((m.privileges.filter fun q => q.1 ≠ "Delete").map Prod.fst).Nodup :=
    h.nodup_privileges.sublist (List.filter_sublist.map _)
  rw [joined, hprivileges, hdeletes, hrestrictions, hrestrictionDeletes, grouped_of_nodup hkept,
    grouped_of_nodup h.nodup_privilegeDeletes]

/-- Modifications are read as they were written, but for values of a privilege that cannot be
    asked for. There is no warning. -/
theorem ofParameters_toParameters (h : m.Writable) : ofParameters m.toParameters =
    pure { m with privileges := m.privileges.filter fun q => q.1 ≠ "Delete" } := by
  have hignored : (m.parts.map readPart).flatMap Contribution.ignored = [] := by
    rw [h.map_readPart]
    simp [List.flatMap_map]
  rw [ofParameters_eq h.readable h.adds, h.joined_readPart, hignored]
  rfl

/-- Modifications that can be written have one name for each of their parameters. What is read
    from them is what was written, with no warning, unless values are asked for of a privilege
    that is named as what deletes: these are lost, and nothing else is. -/
theorem reads_back (h : m.Writable) :
    (m.toParameters.map Prod.fst).Nodup ∧
      ofParameters m.toParameters =
        pure { m with privileges := m.privileges.filter fun q => q.1 ≠ "Delete" } ∧
      (ofParameters m.toParameters = pure m ↔ "Delete" ∉ m.privileges.map Prod.fst) := by
  have hread := ofParameters_toParameters h
  refine ⟨?_, hread, ?_⟩
  · have hnames : m.toParameters.map Prod.fst = m.parameters.map Parameter.write := by
      rw [← map_fst_parts, toParameters, List.map_map, List.map_map]
      rfl
    rw [hnames]
    exact h.nodup.map_on fun p hp q hq => Parameter.write_injOn (h.plain p hp) (h.plain q hq)
  · rw [hread]
    constructor
    · intro hsame hname
      have hresult := Except.ok.inj (congrArg Journal.result hsame)
      obtain ⟨q, hq, hdelete⟩ := List.mem_map.1 hname
      have hkept := List.filter_eq_self.1 (congrArg privileges hresult) q hq
      exact of_decide_eq_true hkept hdelete
    · intro hname
      have hkept : (m.privileges.filter fun q => q.1 ≠ "Delete") = m.privileges := by
        refine List.filter_eq_self.2 fun q hq => decide_eq_true fun hdelete => hname ?_
        exact hdelete ▸ List.mem_map_of_mem hq
      rw [hkept]

/-- Modifications of privileges and restrictions that are named as sides, or as what deletes. -/
def confusing : Modifications where
  privileges := [("Allow", [.allow, .deny])]
  privilegeDeletes := [("Delete", [.all])]
  restrictions := [⟨none, "Delete", [.text "v"]⟩, ⟨some ("Delete", .allow), "Deny", []⟩,
    ⟨some ("Allow", .deny), "Delete", [.text "w"]⟩]
  restrictionDeletes := [⟨none, "Delete", [.all]⟩, ⟨some "Delete", "Delete", [.deny]⟩,
    ⟨some "Allow", "Deny", []⟩]

theorem reads_back_confusing :
    confusing.Writable ∧ (confusing.toParameters.map Prod.fst).Nodup ∧
      ofParameters confusing.toParameters = pure confusing := by
  have hallow : Parameter.IsPart "Allow" := ⟨by decide, by decide, by decide⟩
  have hdeny : Parameter.IsPart "Deny" := ⟨by decide, by decide, by decide⟩
  have hdelete : Parameter.IsPart "Delete" := ⟨by decide, by decide, by decide⟩
  have hwritable : confusing.Writable := by
    refine ⟨?_, by decide, by simp [confusing]⟩
    simp [confusing, parameters, RestrictionRequest.parameter, RestrictionDelete.parameter,
      Parameter.Plain, hallow, hdeny, hdelete]
  obtain ⟨hnames, _, hread⟩ := reads_back hwritable
  exact ⟨hwritable, hnames, hread.2 (by decide)⟩

/-- Values of a privilege that is named as what deletes are read as nothing. -/
theorem not_reads_back_delete :
    let m : Modifications := { empty with privileges := [("Delete", [.allow])] }
    m.Writable ∧ ofParameters m.toParameters = pure empty ∧
      ofParameters m.toParameters ≠ pure m := by
  have hdelete : Parameter.IsPart "Delete" := ⟨by decide, by decide, by decide⟩
  refine ⟨⟨List.forall_mem_singleton.2 hdelete, by decide, List.forall_mem_nil _⟩, rfl, ?_⟩
  intro hread
  have hlost : pure empty = _ := hread
  cases hlost

end Modifications

end AccessControl
