import AccessControl.Modification.Request
import AccessControl.Proofs.Modification.Grammar
import AccessControl.Proofs.Success

/-!
# Reading parameters

A parameter can be told from its name, if the names of privileges and restrictions that
are written into it can be told from what is around them: they are not empty, have no
line breaks, and no separators. Only one privilege is out of reach, as its name after the
lead would be read as the end of a name that deletes.

* `Parameter.Legible`: the parameters that can be told from their names;
* `Parameter.ofName?_write`: they are read as they were written;
* `Parameter.ofName?_lead`: what follows the lead is the name of a privilege, whatever else is
  in it, unless it ends with a line break or as the names that delete;
* `Modifications.result_addNamed`: then a request says what its parameters say.
-/

namespace AccessControl

theorem Text.afterText?_append (lead rest : String) :
    afterText? lead (lead ++ rest) = some rest :=
  afterText?_eq_some_iff.2 rfl

/-- The name of a privilege or a restriction that can be written into the name of a
    parameter. -/
structure Parameter.IsPart (s : String) : Prop where
  /-- It is not empty. -/
  nonempty : s ≠ ""
  /-- Nothing in it separates the parts of a name. -/
  unseparated : '@' ∉ s.toList
  /-- It is written on one line. -/
  unbroken : '\n' ∉ s.toList

namespace Parameter

variable {s name : String} {p : Parameter}

/-- The parameters that can be told from their names. -/
def Legible : Parameter → Prop
  | privilege p => IsPart p ∧ p ≠ "Delete"
  | privilegeDelete p => IsPart p
  | restriction r => IsPart r
  | restrictionOf p r _ => IsPart p ∧ IsPart r
  | restrictionDelete r => IsPart r
  | restrictionDeleteOf p r => IsPart p ∧ IsPart r

theorem IsPart.isSeparable (h : IsPart s) : IsSeparable s := ⟨h.nonempty, h.unseparated⟩

theorem IsPart.isLine (h : IsPart s) : IsLine s := ⟨h.nonempty, h.unbroken⟩

/-! ## Names that are written -/

/-- What a name does not hold, it does not end with. -/
theorem ne_append_of_notMem {c : Char} (h : c ∉ name.toList) {trail : String}
    (hc : c ∈ trail.toList) (front : String) : name ≠ front ++ trail := by
  rintro rfl
  rw [String.toList_append] at h
  exact h (List.mem_append_right _ hc)

/-- A text ends with a line break where its last part does. -/
theorem append_ne_break (lead : String) (hs : s ≠ "") (hbreak : ∀ front, s ≠ front ++ "\n")
    (front : String) : lead ++ s ≠ front ++ "\n" := by
  intro heq
  have hlists : lead.toList ++ s.toList = front.toList ++ ['\n'] := by
    have h := congrArg String.toList heq
    rwa [String.toList_append, String.toList_append] at h
  rcases List.append_eq_append_iff.1 hlists with ⟨as, _, hend⟩ | ⟨bs, _, hend⟩
  · refine hbreak (String.ofList as) ?_
    rw [← String.toList_inj, String.toList_append, String.toList_ofList]
    exact hend
  · cases bs with
    | nil => exact hbreak "" (String.toList_inj.1 hend.symm)
    | cons b bs =>
      have hnil := (List.append_eq_nil_iff.1 (List.cons.inj hend).2.symm).2
      exact hs (String.toList_inj.1 hnil)

/-- Nothing is taken from a name whose last part has no line break. -/
theorem shortens_append (lead : String) (hs : s ≠ "") (hbreak : '\n' ∉ s.toList) :
    Shortens (lead ++ s) (lead ++ s) :=
  .unbroken rfl (append_ne_break lead hs (ne_append_of_notMem hbreak (by decide)))

/-- A name does not delete if something else follows its last separator. -/
theorem ne_append_deleteTrail (lead : String) (h : '@' ∉ s.toList) (hs : s ≠ "Delete")
    (front : String) : lead ++ "@" ++ s ≠ front ++ deleteTrail := by
  refine upTo?_eq_none_iff.1 ?_ front
  have htrail : deleteTrail.toList = '@' :: "Delete".toList := rfl
  have hne : s.toList ≠ "Delete".toList := fun heq => hs (String.toList_inj.1 heq)
  have hlast : Text.upTo? ('@' :: "Delete".toList) (lead.toList ++ '@' :: s.toList) = _ :=
    Text.upTo?_append_cons (by decide) h
  rw [if_neg hne, ← htrail] at hlast
  simpa using hlast

theorem spells_privilege {p : String} (hp : IsPart p) (hne : p ≠ "Delete") :
    Spells (privilege p).write (privilege p) :=
  .privilege hp.isLine (shortens_append _ hp.nonempty hp.unbroken)
    (ne_append_deleteTrail "privilege" hp.unseparated hne)

/-- A parameter that can be told from its name is spelled by it. -/
theorem spells_write (h : p.Legible) : Spells p.write p := by
  have hdelete (lead : String) : Shortens (lead ++ deleteTrail) (lead ++ deleteTrail) :=
    shortens_append lead (by decide) (by decide)
  cases p with
  | privilege p => exact spells_privilege h.1 h.2
  | privilegeDelete p => exact .privilegeDelete h.isLine (hdelete _)
  | restriction r => exact .restriction h.isSeparable rfl
  | restrictionOf p r e =>
    refine .restrictionOf h.1.isSeparable h.2.isSeparable (shortens_append _ ?_ ?_) <;>
      cases e <;> decide
  | restrictionDelete r => exact .restrictionDelete h.isSeparable (hdelete _)
  | restrictionDeleteOf p r =>
    exact .restrictionDeleteOf h.1.isSeparable h.2.isSeparable (hdelete _)

/-- A parameter that can be told from its name is read as it was written. -/
theorem ofName?_write (h : p.Legible) : ofName? p.write = some p :=
  ofName?_eq_some_iff.2 (spells_write h)

theorem ofName?_restrictionOf {p r : String} (hp : IsPart p) (hr : IsPart r) (e : Effect) :
    ofName? (restrictionOf p r e).write = some (restrictionOf p r e) :=
  ofName?_write ⟨hp, hr⟩

theorem ofName?_privilege {p : String} (hp : IsPart p) (hne : p ≠ "Delete") :
    ofName? (privilege p).write = some (privilege p) :=
  ofName?_write ⟨hp, hne⟩

/-- The name of a restriction that is deleted may have line breaks, as it is not the last part. -/
theorem ofName?_restrictionDelete {r : String} (h : IsSeparable r) :
    ofName? (restrictionDelete r).write = some (restrictionDelete r) :=
  ofName?_eq_some_iff.2 (.restrictionDelete h (shortens_append _ (by decide) (by decide)))

/-! ## Names after the lead -/

/-- The parameter of a name that ends neither as those that delete do nor with a line break is
    about the privilege of this name, or it is about nothing. -/
theorem ofName?_lead (hdelete : ∀ front, name ≠ front ++ deleteTrail)
    (hbreak : ∀ front, name ≠ front ++ "\n") :
    ofName? (privilegeLead ++ name) = some (.privilege name) ∨
      ofName? (privilegeLead ++ name) = none := by
  cases hp : ofName? (privilegeLead ++ name) with
  | none => exact .inr rfl
  | some p =>
    have hspells := ofName?_eq_some_iff.1 hp
    refine .inl (congrArg some ?_)
    have hne : name ≠ "" := by
      rintro rfl
      cases hp
    have hshort {rest : String} (h : Shortens (privilegeLead ++ name) (privilegeLead ++ rest)) :
        rest = name := by
      rcases h with h | ⟨h, _⟩
      · exact absurd h (append_ne_break _ hne hbreak _)
      · exact ((String.append_right_inj _).1 h).symm
    rcases hspells.about_privilege_or with ⟨x, rfl | rfl⟩ | ⟨body, hbody⟩
    · obtain _ | ⟨_, h⟩ := hspells
      rw [hshort h]
    · obtain ⟨_, h⟩ := hspells
      rw [String.append_assoc] at h
      exact absurd (hshort h).symm (hdelete x)
    · rw [String.toList_append] at hbody
      exact absurd hbody (append_ne_append _ _)

end Parameter

namespace Modifications

theorem result_ofParameters (parameters : List (String × Datum)) :
    (ofParameters parameters).result =
      parameters.foldlM (fun m parameter => (addNamed m parameter).result) empty :=
  Journal.result_foldlM _ _ _

/-- A parameter that is about access control adds what it says. -/
theorem result_addNamed (m : Modifications) {p : Parameter} {name : String} {value : Datum}
    {vs : List Datum} (hp : Parameter.ofName? name = some p) (hv : value.values = .ok vs) :
    (m.addNamed (name, value)).result = (m.add p vs).result := by
  rw [addNamed, Journal.result_bind, Journal.result_liftM, hv, hp]
  rfl

/-- A parameter that is about nothing asks for nothing. -/
theorem result_ofParameters_of_none {parameter : String}
    (hname : Parameter.ofName? parameter = none) (values : List Datum) :
    (ofParameters [(parameter, .list values)]).result = .ok empty := by
  rw [result_ofParameters, List.foldlM_cons, addNamed, Journal.result_bind, Journal.result_liftM,
    hname]
  rfl

end Modifications

end AccessControl
