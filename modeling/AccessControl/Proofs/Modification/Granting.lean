import AccessControl.Proofs.Decision.Granting
import AccessControl.Proofs.Modification.Removal
import AccessControl.Proofs.Modification.Values

/-!
# Granting under a restriction

A privilege is allowed, or denied, under a restriction by an amendment, or by two parameters,
one of which grants it and the other adds the restriction. The amendment does so in one step,
and the parameters in two. Both lead to the same entries, unless the opposite stands alone for
some leaf: the amendment leaves it in force, and the first of the parameters takes its place.

* `Amendment.granting`, `grantingParameters`: both ways to ask for it;
* `DecisionMap.same_granted`: both ways seen from the loaded decisions;
* `Registry.granting_outcome`: when they do the same, and what they leave otherwise.
-/

namespace AccessControl

/-! ## Requests -/

/-- A privilege is allowed, or denied, under a restriction. -/
def Amendment.granting (name : String) (e : Effect) (restriction value : String) : Amendment where
  privileges := [(name, .text e.word)]
  restrictions := [(restriction, .text value)]
  listedRestrictions := []
  removed := .null

/-- Parameters that allow, or deny, a privilege, and that add a restriction to it. -/
def grantingParameters (name : String) (e : Effect) (restriction value : String) :
    List (String × Datum) :=
  [((Parameter.privilege name).write, .text e.word),
    ((Parameter.restrictionOf name restriction e).write, .text value)]

/-- The value that allows, or denies. -/
def PrivilegeValue.ofEffect : Effect → PrivilegeValue
  | .allow => allow
  | .deny => deny

theorem PrivilegeValue.ofText?_word (e : Effect) : ofText? e.word = some (ofEffect e) := by
  cases e <;> decide +kernel

theorem PrivilegeValue.operation_ofEffect (e : Effect) (rs : RestrictionSet) :
    (ofEffect e).operation rs = .set e rs := by
  cases e <;> rfl

/-- The restriction of a definition that holds one text. -/
def RestrictionDefinition.holding (d : RestrictionDefinition) (value : String) : Restriction :=
  ⟨some d.name, d.multi, [.text value]⟩

theorem RestrictionDefinition.settle_ofRaw (d : RestrictionDefinition) (value : String) :
    (RestrictionDraft.ofRaw d (.text value)).settle = .ok (d.holding value) := by
  rw [RestrictionDraft.ofRaw, RestrictionDraft.ofValue, RestrictionDraft.shaped]
  cases h : d.multi.isTrue <;> simp [h] <;> rfl

/-- A list of one text holds what the text holds. -/
theorem RestrictionDefinition.ofRaw_singleton (d : RestrictionDefinition) (value : String) :
    RestrictionDraft.ofRaw d (.list [.text value]) = RestrictionDraft.ofRaw d (.text value) := by
  rw [RestrictionDraft.ofRaw, RestrictionDraft.ofRaw, RestrictionDraft.ofValue,
    RestrictionDraft.ofValue, RestrictionDraft.shaped, RestrictionDraft.shaped]
  cases h : d.multi.isTrue <;> simp [h] <;> rfl

section

variable {r : Registry} {known : Vocabulary} {p : Privilege} {name restriction : String}
  {definition : RestrictionDefinition}

theorem Registry.lookUp_effect (hp : r.get? name = some p) (e : Effect) :
    r.lookUp [(name, e.word)] = .ok [(p, some (.ofEffect e))] := by
  rw [lookUp, List.mapM_cons, privilege_of_get? hp, PrivilegeValue.ofText?_word]
  rfl

namespace Amendment

/-- A name in which nothing is separated is not that of a parameter. -/
theorem privilegeName_of_isPart (h : Parameter.IsPart name) : privilegeName name = name := by
  rw [privilegeName, Text.afterText?]
  cases hrest : Text.after? Parameter.privilegeLead.toList name.toList with
  | none => rfl
  | some rest =>
    have hname := Text.after?_eq_some_iff.1 hrest
    exact absurd (hname ▸ List.mem_append_left _ (by decide)) h.unseparated

theorem privileges_granting (hname : privilegeName name = name) (e : Effect)
    (restriction value : String) :
    ((granting name e restriction value).privileges.map fun q => (privilegeName q.1, q.2)) =
      [(name, e.word)].map fun q => (q.1, .text q.2) := by
  simp [granting, hname]

theorem restrictionSet_granting (hknown : known.find? restriction = some definition)
    (name : String) (e : Effect) (value : String) :
    (granting name e restriction value).restrictionSet known =
      .ok (.single (definition.holding value)) := by
  simp only [restrictionSet, granting, List.mapM_cons, List.mapM_nil,
    Vocabulary.definition_of_find? hknown]
  change ((RestrictionDraft.ofRaw definition (.text value)).settle >>= _ >>= _) = _
  rw [definition.settle_ofRaw]
  rfl

end Amendment

namespace Modifications

/-- A privilege is allowed, or denied, and a restriction is added to it. -/
def granting (name : String) (e : Effect) (restriction value : String) : Modifications :=
  { valued [(name, e.word)] with restrictions := [⟨some (name, e), restriction, [.text value]⟩] }

theorem result_grantingParameters (hname : Parameter.IsPart name) (hne : name ≠ "Delete")
    (hrestriction : Parameter.IsPart restriction) (e : Effect) (value : String) :
    (ofParameters (grantingParameters name e restriction value)).result =
      .ok (granting name e restriction value) := by
  have hfirst : (addNamed empty ((Parameter.privilege name).write, .text e.word)).result =
      .ok (valued [(name, e.word)]) :=
    result_addNamed_value (q := (name, e.word)) (Parameter.ofName?_privilege hname hne)
      (by simp [empty])
  have hsecond : (addNamed (valued [(name, e.word)])
      ((Parameter.restrictionOf name restriction e).write, .text value)).result =
        .ok (granting name e restriction value) := by
    rw [result_addNamed _ (Parameter.ofName?_restrictionOf hname hrestriction e) rfl]
    rfl
  rw [result_ofParameters, grantingParameters]
  simp only [List.foldlM_cons, List.foldlM_nil, hfirst, hsecond, bind, Except.bind, pure,
    Except.pure]

/-- The edits that grant a privilege, and add a restriction to it then. -/
def grantingEdits (p : Privilege) (e : Effect) (rs : RestrictionSet) : List Edit :=
  [⟨.set e ∅, some p⟩, ⟨.set e rs, some p⟩]

theorem additionsFor_none (p : Privilege) (e : Effect) (restriction : Restriction) :
    additionsFor [⟨some p, some e, restriction⟩] none = [] := by
  simp [additionsFor]

theorem additionsFor_self (p : Privilege) (e : Effect) (restriction : Restriction) :
    additionsFor [⟨some p, some e, restriction⟩] (some p) =
      [⟨.set e (.single restriction), some p⟩] := by
  have honce : [restriction].eraseDups = [restriction] := rfl
  simp only [additionsFor, List.filter_singleton, beq_self_eq_true, cond_true, List.map_singleton,
    honce, List.flatMap_singleton, List.any_cons, Bool.true_and]
  cases e <;> rfl

theorem addRestrictions_granting (hp : r.get? name = some p)
    (hknown : known.find? restriction = some definition) (d : DepthIndex) (e : Effect)
    (value : String) : (granting name e restriction value).addRestrictions r known d =
      [.ok ⟨.set e (.single (definition.holding value)), some p⟩] := by
  have haddition : addition r known ⟨some (name, e), restriction, [.text value]⟩ =
      .ok ⟨some p, some e, definition.holding value⟩ := by
    have hsettle := (congrArg RestrictionDraft.settle (definition.ofRaw_singleton value)).trans
      (definition.settle_ofRaw value)
    rw [addition]
    simp only [Option.mapM_some, Registry.privilege_of_get? hp,
      Vocabulary.definition_of_find? hknown]
    change ((RestrictionDraft.ofRaw definition (.list [.text value])).settle >>= _) = _
    rw [hsettle]
    rfl
  rw [addRestrictions, granting, List.mapM_cons, haddition]
  simp only [List.mapM_nil]
  have honce : [p.id].eraseDups.mergeSort d.precedes = [p.id] := List.mergeSort_singleton _
  change Plan.ofExcept (.ok (additionsFor _ none ++ _)) = _
  simp [Plan.ofExcept, additionsFor_none, honce, additionsFor_self]

theorem plan_granting (hp : r.get? name = some p)
    (hknown : known.find? restriction = some definition) (d : DepthIndex) (e : Effect)
    (value : String) : (granting name e restriction value).plan r known d =
      (grantingEdits p e (.single (definition.holding value))).map .ok := by
  have hdelete : (granting name e restriction value).deletePrivileges r = [] := rfl
  have hunrestrict : (granting name e restriction value).deleteRestrictions r known = [] := rfl
  have hedits : (Findings.sorted [(p, some (.ofEffect e))] d).edits = [⟨.set e ∅, some p⟩] := by
    rw [Findings.sorted, List.mergeSort_singleton]
    simp [Findings.edits, PrivilegeValue.operation_ofEffect]
  have hvalued : (granting name e restriction value).privileges =
      (valued [(name, e.word)]).privileges := rfl
  rw [plan, hdelete, hunrestrict, addRestrictions_granting hp hknown,
    decidePrivileges_eq hvalued, Registry.lookUp_effect hp, Except.map, hedits]
  rfl

end Modifications

/-! ## Leaf by leaf -/

/-- Seen from a leaf, an amendment grants the privilege in one step. -/
theorem Amendment.replay_granting (p : Privilege) (e : Effect) (rs : RestrictionSet) (k : String)
    (o : Option Decision) :
    replay rs (hits (Findings.requests [(p, some (.ofEffect e))]) k) o =
      if p.covers k then some ((o.getD .undecided).grant e rs) else o := by
  have hact : ((PrivilegeValue.ofEffect e).operation rs).act o =
      some ((o.getD .undecided).grant e rs) := by
    rw [PrivilegeValue.operation_ofEffect, Operation.act]
  rw [hits_requests (List.pairwise_singleton _ _), Findings.about, List.filter_singleton, ← hact]
  cases p.covers k <;> rfl

/-- Seen from a leaf, parameters do so in two steps. -/
theorem Edit.replay_grantingEdits (p : Privilege) (e : Effect) (rs : RestrictionSet) (k : String)
    (o : Option Decision) :
    replay ((Modifications.grantingEdits p e rs).filter (·.covers k)) o =
      if p.covers k then some (((o.getD .undecided).grant e ∅).grant e rs) else o := by
  have hcovers (op : Operation) : (⟨op, some p⟩ : Edit).covers k = p.covers k := rfl
  rw [Modifications.grantingEdits, List.filter_cons, List.filter_cons, hcovers, hcovers]
  cases p.covers k <;> rfl

end

namespace DecisionMap

variable {m n n' : DecisionMap} {e : Effect} {p : Privilege} {rs : RestrictionSet}

/-- A decision about a leaf of a privilege opposes an effect. -/
def opposes (m : DecisionMap) (e : Effect) (p : Privilege) : Bool :=
  m.rulings.any fun a => p.covers a.id && a.decision.opposes e

theorem opposes_eq (m : DecisionMap) (e : Effect) (p : Privilege) :
    m.opposes e p = m.hasLeaf p (·.opposes e) := rfl

/-- One step and two lead to the same decisions if none of them opposes the effect. -/
theorem same_granted (hm : m.OnAtoms) (hrs : rs.isEmpty = false)
    (hn : ∀ k, Decision.Alike (n.get? k)
      (if p.covers k then some (((m.get? k).getD .undecided).grant e rs) else m.get? k))
    (hn' : ∀ k, n'.get? k =
      if p.covers k then some ((((m.get? k).getD .undecided).grant e ∅).grant e rs)
      else m.get? k) :
    n.same n' = !m.opposes e p := by
  rw [opposes_eq]
  refine same_eq_not_hasLeaf (f := fun o => some ((o.getD .undecided).grant e rs))
    (g := fun o => some (((o.getD .undecided).grant e ∅).grant e rs)) hn
    (fun k => hn' k ▸ .refl _) fun k => ?_
  refine Option.rel_some_some.trans ?_
  cases hd : m.get? k with
  | none =>
    rw [Option.getD_none, Decision.grant_grant_same Decision.clean_undecided rfl hrs]
    simp [Decision.opposes, Side.off]
  | some d =>
    have hsound := hm.sound_get? k d hd
    rw [Option.getD_some, Decision.grant_grant_same hsound.clean hsound.consistent hrs]
    simp

end DecisionMap

/-! ## Main result -/

namespace Registry

variable {r : Registry} {provider : Provider} {acl : List Entry} {principal : Principal}
  {path : Option String} {known : Vocabulary} {m : DecisionMap} {p : Privilege}
  {name restriction : String}

/-- What an amendment grants, seen from a leaf. -/
theorem exists_granted (h : provider.load path acl principal = .ok (known, m))
    (hname : Amendment.privilegeName name = name) (hp : r.get? name = some p)
    {definition : RestrictionDefinition} (hknown : known.find? restriction = some definition)
    (e : Effect) (value : String) :
    ∃ n, (r.amendedDecisions provider acl principal path
        (.granting name e restriction value)).result = .ok n ∧
      ∀ k, Decision.Alike (n.get? k) (if p.covers k then
        some (((m.get? k).getD .undecided).grant e (.single (definition.holding value)))
        else m.get? k) := by
  have hrequested := Amendment.result_requested
    (Amendment.privileges_granting hname e restriction value) r
  rw [lookUp_effect hp] at hrequested
  obtain ⟨n, hn, hget⟩ := exists_amendedDecisions h rfl
    (Amendment.restrictionSet_granting hknown name e value) hrequested
  refine ⟨n, hn, fun k => ?_⟩
  rw [← Amendment.replay_granting]
  exact hget k

/-- What the parameters grant, seen from a leaf. -/
theorem exists_granted_twice (h : provider.load path acl principal = .ok (known, m))
    (hname : Parameter.IsPart name) (hne : name ≠ "Delete") (hp : r.get? name = some p)
    (hrestriction : Parameter.IsPart restriction) {definition : RestrictionDefinition}
    (hknown : known.find? restriction = some definition) (e : Effect) (value : String) :
    ∃ n, (r.modifiedDecisions provider acl principal path
        (grantingParameters name e restriction value)).result = .ok n ∧
      ∀ k, n.get? k = if p.covers k then
        some ((((m.get? k).getD .undecided).grant e ∅).grant e (.single (definition.holding value)))
        else m.get? k := by
  have hmem : p ∈ r.privileges := (get?_eq_some_iff.1 hp).1
  obtain ⟨n, hn, hget⟩ := exists_modifiedDecisions h
    (Modifications.result_grantingParameters hname hne hrestriction e value)
    (Modifications.plan_granting hp hknown r.depths e value)
    (by simp [Modifications.grantingEdits, Edit.Within, hmem])
  refine ⟨n, hn, fun k => ?_⟩
  rw [hget, Edit.replay_grantingEdits]

/-- Both ways, seen from the loaded decisions. -/
theorem exists_granting (h : provider.load path acl principal = .ok (known, m))
    (hname : Parameter.IsPart name) (hne : name ≠ "Delete") (hp : r.get? name = some p)
    (hrestriction : Parameter.IsPart restriction)
    (hknown : (known.find? restriction).isSome = true) (e : Effect) (value : String) :
    ∃ n n', (r.amendedDecisions provider acl principal path
        (.granting name e restriction value)).result = .ok n ∧
      (r.modifiedDecisions provider acl principal path
        (grantingParameters name e restriction value)).result = .ok n' ∧
      n.same n' = !m.opposes e p := by
  obtain ⟨definition, hdefinition⟩ := Option.isSome_iff_exists.1 hknown
  obtain ⟨n, hn, hget⟩ := exists_granted h (Amendment.privilegeName_of_isPart hname) hp
    hdefinition e value
  obtain ⟨n', hn', hget'⟩ := exists_granted_twice h hname hne hp hrestriction hdefinition e value
  exact ⟨n, n', hn, hn', DecisionMap.same_granted (Provider.onAtoms_of_load h)
    (RestrictionSet.isEmpty_single _) hget hget'⟩

/-- Where the opposite of a leaf stands alone, the amendment leaves it in force beside what is
    granted, and the parameters leave what is granted only. -/
theorem decides_granting (hacl : r.Admits acl)
    (h : provider.load path acl principal = .ok (known, m)) (hname : Parameter.IsPart name)
    (hne : name ≠ "Delete") (hp : r.get? name = some p)
    (hrestriction : Parameter.IsPart restriction) {definition : RestrictionDefinition}
    (hknown : known.find? restriction = some definition) {e : Effect} (value : String)
    {leaf : String} {d : Decision} (hleaf : p.covers leaf = true) (hd : m.get? leaf = some d)
    (hopposes : d.opposes e = true) :
    Decides (r.amend provider acl principal path (.granting name e restriction value)).result
        principal leaf (d.onSide e fun _ => ⟨true, .single (definition.holding value)⟩) ∧
      Decides (r.modify provider acl principal path
          (grantingParameters name e restriction value)).result
        principal leaf
          (Decision.undecided.onSide e fun _ => ⟨true, .single (definition.holding value)⟩) := by
  have hsound := (Provider.onAtoms_of_load h).sound_get? leaf d hd
  constructor
  · obtain ⟨n, hn, hget⟩ := exists_granted h (Amendment.privilegeName_of_isPart hname) hp hknown e
      value
    refine decides_amend hacl hn ((hget leaf).trans ?_)
    rw [if_pos hleaf, hd, Option.getD_some]
    exact .some (Decision.grant_of_opposes_same hsound.clean hopposes
      (RestrictionSet.isEmpty_single _))
  · obtain ⟨n, hn, hget⟩ := exists_granted_twice h hname hne hp hrestriction hknown e value
    refine decides_modify hacl hn ?_
    rw [hget, if_pos hleaf, hd, Option.getD_some]
    exact .some (Decision.grant_grant_of_opposes_same hsound.clean hsound.consistent hopposes _)

/-- A privilege of the registry is granted under a known restriction by an amendment as by
    parameters, unless the opposite of some leaf is in force without restrictions, and the leaf
    is not granted yet. If there is such a leaf, and the registry makes sense of the stored
    entries, both ways lead to different entries: for each such leaf, the amendment leaves the
    opposite as it is beside what is granted under the restriction, and the parameters leave
    only that. -/
theorem granting_outcome (r : Registry) (provider : Provider) (acl : List Entry)
    (principal : Principal) (path : Option String)
    (hsupported : provider.supported path = .ok known)
    (hname : Parameter.IsPart name) (hne : name ≠ "Delete") (hp : r.get? name = some p)
    (hrestriction : Parameter.IsPart restriction)
    (hknown : (known.find? restriction).isSome = true) (e : Effect) (value : String) :
    ((∀ m, DecisionMap.ofEntries acl principal = .ok m → m.opposes e p = false) →
      r.SameOutcome provider acl principal path (.granting name e restriction value)
        (grantingParameters name e restriction value)) ∧
    (r.Admits acl →
      (∃ m, DecisionMap.ofEntries acl principal = .ok m ∧ m.opposes e p = true) →
      r.DifferentOutcome provider acl principal path (.granting name e restriction value)
        (grantingParameters name e restriction value)) ∧
    (r.Admits acl → ∀ definition m leaf d, known.find? restriction = some definition →
      DecisionMap.ofEntries acl principal = .ok m → p.covers leaf = true →
      m.get? leaf = some d → d.opposes e = true →
        Decides (r.amend provider acl principal path (.granting name e restriction value)).result
          principal leaf (d.onSide e fun _ => ⟨true, .single (definition.holding value)⟩) ∧
        Decides (r.modify provider acl principal path
            (grantingParameters name e restriction value)).result
          principal leaf
            (Decision.undecided.onSide e fun _ => ⟨true, .single (definition.holding value)⟩)) := by
  refine and_assoc.1 ⟨outcome_of_same_eq hsupported fun _ hload =>
    exists_granting hload hname hne hp hrestriction hknown e value, ?_⟩
  intro hacl definition m leaf d hdefinition hm hleaf hd hopposes
  exact decides_granting hacl (Provider.load_eq_ok_iff.2 ⟨hsupported, hm⟩) hname hne hp
    hrestriction hdefinition value hleaf hd hopposes

/-! ## In a diamond -/

/-- Reading is denied to the guest of the diamond. -/
def deniedEntries : List Entry := [⟨.text "guest", .deny, [.atomic "doc:read"], ∅⟩]

theorem isPart_reading : Parameter.IsPart "doc:read" := ⟨by decide, by decide, by decide⟩

theorem admits_denied : diamond.Admits deniedEntries := by
  simp [Admits, deniedEntries, (get?_eq_some_iff.1 get?_reading).1]

/-- A privilege whose name cannot be written into that of a parameter. -/
def unnamedPrivilege? : Except Error Registry :=
  ofDeclarations [("", []), ("doc:all", [.text ""])] (.text "doc:all")

theorem unnamedPrivilege?_isOk : unnamedPrivilege?.toOption.isSome = true := by decide +kernel

/-- The registry of a privilege without a name. -/
def unnamedPrivilege : Registry := unnamedPrivilege?.toOption.get unnamedPrivilege?_isOk

theorem find?_glob : Vocabulary.standard.find? RestrictionName.glob =
    some ⟨RestrictionName.glob, "String", .bool false⟩ := by decide +kernel

/-- Where nothing is stored, parameters without a name for the privilege do nothing. -/
theorem differentOutcome_unnamedPrivilege :
    unnamedPrivilege.DifferentOutcome .standard [] (.text "guest") (some "/")
      (.granting "" .allow RestrictionName.glob "*")
      (grantingParameters "" .allow RestrictionName.glob "*") := by
  have hload : Provider.standard.load (some "/") [] (.text "guest") =
      .ok (Vocabulary.standard, ∅) := rfl
  have hcovers : unnamedPrivilege.root.covers "" = true := by decide +kernel
  obtain ⟨n, hn, hget⟩ := exists_granted (r := unnamedPrivilege) hload (by decide)
    (get?_leaf hcovers) find?_glob .allow "*"
  have hread : (Modifications.ofParameters
      (grantingParameters "" .allow RestrictionName.glob "*")).result = .ok .empty := rfl
  refine differentOutcome_of_not_same (List.forall_mem_nil _) hn
    (result_modifiedDecisions_empty hload hread) ?_
  rw [← Bool.not_eq_true, DecisionMap.same_iff]
  intro hsame
  have hnone := (hget "").symm.trans (hsame "")
  rw [if_pos (Privilege.covers_atomic "")] at hnone
  cases hnone

/-- Parameters without a name for the restriction allow without it. -/
theorem differentOutcome_unnamed :
    diamond.DifferentOutcome ⟨[some unnamed]⟩ [] (.text "guest") (some "/")
      (.granting "doc:read" .allow "" "*") (grantingParameters "doc:read" .allow "" "*") := by
  have hload : Provider.load ⟨[some unnamed]⟩ (some "/") [] (.text "guest") =
      .ok ([unnamed], ∅) := rfl
  obtain ⟨n, hn, hget⟩ := exists_granted (r := diamond) hload (by decide) get?_reading
    (show Vocabulary.find? [unnamed] "" = some unnamed from rfl) .allow "*"
  have hread : (Modifications.ofParameters
      (grantingParameters "doc:read" .allow "" "*")).result =
        .ok (.valued [("doc:read", Effect.allow.word)]) := rfl
  have happart : Findings.Apart [(.atomic "doc:read", some (.ofEffect .allow))] :=
    List.pairwise_singleton _ _
  have hplan := Modifications.plan_valued diamond [unnamed] diamond.depths
    [("doc:read", Effect.allow.word)]
  rw [lookUp_effect get?_reading] at hplan
  obtain ⟨n', hn', hget'⟩ := exists_modifiedDecisions hload hread hplan
    (Findings.within_edits (by simpa using (get?_eq_some_iff.1 get?_reading).1) diamond.depths)
  refine differentOutcome_of_not_same (List.forall_mem_nil _) hn hn' ?_
  rw [← Bool.not_eq_true, DecisionMap.same_iff]
  intro hsame
  have hcovers := Privilege.covers_atomic "doc:read"
  have hboth := (hget "doc:read").symm.trans (hsame "doc:read")
  rw [hget', Edit.replay_edits happart, ← Amendment.hits_requests happart,
    Amendment.replay_granting, if_pos hcovers, if_pos hcovers] at hboth
  cases hboth with
  | some h => exact absurd h (by decide +kernel)

/-- What both ways grant in a diamond is not the same if the privilege is denied without
    restrictions, or if a name could not be written. -/
theorem not_sameOutcome_granting :
    diamond.contains "doc:read" = true ∧
    (Vocabulary.standard.find? RestrictionName.glob).isSome = true ∧
    ¬ diamond.SameOutcome .standard deniedEntries (.text "guest") (some "/")
      (.granting "doc:read" .allow RestrictionName.glob "*")
      (grantingParameters "doc:read" .allow RestrictionName.glob "*") ∧
    unnamedPrivilege.contains "" = true ∧
    ¬ unnamedPrivilege.SameOutcome .standard [] (.text "guest") (some "/")
      (.granting "" .allow RestrictionName.glob "*")
      (grantingParameters "" .allow RestrictionName.glob "*") ∧
    Provider.supported ⟨[some unnamed]⟩ (some "/") = .ok [unnamed] ∧
    ¬ diamond.SameOutcome ⟨[some unnamed]⟩ [] (.text "guest") (some "/")
      (.granting "doc:read" .allow "" "*") (grantingParameters "doc:read" .allow "" "*") := by
  have hdenied : diamond.DifferentOutcome .standard deniedEntries (.text "guest") (some "/")
      (.granting "doc:read" .allow RestrictionName.glob "*")
      (grantingParameters "doc:read" .allow RestrictionName.glob "*") := by
    have hopposes := exists_of_any_toOption
      (x := DecisionMap.ofEntries deniedEntries (.text "guest"))
      (p := fun m => m.opposes .allow (.atomic "doc:read")) (by decide +kernel)
    exact (outcome_of_same_eq rfl fun _ hload => exists_granting hload isPart_reading
      (by decide) get?_reading isPart_glob (by decide) .allow "*").2 admits_denied hopposes
  exact ⟨by decide +kernel, by decide, hdenied.not_sameOutcome, by decide +kernel,
    differentOutcome_unnamedPrivilege.not_sameOutcome, rfl,
    differentOutcome_unnamed.not_sameOutcome⟩

/-- Reading is granted in the same way if it is denied under a restriction, and not if it is
    denied without one: then the amendment leaves it denied as well. -/
theorem granting_outcome_diamond :
    diamond.SameOutcome .standard readingEntries (.text "guest") (some "/")
      (.granting "doc:read" .allow RestrictionName.glob "*")
      (grantingParameters "doc:read" .allow RestrictionName.glob "*") ∧
    diamond.DifferentOutcome .standard deniedEntries (.text "guest") (some "/")
      (.granting "doc:read" .allow RestrictionName.glob "*")
      (grantingParameters "doc:read" .allow RestrictionName.glob "*") ∧
    Decides (diamond.amend .standard deniedEntries (.text "guest") (some "/")
      (.granting "doc:read" .allow RestrictionName.glob "*")).result
      (.text "guest") "doc:read" ⟨⟨true, .single anywhere⟩, ⟨true, ∅⟩⟩ ∧
    Decides (diamond.modify .standard deniedEntries (.text "guest") (some "/")
      (grantingParameters "doc:read" .allow RestrictionName.glob "*")).result
      (.text "guest") "doc:read" ⟨⟨true, .single anywhere⟩, .off⟩ := by
  have houtcome := granting_outcome diamond .standard deniedEntries (.text "guest") (some "/") rfl
    isPart_reading (by decide) get?_reading isPart_glob (by decide) .allow "*"
  refine ⟨?_, ?_, ?_⟩
  · refine (granting_outcome diamond .standard readingEntries (.text "guest") (some "/") rfl
      isPart_reading (by decide) get?_reading isPart_glob (by decide) .allow "*").1 fun m hm => ?_
    have hfree := of_all_toOption (p := fun m => !m.opposes .allow (.atomic "doc:read"))
      (by decide +kernel) hm
    simpa using hfree
  · exact houtcome.2.1 admits_denied (exists_of_any_toOption (by decide +kernel))
  · obtain ⟨m, d, hm, hd, h⟩ : ∃ m d,
        DecisionMap.ofEntries deniedEntries (.text "guest") = .ok m ∧
        m.get? "doc:read" = some d ∧
        (d.opposes .allow && d.deny.same ⟨true, ∅⟩) = true :=
      DecisionMap.exists_get?_of_any (by decide +kernel)
    obtain ⟨hopposes, hdeny⟩ := Bool.and_eq_true_iff.1 h
    obtain ⟨hamend, hmodify⟩ := houtcome.2.2 admits_denied _ m "doc:read" d find?_glob hm
      (Privilege.covers_atomic "doc:read") hd hopposes
    refine ⟨hamend.congr ?_, hmodify⟩
    exact (Decision.same_iff_other .allow).2 ⟨Side.same_refl _, hdeny⟩

end Registry

end AccessControl
