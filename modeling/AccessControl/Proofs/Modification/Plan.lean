import AccessControl.Modification.Plan
import AccessControl.Proofs.Decision.Reachable
import AccessControl.Proofs.Success

/-!
# Carrying out plans

The edits of a plan are what the parameters of a request ask for, each of them on its own
(`Parameter.AsksFor`). They are about privileges of the registry, as all names are looked up
there, or about everything that is decided.

* `Modifications.exists_of_mem_plan`: where the edits of a plan come from;
* `Modifications.over_plan`: what they are about;
* `DecisionMap.Reachable.carryOut`: where a plan leads, up to its first error;
* `DecisionMap.Reachable.carryOut_fault?`: nothing else stops a plan.
-/

namespace AccessControl

/-! ## What edits stem from -/

/-- What a parameter may ask for: edits of privileges that have the names it gives, or of
    everything that is decided. -/
inductive Parameter.AsksFor (r : Registry) : Parameter → Edit → Prop
  /-- Something is done with a privilege. -/
  | privilege {p : Privilege} (hp : p ∈ r.privileges) (v : PrivilegeValue) :
    AsksFor r (.privilege p.id) ⟨v.operation ∅, some p⟩
  /-- A side of a privilege is taken back. -/
  | privilegeDelete {p : Privilege} (hp : p ∈ r.privileges) (e : Effect) :
    AsksFor r (.privilegeDelete p.id) ⟨.clear e, some p⟩
  /-- A restriction is deleted everywhere. -/
  | restrictionDelete (v : DeleteValue) (x : String) :
    AsksFor r (.restrictionDelete x) ⟨v.unrestricting x, none⟩
  /-- A restriction is deleted from a privilege. -/
  | restrictionDeleteOf {p : Privilege} (hp : p ∈ r.privileges) (v : DeleteValue) (x : String) :
    AsksFor r (.restrictionDeleteOf p.id x) ⟨v.unrestricting x, some p⟩
  /-- A restriction is added to everything. -/
  | restriction {x : String} {restriction : Restriction} (hx : restriction.name = some x) :
    AsksFor r (.restriction x) ⟨.restrict (.single restriction), none⟩
  /-- A side of a privilege is put in force under a restriction. -/
  | restrictionOf {p : Privilege} (hp : p ∈ r.privileges) {x : String} {restriction : Restriction}
    (hx : restriction.name = some x) (e : Effect) :
    AsksFor r (.restrictionOf p.id x e) ⟨.set e (.single restriction), some p⟩

theorem Parameter.AsksFor.mem_of_mem_target {r : Registry} {p : Parameter} {ed : Edit}
    (h : p.AsksFor r ed) : ∀ q ∈ ed.target, q ∈ r.privileges := by
  intro q hq
  cases h with
  | privilege hp | privilegeDelete hp | restrictionDeleteOf hp | restrictionOf hp =>
    cases hq
    exact hp
  | restrictionDelete | restriction => cases hq

/-- The parameters that ask for modifications. -/
def Modifications.parameters (m : Modifications) : List Parameter :=
  m.privileges.map (fun q => .privilege q.1) ++
    m.privilegeDeletes.map (fun q => .privilegeDelete q.1) ++
    m.restrictions.map RestrictionRequest.parameter ++
    m.restrictionDeletes.map RestrictionDelete.parameter

namespace Plan

theorem ok_mem_ofExcept_iff {x : Except Error (List Edit)} {ed : Edit} :
    .ok ed ∈ ofExcept x ↔ ∃ eds, x = .ok eds ∧ ed ∈ eds := by
  cases x with
  | error e => simp [ofExcept]
  | ok eds => simp [ofExcept]

/-- The first error of a plan, if there is one. -/
def fault? (plan : Plan) : Option Error := plan.findSome? errorOf?

theorem fault?_ofExcept (x : Except Error (List Edit)) : (ofExcept x).fault? = errorOf? x := by
  cases x with
  | error e => rfl
  | ok eds =>
    rw [ofExcept, fault?, List.findSome?_map]
    exact List.findSome?_eq_none_iff.2 fun ed _ => rfl

/-- The edits that a plan makes are about privileges of the registry. -/
def Over (r : Registry) (plan : Plan) : Prop :=
  ∀ ed, .ok ed ∈ plan → ∀ p ∈ ed.target, p ∈ r.privileges

end Plan

theorem Vocabulary.definition_of_find? {known : Vocabulary} {name : String}
    {definition : RestrictionDefinition} (h : known.find? name = some definition) :
    known.definition name = .ok definition := by
  rw [Vocabulary.definition, h]

/-- A definition is found under its name. -/
theorem Vocabulary.name_of_definition {known : Vocabulary} {name : String}
    {definition : RestrictionDefinition} (h : known.definition name = .ok definition) :
    definition.name = name := by
  rw [Vocabulary.definition] at h
  split at h
  next hfound =>
    obtain rfl := Except.ok.inj h
    simpa using List.find?_some hfound
  next => cases h

/-- A settled restriction has the name of its definition. -/
theorem RestrictionDraft.name_of_settle_ofRaw {definition : RestrictionDefinition} {value : Datum}
    {restriction : Restriction} (h : (ofRaw definition value).settle = .ok restriction) :
    restriction.name = some definition.name := by
  obtain ⟨vs, _, h⟩ := exists_of_bind_eq_ok h
  cases h
  rfl

/-! ## The phases of a plan -/

namespace Modifications

variable {m : Modifications} {r : Registry} {known : Vocabulary} {d : DepthIndex} {ed : Edit}

theorem exists_of_mem_deletePrivileges (h : .ok ed ∈ m.deletePrivileges r) :
    ∃ q ∈ m.privilegeDeletes, (Parameter.privilegeDelete q.1).AsksFor r ed := by
  obtain ⟨q, hq, h⟩ := List.mem_flatMap.1 h
  obtain ⟨eds, heds, h⟩ := Plan.ok_mem_ofExcept_iff.1 h
  obtain ⟨p, hp, heds⟩ := exists_of_bind_eq_ok heds
  cases heds
  obtain ⟨hp, hname⟩ := Registry.privilege_eq_ok_iff.1 hp
  obtain ⟨v, _, h⟩ := List.mem_flatMap.1 h
  obtain ⟨op, hop, rfl⟩ := List.mem_map.1 h
  have hclear : ∃ e, op = .clear e := by
    cases v with
    | all => exact (List.mem_pair.1 hop).elim (fun h => ⟨_, h⟩) fun h => ⟨_, h⟩
    | allow | deny => exact ⟨_, List.mem_singleton.1 hop⟩
  obtain ⟨e, rfl⟩ := hclear
  exact ⟨q, hq, Scalar.text.inj hname ▸ .privilegeDelete hp e⟩

/-- A target that is looked up is in the registry, under its name. -/
theorem of_mapM_privilege {α : Type} (name : α → String) {o : Option α} {target : Option Privilege}
    (h : (o.mapM fun a => r.privilege (.text (name a))) = .ok target) :
    target.map Privilege.id = o.map name ∧ ∀ p ∈ target, p ∈ r.privileges := by
  cases o with
  | none =>
    cases h
    exact ⟨rfl, nofun⟩
  | some a =>
    obtain ⟨p, hp, h⟩ := exists_of_bind_eq_ok h
    cases h
    obtain ⟨hp, hname⟩ := Registry.privilege_eq_ok_iff.1 hp
    exact ⟨congrArg some (Scalar.text.inj hname).symm, fun q hq => Option.some.inj hq ▸ hp⟩

theorem exists_of_mem_deleteRestrictions (h : .ok ed ∈ m.deleteRestrictions r known) :
    ∃ q ∈ m.restrictionDeletes, q.parameter.AsksFor r ed := by
  obtain ⟨q, hq, h⟩ := List.mem_flatMap.1 h
  obtain ⟨eds, heds, h⟩ := Plan.ok_mem_ofExcept_iff.1 h
  obtain ⟨_, _, heds⟩ := exists_of_bind_eq_ok heds
  obtain ⟨target, htarget, heds⟩ := exists_of_bind_eq_ok heds
  cases heds
  obtain ⟨v, _, rfl⟩ := List.mem_map.1 h
  obtain ⟨hname, hmem⟩ := of_mapM_privilege id htarget
  rw [Option.map_id, id] at hname
  refine ⟨q, hq, ?_⟩
  rw [RestrictionDelete.parameter, ← hname]
  cases target with
  | none => exact .restrictionDelete v q.restriction
  | some p => exact .restrictionDeleteOf (hmem p rfl) v q.restriction

theorem exists_of_mem_decidePrivileges (h : .ok ed ∈ m.decidePrivileges r d) :
    ∃ q ∈ m.privileges, (Parameter.privilege q.1).AsksFor r ed := by
  obtain ⟨eds, heds, h⟩ := Plan.ok_mem_ofExcept_iff.1 h
  obtain ⟨requested, hrequested, heds⟩ := exists_of_bind_eq_ok heds
  cases heds
  obtain ⟨p, hp, h⟩ := List.mem_flatMap.1 h
  obtain ⟨v, _, rfl⟩ := List.mem_map.1 h
  obtain ⟨q, hq, hfound⟩ := (corresponds_of_mapM hrequested).back _ (List.mem_mergeSort.1 hp)
  obtain ⟨p', hp', hfound⟩ := exists_of_bind_eq_ok hfound
  cases hfound
  obtain ⟨hp', hname⟩ := Registry.privilege_eq_ok_iff.1 hp'
  exact ⟨q, hq, Scalar.text.inj hname ▸ .privilege hp' v⟩

/-- What is added is what was requested. -/
theorem of_addition_eq_ok {q : RestrictionRequest} {a : Addition}
    (h : addition r known q = .ok a) :
    (a.privilege.map Privilege.id = q.target.map Prod.fst ∧ ∀ p ∈ a.privilege, p ∈ r.privileges) ∧
      a.effect = q.target.map Prod.snd ∧ a.restriction.name = some q.restriction := by
  obtain ⟨target, htarget, h⟩ := exists_of_bind_eq_ok h
  obtain ⟨definition, hdefinition, h⟩ := exists_of_bind_eq_ok h
  obtain ⟨restriction, hrestriction, h⟩ := exists_of_bind_eq_ok h
  cases h
  refine ⟨of_mapM_privilege Prod.fst htarget, rfl, ?_⟩
  rw [RestrictionDraft.name_of_settle_ofRaw hrestriction,
    Vocabulary.name_of_definition hdefinition]

/-- An edit that adds a restriction to a target stems from an addition for this target. -/
theorem exists_of_mem_additionsFor {all : List Addition} {target : Option Privilege}
    (h : ed ∈ additionsFor all target) :
    ∃ a ∈ all, a.privilege.map Privilege.id = target.map Privilege.id ∧
      ∃ restriction : Restriction, restriction.name = a.restriction.name ∧
        ed = ⟨adding restriction a.effect, target⟩ := by
  obtain ⟨restriction, _, h⟩ := List.mem_flatMap.1 h
  obtain ⟨effect, _, h⟩ := List.mem_filterMap.1 h
  split at h
  next hany =>
    obtain ⟨a, ha, hadds⟩ := List.any_eq_true.1 hany
    obtain ⟨hsame, heffect⟩ := Bool.and_eq_true_iff.1 hadds
    obtain rfl := beq_iff_eq.1 heffect
    obtain ⟨ha, htarget⟩ := List.mem_filter.1 ha
    refine ⟨a, ha, beq_iff_eq.1 htarget, restriction, ?_, (Option.some.inj h).symm⟩
    exact (RestrictionOf.name_eq_of_compare (Std.compare_eq_iff_beq.2 hsame)).symm
  next => cases h

theorem exists_of_mem_addRestrictions (h : .ok ed ∈ m.addRestrictions r known d) :
    ∃ q ∈ m.restrictions, q.parameter.AsksFor r ed := by
  obtain ⟨eds, heds, h⟩ := Plan.ok_mem_ofExcept_iff.1 h
  obtain ⟨all, hall, heds⟩ := exists_of_bind_eq_ok heds
  cases heds
  have hrequest {a : Addition} (ha : a ∈ all) := (corresponds_of_mapM hall).back a ha
  rcases List.mem_append.1 h with h | h
  · obtain ⟨a, ha, htarget, restriction, hname, rfl⟩ := exists_of_mem_additionsFor h
    obtain ⟨q, hq, hadds⟩ := hrequest ha
    obtain ⟨⟨hid, _⟩, heffect, hx⟩ := of_addition_eq_ok hadds
    refine ⟨q, hq, ?_⟩
    have hnone : q.target = none := Option.map_eq_none_iff.1 (hid.symm.trans htarget)
    rw [RestrictionRequest.parameter, heffect, hnone]
    exact .restriction (hname.trans hx)
  · obtain ⟨p, hp, h⟩ := List.mem_flatMap.1 h
    obtain ⟨a, ha, htarget, restriction, hname, rfl⟩ := exists_of_mem_additionsFor h
    obtain ⟨q, hq, hadds⟩ := hrequest ha
    obtain ⟨⟨hid, _⟩, heffect, hx⟩ := of_addition_eq_ok hadds
    refine ⟨q, hq, ?_⟩
    -- The targets are taken from the additions, which name privileges of the registry.
    obtain ⟨_, _, hp⟩ := List.mem_filterMap.1 hp
    obtain ⟨a', ha', hp⟩ := List.mem_filterMap.1 (List.mem_of_find?_eq_some hp)
    obtain ⟨q', _, hadds'⟩ := hrequest ha'
    have hp := (of_addition_eq_ok hadds').1.2 p hp
    obtain ⟨⟨_, e⟩, hq, rfl⟩ := Option.map_eq_some_iff.1 (hid.symm.trans htarget)
    rw [RestrictionRequest.parameter, heffect, hq]
    exact .restrictionOf hp (hname.trans hx) e

/-- The edits of a plan are what the parameters of the modifications ask for. -/
theorem exists_of_mem_plan (h : .ok ed ∈ m.plan r known d) :
    ∃ p ∈ m.parameters, p.AsksFor r ed := by
  simp only [parameters, List.mem_append, List.mem_map]
  simp only [plan, List.mem_append] at h
  rcases h with ((h | h) | h) | h
  · obtain ⟨q, hq, hasks⟩ := exists_of_mem_deletePrivileges h
    exact ⟨_, .inl (.inl (.inr ⟨q, hq, rfl⟩)), hasks⟩
  · obtain ⟨q, hq, hasks⟩ := exists_of_mem_deleteRestrictions h
    exact ⟨_, .inr ⟨q, hq, rfl⟩, hasks⟩
  · obtain ⟨q, hq, hasks⟩ := exists_of_mem_decidePrivileges h
    exact ⟨_, .inl (.inl (.inl ⟨q, hq, rfl⟩)), hasks⟩
  · obtain ⟨q, hq, hasks⟩ := exists_of_mem_addRestrictions h
    exact ⟨_, .inl (.inr ⟨q, hq, rfl⟩), hasks⟩

theorem over_plan (m : Modifications) (r : Registry) (known : Vocabulary) (d : DepthIndex) :
    (m.plan r known d).Over r := by
  intro ed hed
  obtain ⟨p, _, hasks⟩ := exists_of_mem_plan hed
  exact hasks.mem_of_mem_target

end Modifications

/-! ## Phases without requests -/

namespace Modifications

variable {m : Modifications} {r : Registry} {known : Vocabulary} {d : DepthIndex}

theorem decidePrivileges_of_nil (h : m.privileges = []) : m.decidePrivileges r d = [] := by
  rw [decidePrivileges, h, List.mapM_nil]
  simp [pure, Except.pure, bind, Except.bind, Plan.ofExcept]

theorem addRestrictions_of_nil (h : m.restrictions = []) : m.addRestrictions r known d = [] := by
  rw [addRestrictions, h, List.mapM_nil]
  simp [pure, Except.pure, bind, Except.bind, Plan.ofExcept, additionsFor]

theorem plan_empty : empty.plan r known d = [] := by
  rw [plan, decidePrivileges_of_nil rfl, addRestrictions_of_nil rfl]
  rfl

end Modifications

/-! ## Runs of a plan -/

namespace DecisionMap

variable {m n : DecisionMap} {r : Registry}

/-- An edit is about privileges of the registry, also if it is about all that is decided. -/
theorem Reachable.mem_targets (hm : m.Reachable r) {ed : Edit}
    (hed : ∀ p ∈ ed.target, p ∈ r.privileges) :
    ∀ p ∈ (ed.target.map fun p => [p]).getD m.privileges, p ∈ r.privileges := by
  cases htarget : ed.target with
  | none => exact fun p hp => (hm.isLeafMap.atomic p hp).1
  | some p => exact List.forall_mem_singleton.2 (hed p htarget)

theorem Reachable.edit (hm : m.Reachable r) {ed : Edit} (hed : ∀ p ∈ ed.target, p ∈ r.privileges)
    (h : m.edit ed = .ok n) : n.Reachable r :=
  hm.perform ed.operation (hm.mem_targets hed) h

/-- An edit of privileges of the registry can be made. -/
theorem Reachable.exists_edit (hm : m.Reachable r) {ed : Edit}
    (hed : ∀ p ∈ ed.target, p ∈ r.privileges) : ∃ n, m.edit ed = .ok n := by
  obtain ⟨_, _, _, hperform⟩ := exists_perform m ed.operation (hm.mem_targets hed)
  exact ⟨_, hperform⟩

theorem Reachable.carryOut (hm : m.Reachable r) {plan : Plan} (hplan : plan.Over r) :
    (m.carryOut plan).1.Reachable r := by
  induction plan generalizing m with
  | nil => exact hm
  | cons x plan ih =>
    have hrest : Plan.Over r plan := fun ed hed => hplan ed (List.mem_cons_of_mem _ hed)
    cases x with
    | error e => exact hm
    | ok ed =>
      rw [DecisionMap.carryOut]
      split
      next n hn => exact ih (hm.edit (hplan ed List.mem_cons_self) hn) hrest
      next => exact hm

/-- A plan that is about privileges of the registry stops at its first error, and at nothing
    else. -/
theorem Reachable.carryOut_fault? (hm : m.Reachable r) {plan : Plan} (hplan : plan.Over r) :
    (m.carryOut plan).2 = plan.fault? := by
  induction plan generalizing m with
  | nil => rfl
  | cons x plan ih =>
    cases x with
    | error e => rfl
    | ok ed =>
      have hed := hplan ed List.mem_cons_self
      obtain ⟨n, hn⟩ := hm.exists_edit hed
      rw [DecisionMap.carryOut, hn]
      exact ih (hm.edit hed hn) fun ed hed => hplan ed (List.mem_cons_of_mem _ hed)

end DecisionMap

end AccessControl
