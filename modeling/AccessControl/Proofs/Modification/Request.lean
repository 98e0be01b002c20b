import AccessControl.Proofs.Modification.Names
import AccessControl.Proofs.Modification.Priority

/-!
# Requests that are carried out

A request that leads to entries has been carried out to the end: its plan consists of edits,
all of which were made. Each of them is what one of the parameters asks for, whatever else
the request asks for.

* `Modifications.stems_of_ofParameters`: a request is read as what its parameters are about;
* `DecisionMap.exists_edits_of_carryOut`: a plan that is carried out to the end has no error;
* `Registry.Carries`, `Registry.LeadsTo.exists_carries`: what a request has done by its edits;
* `Registry.exists_of_modify`: what is known if there are entries.
-/

namespace AccessControl

/-! ## Reading -/

namespace Modifications

variable {m n : Modifications} {p q : Parameter} {values : List Datum}
  {parameters : List (String × Datum)}

/-- A name is there after values have been added to it, and so are the names before. -/
theorem mem_map_extend {α β : Type} (name : String) (values : List α)
    (l : List (String × List α)) (f : String → β) (b : β) :
    (b ∈ (extend name values l).map fun a => f a.1) ↔ (b ∈ l.map fun a => f a.1) ∨ b = f name := by
  have hmap (l : List (String × List α)) : (l.map fun a => f a.1) = (l.map Prod.fst).map f :=
    List.map_map.symm
  rw [hmap, hmap, names_extend]
  split
  next hname =>
    refine ⟨.inl, fun h => h.elim id ?_⟩
    rintro rfl
    exact List.mem_map_of_mem hname
  next => rw [List.map_append, List.mem_append, List.map_singleton, List.mem_singleton]

/-- A parameter is added to those before it, and none of them is lost. -/
theorem mem_parameters_add (h : (m.add p values).result = .ok n) :
    q ∈ n.parameters ↔ q ∈ m.parameters ∨ q = p := by
  cases p with
  | privilege p =>
    obtain ⟨vs, _, h⟩ := Journal.exists_of_result_bind h
    cases h
    simp only [parameters, List.mem_append, mem_map_extend p vs _ Parameter.privilege]
    tauto
  | privilegeDelete p =>
    obtain ⟨vs, _, h⟩ := Journal.exists_of_result_bind h
    cases h
    simp only [parameters, List.mem_append, mem_map_extend p vs _ Parameter.privilegeDelete]
    tauto
  | restrictionDeleteOf p x =>
    obtain ⟨vs, _, h⟩ := Journal.exists_of_result_bind h
    cases h
    simp only [parameters, List.map_append, List.map_singleton, RestrictionDelete.parameter,
      List.mem_append, List.mem_singleton, or_assoc]
  | restrictionDelete x =>
    cases h
    simp only [parameters, List.map_append, List.map_singleton, RestrictionDelete.parameter,
      List.mem_append, List.mem_singleton, or_assoc]
  | restriction x | restrictionOf p x e =>
    cases h
    simp only [parameters, List.map_append, List.map_singleton, RestrictionRequest.parameter,
      List.mem_append, List.mem_singleton, ← or_assoc, or_right_comm]

/-- What is deleted everywhere is deleted from both sides. -/
def DeletesAll (m : Modifications) : Prop :=
  ∀ q ∈ m.restrictionDeletes, q.privilege = none → q.values = [.all]

theorem DeletesAll.add (hm : m.DeletesAll) (h : (m.add p values).result = .ok n) :
    n.DeletesAll := by
  cases p with
  | privilege p | privilegeDelete p =>
    obtain ⟨vs, _, h⟩ := Journal.exists_of_result_bind h
    cases h
    exact hm
  | restrictionDeleteOf p x =>
    obtain ⟨vs, _, h⟩ := Journal.exists_of_result_bind h
    cases h
    exact List.forall_mem_append.2 ⟨hm, List.forall_mem_singleton.2 nofun⟩
  | restrictionDelete x =>
    cases h
    exact List.forall_mem_append.2 ⟨hm, List.forall_mem_singleton.2 fun _ => rfl⟩
  | restriction x | restrictionOf p x e =>
    cases h
    exact hm

/-- Modifications that have been read from some of the parameters of a request. -/
structure Stems (m : Modifications) (ps : List Parameter) : Prop where
  /-- They ask for what the parameters are about. -/
  mem_iff : ∀ q, q ∈ m.parameters ↔ q ∈ ps
  /-- What they delete everywhere is deleted from both sides. -/
  deletesAll : m.DeletesAll

/-- One more parameter is read. -/
theorem Stems.addNamed {done : List (String × Datum)} {parameter : String × Datum}
    (hm : m.Stems (Parameter.accepted done)) (h : (m.addNamed parameter).result = .ok n) :
    n.Stems (Parameter.accepted (done ++ [parameter])) := by
  obtain ⟨vs, _, h⟩ := Journal.exists_of_result_bind h
  rw [Parameter.accepted, List.filterMap_append, List.filterMap_cons, List.filterMap_nil]
  cases hname : Parameter.ofName? parameter.1 with
  | none =>
    rw [hname] at h
    cases h
    rwa [List.append_nil]
  | some p =>
    rw [hname] at h
    refine ⟨fun q => ?_, hm.deletesAll.add h⟩
    rw [mem_parameters_add h, hm.mem_iff, List.mem_append, List.mem_singleton]
    rfl

/-- A request is read as what its parameters are about. -/
theorem stems_of_ofParameters (h : (ofParameters parameters).result = .ok m) :
    m.Stems (Parameter.accepted parameters) := by
  have hempty : empty.Stems (Parameter.accepted []) := ⟨fun _ => Iff.rfl, List.forall_mem_nil _⟩
  rw [result_ofParameters] at h
  exact foldlM_append_induction (P := fun m done => Stems m (Parameter.accepted done))
    (fun _ _ _ _ _ hm hn => hm.addNamed hn) hempty h

end Modifications

/-! ## Edits -/

/-- What a parameter asks for is an edit of a privilege, or takes no decision where there is
    none. -/
theorem Parameter.AsksFor.within {r : Registry} {p : Parameter} {ed : Edit}
    (h : p.AsksFor r ed) : ed.Within r := by
  cases h with
  | privilege hp | privilegeDelete hp | restrictionDeleteOf hp | restrictionOf hp => exact hp
  | restrictionDelete v x => cases v <;> rfl
  | restriction => rfl

/-- Such an edit leaves the name of an aggregate alone. -/
theorem Edit.Within.act_none {r : Registry} {ed : Edit} (hed : ed.Within r) {p : Privilege}
    (hp : p ∈ r.aggregates) (hcovers : ed.covers p.id = true) : ed.operation.act none = none := by
  obtain ⟨op, target⟩ := ed
  cases target with
  | none => exact hed
  | some q =>
    have hnot : q.covers p.id = false :=
      Registry.covers_eq hed p.id ▸ Registry.covers_of_mem_aggregates hp q.id
    exact absurd hcovers (by simp [covers, hnot])

/-- What is kept by edits one after the other. -/
theorem Edit.replay_induction {P : Option Decision → Prop} {edits : List Edit}
    {o : Option Decision} (step : ∀ ed ∈ edits, ∀ o, P o → P (ed.operation.act o)) (h : P o) :
    P (replay edits o) :=
  List.foldlRecOn edits _ h fun o ho ed hed => step ed hed o ho

/-- Carrying out a plan to the end leaves no error in it. -/
theorem DecisionMap.exists_edits_of_carryOut {m n : DecisionMap} {plan : Plan}
    (h : m.carryOut plan = (n, none)) : ∃ edits : List Edit, plan = edits.map .ok := by
  induction plan generalizing m with
  | nil => exact ⟨[], rfl⟩
  | cons x plan ih =>
    cases x with
    | error e => cases h
    | ok ed =>
      rw [carryOut] at h
      split at h
      next mid hmid =>
        obtain ⟨edits, rfl⟩ := ih h
        exact ⟨ed :: edits, rfl⟩
      next => cases h

/-- Decisions about atomic privileges are so however far a plan is carried out. -/
theorem DecisionMap.OnAtoms.carryOut {m : DecisionMap} (hm : m.OnAtoms) (plan : Plan) :
    (m.carryOut plan).1.OnAtoms := by
  induction plan generalizing m with
  | nil => exact hm
  | cons x plan ih =>
    cases x with
    | error e => exact hm
    | ok ed =>
      rw [DecisionMap.carryOut]
      split
      next n hn => exact ih (hm.perform hn)
      next => exact hm

namespace Modifications

variable {m : Modifications} {r : Registry} {known : Vocabulary} {d : DepthIndex}

/-- A restriction that is deleted everywhere is deleted by one of the edits, if there are only
    edits. -/
theorem mem_of_deleted {edits : List Edit} (hm : m.DeletesAll)
    (hplan : m.plan r known d = edits.map .ok) {x : String}
    (hx : .restrictionDelete x ∈ m.parameters) : ⟨.unrestrictBoth [some x], none⟩ ∈ edits := by
  have hrequest : ⟨none, x, [.all]⟩ ∈ m.restrictionDeletes := by
    simp only [parameters, List.mem_append, List.mem_map, reduceCtorEq, and_false, exists_false,
      false_or] at hx
    rcases hx with ⟨q, _, hq⟩ | ⟨q, hq, heq⟩
    · rw [RestrictionRequest.parameter] at hq
      split at hq <;> cases hq
    · obtain ⟨privilege, name, values⟩ := q
      cases privilege with
      | some p => cases heq
      | none =>
        cases heq
        exact hm _ hq rfl ▸ hq
  -- There is no error in its place, as there are no errors.
  have hdeleted : Plan.ofExcept (do
      let _ ← known.definition x
      return [⟨.unrestrictBoth [some x], none⟩]) ⊆ m.plan r known d := by
    intro ed hed
    refine List.mem_append_left _ (List.mem_append_left _ (List.mem_append_right _ ?_))
    exact List.mem_flatMap.2 ⟨_, hrequest, hed⟩
  rw [hplan] at hdeleted
  cases hknown : known.definition x with
  | error e =>
    rw [hknown] at hdeleted
    obtain ⟨_, _, heq⟩ := List.mem_map.1 (hdeleted List.mem_cons_self)
    cases heq
  | ok definition =>
    rw [hknown] at hdeleted
    obtain ⟨ed, hed, heq⟩ := List.mem_map.1 (hdeleted List.mem_cons_self)
    cases heq
    exact hed

end Modifications

/-! ## Main result -/

namespace Registry

variable {r : Registry} {provider : Provider} {acl entries : List Entry} {principal : Principal}
  {path : Option String} {known : Vocabulary} {parameters : List (String × Datum)}
  {m n : DecisionMap}

/-- What a request has done with decisions: the edits that its parameters ask for. -/
structure Carries (r : Registry) (parameters : List (String × Datum)) (m n : DecisionMap)
    (edits : List Edit) : Prop where
  /-- Each edit is what a parameter asks for. -/
  asked : ∀ ed ∈ edits, ∃ p ∈ Parameter.accepted parameters, p.AsksFor r ed
  /-- What is deleted everywhere is deleted by one of them. -/
  deleted : ∀ x, .restrictionDelete x ∈ Parameter.accepted parameters →
    ⟨.unrestrictBoth [some x], none⟩ ∈ edits
  /-- They lead to decisions about atomic privileges. -/
  onAtoms : n.OnAtoms
  /-- They are made one after the other, each of them where it is about. -/
  get? : ∀ k, n.get? k = Edit.replay (edits.filter (·.covers k)) (m.get? k)

/-- If nothing was decided under the name of an aggregate, nothing is afterwards. -/
theorem Carries.unbundled {edits : List Edit} (h : r.Carries parameters m n edits)
    (hm : m.Unbundled r) : n.Unbundled r := by
  intro p hp hdepth
  rw [h.get?]
  refine Edit.replay_induction (P := fun o => o = none) (fun ed hed o ho => ?_) (hm p hp hdepth)
  obtain ⟨hed, hcovers⟩ := List.mem_filter.1 hed
  obtain ⟨q, _, hasks⟩ := h.asked ed hed
  rw [ho, hasks.within.act_none hp hcovers]

/-- Where a request leads, it leads by its edits. -/
theorem LeadsTo.exists_carries (h : r.LeadsTo known parameters m n) (hm : m.OnAtoms) :
    ∃ edits, r.Carries parameters m n edits := by
  obtain ⟨modifications, hread, hrun⟩ := h
  have hstems := Modifications.stems_of_ofParameters hread
  obtain ⟨edits, hplan⟩ := DecisionMap.exists_edits_of_carryOut hrun
  have hasked : ∀ ed ∈ edits, ∃ p ∈ Parameter.accepted parameters, p.AsksFor r ed := by
    intro ed hed
    have hmem : .ok ed ∈ modifications.plan r known r.depths :=
      hplan ▸ List.mem_map_of_mem hed
    obtain ⟨p, hp, hasks⟩ := Modifications.exists_of_mem_plan hmem
    exact ⟨p, (hstems.mem_iff p).1 hp, hasks⟩
  have hwithin : ∀ ed ∈ edits, ed.Within r := by
    intro ed hed
    obtain ⟨p, _, hasks⟩ := hasked ed hed
    exact hasks.within
  obtain ⟨n', hn', hget⟩ := hm.exists_carryOut hwithin
  have hatoms := hm.carryOut (modifications.plan r known r.depths)
  rw [hrun] at hatoms
  rw [hplan, hn'] at hrun
  obtain rfl := congrArg Prod.fst hrun
  refine ⟨edits, hasked, fun x hx => ?_, hatoms, hget⟩
  exact Modifications.mem_of_deleted hstems.deletesAll hplan ((hstems.mem_iff _).2 hx)

/-- A request that leads to entries starts from what is stored, and what it leads to is folded
    and written. -/
theorem exists_of_modify
    (h : (r.modify provider acl principal path parameters).result = .ok entries) :
    ∃ m n edits, DecisionMap.ofEntries acl principal = .ok m ∧
      r.Carries parameters m n edits ∧
      entries = (n.consolidate r.depths r).entries r.depths principal := by
  obtain ⟨n, hn, h⟩ := Journal.exists_of_result_bind h
  cases h
  obtain ⟨known, _, hn⟩ := Journal.exists_of_result_bind hn
  obtain ⟨m, hm, hn⟩ := Journal.exists_of_result_bind hn
  obtain ⟨modifications, hread, hn⟩ := Journal.exists_of_result_bind hn
  have hleads : r.LeadsTo known parameters m n := by
    refine ⟨modifications, hread, ?_⟩
    generalize m.carryOut (modifications.plan r known r.depths) = x at hn
    obtain ⟨n', _ | e⟩ := x
    · cases hn
      rfl
    · cases hn
  rw [Journal.result_liftM] at hm
  obtain ⟨edits, hcarries⟩ := hleads.exists_carries (DecisionMap.onAtoms_of_ofEntries hm)
  exact ⟨m, n, edits, hm, hcarries, rfl⟩

end Registry

end AccessControl
