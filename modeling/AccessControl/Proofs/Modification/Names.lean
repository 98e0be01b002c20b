import AccessControl.Proofs.Modification.Amending
import AccessControl.Proofs.Modification.Plan

/-!
# Unknown names

The parameters of a request name privileges and restrictions. Each of these names is looked up
when the phase of its parameter is planned, whatever the values of the parameter are, and the
first one that is not known stops the request. Nothing else does: texts that are no known words
are left out, every text is a value of a restriction, and what has been decided can always be
folded and written.

* `Parameter.lookups`, `Parameter.allLookups`: the names of a parameter, and those of a request
  in the order in which they are looked up;
* `Modifications.exists_reads`: a request of texts is read, and none of its names is lost;
* `Modifications.Reads.fault?_plan`: the plan of a request has an error where a name is not known;
* `Registry.failsOnUnknown_modify`: a request fails for the first unknown name only.
-/

namespace AccessControl

/-! ## Names of a request -/

/-- A name that is looked up. -/
inductive Lookup
  | privilege (name : String)
  | restriction (name : String)
  deriving DecidableEq

namespace Lookup

variable (r : Registry) (known : Vocabulary)

/-- Whether a name is known: as that of a privilege of a registry, or of a restriction that is
    supported. -/
def isKnown : Lookup → Bool
  | privilege name => r.contains name
  | restriction name => known.any fun d => d.name == name

/-- The error for a name that is not known. -/
def error : Lookup → Error
  | privilege name => .unknownPrivilege (.text name)
  | restriction name => .unsupportedRestriction name

/-- What is wrong with a name, if it is not known. -/
def fault? (l : Lookup) : Option Error :=
  (Option.guard (fun l : Lookup => !l.isKnown r known) l).map error

end Lookup

/-- The phases in which a request is carried out. -/
inductive Phase
  | deletePrivileges
  | deleteRestrictions
  | decidePrivileges
  | addRestrictions
  deriving DecidableEq

/-- All phases, one after the other. -/
def Phase.inOrder : List Phase :=
  [deletePrivileges, deleteRestrictions, decidePrivileges, addRestrictions]

namespace Parameter

/-- The phase in which a parameter counts. -/
def phase : Parameter → Phase
  | privilegeDelete _ => .deletePrivileges
  | restrictionDelete _ | restrictionDeleteOf _ _ => .deleteRestrictions
  | privilege _ => .decidePrivileges
  | restriction _ | restrictionOf _ _ _ => .addRestrictions

/-- The names that are looked up for a parameter, one after the other. -/
def lookups : Parameter → List Lookup
  | privilegeDelete p | privilege p => [.privilege p]
  | restrictionDelete x | restriction x => [.restriction x]
  | restrictionDeleteOf p x => [.restriction x, .privilege p]
  | restrictionOf p x _ => [.privilege p, .restriction x]

/-- Whether a parameter names something that is not known. -/
def namesUnknown (r : Registry) (known : Vocabulary) (p : Parameter) : Bool :=
  p.lookups.any fun l => !l.isKnown r known

/-- The names that are looked up in a phase. -/
def lookupsIn (ph : Phase) (ps : List Parameter) : List Lookup :=
  (ps.filter fun p => p.phase == ph).flatMap lookups

/-- All names that are looked up, phase by phase. -/
def allLookups (ps : List Parameter) : List Lookup :=
  Phase.inOrder.flatMap fun ph => lookupsIn ph ps

/-- The first name that is looked up and is not known. -/
def firstUnknown? (r : Registry) (known : Vocabulary) (ps : List Parameter) : Option Lookup :=
  (allLookups ps).find? fun l => !l.isKnown r known

/-- What the parameters of a request are about, as far as they are about access control. -/
def accepted (parameters : List (String × Datum)) : List Parameter :=
  parameters.filterMap fun q => ofName? q.1

theorem lookupsIn_append (ph : Phase) (ps ps' : List Parameter) :
    lookupsIn ph (ps ++ ps') = lookupsIn ph ps ++ lookupsIn ph ps' := by
  rw [lookupsIn, List.filter_append, List.flatMap_append]
  rfl

theorem lookupsIn_phase (p : Parameter) : lookupsIn p.phase [p] = p.lookups := by
  rw [lookupsIn, List.filter_singleton, beq_self_eq_true, cond_true, List.flatMap_singleton]

theorem lookupsIn_of_ne {p : Parameter} {ph : Phase} (h : p.phase ≠ ph) :
    lookupsIn ph [p] = [] := by
  rw [lookupsIn, List.filter_singleton, beq_eq_false_iff_ne.2 h, cond_false, List.flatMap_nil]

/-- No name of a parameter is left out. -/
theorem mem_allLookups_iff {ps : List Parameter} {l : Lookup} :
    l ∈ allLookups ps ↔ ∃ p ∈ ps, l ∈ p.lookups := by
  have hphase (ph : Phase) : ph ∈ Phase.inOrder := by cases ph <;> decide
  simp only [allLookups, lookupsIn, List.mem_flatMap, List.mem_filter, beq_iff_eq]
  constructor
  · rintro ⟨_, _, p, ⟨hp, _⟩, hl⟩
    exact ⟨p, hp, hl⟩
  · rintro ⟨p, hp, hl⟩
    exact ⟨p.phase, hphase _, p, ⟨hp, rfl⟩, hl⟩

theorem firstUnknown?_eq_none_iff (r : Registry) (known : Vocabulary) (ps : List Parameter) :
    firstUnknown? r known ps = none ↔ ∀ p ∈ ps, p.namesUnknown r known = false := by
  simp only [firstUnknown?, List.find?_eq_none, mem_allLookups_iff, namesUnknown,
    List.any_eq_false]
  exact ⟨fun h p hp l hl => h l ⟨p, hp, hl⟩, fun h l ⟨p, hp, hl⟩ => h p hp l hl⟩

/-- The first fault is that of the first name that is not known. -/
theorem findSome?_fault? (r : Registry) (known : Vocabulary) (ps : List Parameter) :
    (allLookups ps).findSome? (Lookup.fault? r known) =
      (firstUnknown? r known ps).map Lookup.error := by
  rw [firstUnknown?, List.find?_eq_findSome?_guard, List.map_findSome?]
  rfl

end Parameter

/-! ## Reading a request -/

/-- What a parameter of a request holds: a text, or a list of texts. -/
inductive Datum.Texts : Datum → Prop
  | one (text : String) : Texts (.text text)
  | several (texts : List String) : Texts (.list (texts.map .text))

theorem Datum.Texts.exists_values {d : Datum} (h : d.Texts) :
    ∃ vs, d.values = .ok vs ∧ ∀ v ∈ vs, ∃ text, v = .text text := by
  cases h with
  | one text => exact ⟨_, rfl, List.forall_mem_singleton.2 ⟨text, rfl⟩⟩
  | several texts =>
    refine ⟨_, rfl, fun v hv => ?_⟩
    obtain ⟨text, _, rfl⟩ := List.mem_map.1 hv
    exact ⟨text, rfl⟩

/-- The names that are looked up for a restriction that is deleted. -/
def RestrictionDelete.lookups (q : RestrictionDelete) : List Lookup :=
  [.restriction q.restriction] ++ q.privilege.toList.map .privilege

/-- The names that are looked up for a restriction that is added. -/
def RestrictionRequest.lookups (q : RestrictionRequest) : List Lookup :=
  q.target.toList.map (fun t => .privilege t.1) ++ [.restriction q.restriction]

namespace Modifications

variable {m n : Modifications} {p : Parameter} {ps : List Parameter} {values : List Datum}
  {ph : Phase} {f : Lookup → Option Error}

/-- The names of privileges that there are values for. -/
def named {α : Type} (l : List (String × List α)) : List Lookup := l.map fun q => .privilege q.1

/-- The names that modifications look up in a phase. -/
def lookups (m : Modifications) : Phase → List Lookup
  | .deletePrivileges => named m.privilegeDeletes
  | .deleteRestrictions => m.restrictionDeletes.flatMap RestrictionDelete.lookups
  | .decidePrivileges => named m.privileges
  | .addRestrictions => m.restrictions.flatMap RestrictionRequest.lookups

/-- What a parameter says with texts can be added. -/
theorem exists_add (m : Modifications) (p : Parameter)
    (h : ∀ v ∈ values, ∃ text, v = .text text) : ∃ n, (m.add p values).result = .ok n := by
  have hword : ∀ v ∈ values, v.IsWord := by
    intro v hv
    obtain ⟨text, rfl⟩ := h v hv
    exact ⟨text, rfl⟩
  cases p with
  | privilege p => exact ⟨_, by rw [add, readAll_privilegeValues hword]; rfl⟩
  | privilegeDelete p => exact ⟨_, by rw [add, readAll_deleteValues hword]; rfl⟩
  | restrictionDeleteOf p x => exact ⟨_, by rw [add, readAll_deleteValues hword]; rfl⟩
  | restriction x => exact ⟨_, rfl⟩
  | restrictionOf p x e => exact ⟨_, rfl⟩
  | restrictionDelete x => exact ⟨_, rfl⟩

/-- A name that is there already does not come again, which makes no difference to what is
    found first. -/
theorem findSome?_extend {α : Type} (name : String) (values : List α)
    (l : List (String × List α)) (f : Lookup → Option Error) :
    (named (extend name values l)).findSome? f =
      (named l ++ [Lookup.privilege name]).findSome? f := by
  have hnamed (l : List (String × List α)) : named l = (l.map Prod.fst).map .privilege :=
    List.map_map.symm
  rw [hnamed, hnamed, names_extend]
  split
  next hmem =>
    rw [List.findSome?_append]
    cases hfound : ((l.map Prod.fst).map Lookup.privilege).findSome? f with
    | some e => rfl
    | none =>
      have hname := List.findSome?_eq_none_iff.1 hfound _ (List.mem_map_of_mem hmem)
      rw [List.findSome?_singleton, hname]
      rfl
  next => rw [List.map_append, List.map_singleton]

/-- A parameter adds its names to those of its phase. -/
theorem findSome?_lookups_add (h : (m.add p values).result = .ok n) :
    (n.lookups p.phase).findSome? f = (m.lookups p.phase ++ p.lookups).findSome? f := by
  cases p with
  | privilege p =>
    obtain ⟨vs, _, h⟩ := Journal.exists_of_result_bind h
    cases h
    exact findSome?_extend p vs m.privileges f
  | privilegeDelete p =>
    obtain ⟨vs, _, h⟩ := Journal.exists_of_result_bind h
    cases h
    exact findSome?_extend p vs m.privilegeDeletes f
  | restrictionDeleteOf p x =>
    obtain ⟨vs, _, h⟩ := Journal.exists_of_result_bind h
    cases h
    exact congrArg _ List.flatMap_append
  | restriction x | restrictionOf p x e | restrictionDelete x =>
    cases h
    exact congrArg _ List.flatMap_append

/-- It leaves the other phases alone. -/
theorem lookups_add_of_ne (h : (m.add p values).result = .ok n) (hne : p.phase ≠ ph) :
    n.lookups ph = m.lookups ph := by
  cases p with
  | privilege p | privilegeDelete p | restrictionDeleteOf p x =>
    obtain ⟨vs, _, h⟩ := Journal.exists_of_result_bind h
    cases h
    cases ph <;> first | rfl | exact absurd rfl hne
  | restriction x | restrictionOf p x e | restrictionDelete x =>
    cases h
    cases ph <;> first | rfl | exact absurd rfl hne

/-- The restrictions that modifications add have single values. -/
def Plain (m : Modifications) : Prop := ∀ q ∈ m.restrictions, ∀ v ∈ q.values, ∃ s, v = .scalar s

theorem Plain.add (hm : m.Plain) (hv : ∀ v ∈ values, ∃ text, v = .text text)
    (h : (m.add p values).result = .ok n) : n.Plain := by
  have hvalues : ∀ v ∈ values, ∃ s, v = .scalar s := by
    intro v hmem
    obtain ⟨text, rfl⟩ := hv v hmem
    exact ⟨.text text, rfl⟩
  cases p with
  | privilege p | privilegeDelete p | restrictionDeleteOf p x =>
    obtain ⟨vs, _, h⟩ := Journal.exists_of_result_bind h
    cases h
    exact hm
  | restrictionDelete x =>
    cases h
    exact hm
  | restriction x | restrictionOf p x e =>
    cases h
    exact List.forall_mem_append.2 ⟨hm, List.forall_mem_singleton.2 hvalues⟩

/-- Modifications that parameters ask for by texts. -/
structure Reads (m : Modifications) (ps : List Parameter) : Prop where
  /-- In each phase the names of the parameters are looked up. A name may be looked up once
      for several parameters. -/
  lookups : ∀ ph (f : Lookup → Option Error),
    (m.lookups ph).findSome? f = (Parameter.lookupsIn ph ps).findSome? f
  /-- Restrictions have single values. -/
  plain : m.Plain

theorem reads_empty : empty.Reads [] where
  lookups ph _ := by cases ph <;> rfl
  plain := List.forall_mem_nil _

theorem Reads.add (hm : m.Reads ps) (hv : ∀ v ∈ values, ∃ text, v = .text text)
    (h : (m.add p values).result = .ok n) : n.Reads (ps ++ [p]) where
  lookups ph f := by
    rw [Parameter.lookupsIn_append, List.findSome?_append, ← hm.lookups]
    by_cases hph : p.phase = ph
    · subst hph
      rw [findSome?_lookups_add h, List.findSome?_append, Parameter.lookupsIn_phase]
    · rw [lookups_add_of_ne h hph, Parameter.lookupsIn_of_ne hph, List.findSome?_nil,
        Option.or_none]
  plain := hm.plain.add hv h

/-- One more parameter is read. -/
theorem Reads.exists_addNamed {done : List (String × Datum)} {q : String × Datum}
    (hm : m.Reads (Parameter.accepted done)) (hq : q.2.Texts) :
    ∃ n, (m.addNamed q).result = .ok n ∧ n.Reads (Parameter.accepted (done ++ [q])) := by
  obtain ⟨vs, hvs, htext⟩ := hq.exists_values
  rw [addNamed, Journal.result_bind, Journal.result_liftM, hvs, Except.bind,
    Parameter.accepted, List.filterMap_append, List.filterMap_cons, List.filterMap_nil]
  cases Parameter.ofName? q.1 with
  | none => exact ⟨m, rfl, by rwa [List.append_nil]⟩
  | some p =>
    obtain ⟨n, hn⟩ := m.exists_add p htext
    exact ⟨n, hn, hm.add htext hn⟩

/-- A request of texts is read, and none of its names is lost. -/
theorem exists_reads {parameters : List (String × Datum)} (h : ∀ q ∈ parameters, q.2.Texts) :
    ∃ m, (ofParameters parameters).result = .ok m ∧ m.Reads (Parameter.accepted parameters) := by
  have hempty : empty.Reads (Parameter.accepted []) := reads_empty
  rw [result_ofParameters]
  exact exists_foldlM_append (P := fun m done => Reads m (Parameter.accepted done))
    (fun q hq m done hm => hm.exists_addNamed (h q hq)) hempty

end Modifications

/-! ## Planning a request -/

theorem findSome?_flatMap {α β : Type} (as : List α) (g : α → List β) (f : β → Option Error) :
    (as.flatMap g).findSome? f = as.findSome? fun a => (g a).findSome? f := by
  induction as with
  | nil => rfl
  | cons a as ih =>
    rw [List.flatMap_cons, List.findSome?_append, ih, List.findSome?_cons]
    cases (g a).findSome? f <;> rfl

section Looking

variable (r : Registry) (known : Vocabulary)

theorem Registry.errorOf?_privilege (name : String) :
    errorOf? (r.privilege (.text name)) = Lookup.fault? r known (.privilege name) := by
  rw [Registry.privilege, Lookup.fault?, Option.guard, Lookup.isKnown, contains]
  cases r.get? name <;> rfl

/-- The privilege of a target is looked up, if there is a target. -/
theorem Registry.errorOf?_target {α : Type} (name : α → String) (o : Option α) :
    errorOf? (o.mapM fun a => r.privilege (.text (name a))) =
      (o.toList.map fun a => Lookup.privilege (name a)).findSome? (Lookup.fault? r known) := by
  cases o with
  | none => rfl
  | some a =>
    rw [Option.toList_some, List.map_singleton, List.findSome?_singleton,
      ← r.errorOf?_privilege known]
    exact errorOf?_bind_of_none _ fun p => rfl

theorem Vocabulary.errorOf?_definition (name : String) :
    errorOf? (known.definition name) = Lookup.fault? r known (.restriction name) := by
  have hknown : (known.find? name).isSome = known.any fun d => d.name == name := by
    rw [find?, List.isSome_find?, List.any_reverse]
  rw [Vocabulary.definition, Lookup.fault?, Option.guard, Lookup.isKnown, ← hknown]
  cases known.find? name <;> rfl

end Looking

namespace Modifications

variable {m : Modifications}

/-- Single values make up a restriction, whatever its arity is. -/
theorem exists_settle_ofRaw (definition : RestrictionDefinition) {values : List Datum}
    (h : ∀ v ∈ values, ∃ s, v = .scalar s) :
    ∃ restriction, (RestrictionDraft.ofRaw definition (.list values)).settle =
      .ok restriction := by
  have hone : ∀ v ∈ RestrictionDraft.one (Datum.list values).firstOfList, ∃ s, v = .scalar s := by
    cases values with
    | nil => exact List.forall_mem_nil _
    | cons v values =>
      obtain ⟨⟨s, rfl⟩, _⟩ := List.forall_mem_cons.1 h
      cases s <;> simp [RestrictionDraft.one, Datum.firstOfList]
  refine RestrictionDraft.Single.exists_settle fun v hv => ?_
  cases hmulti : definition.multi.isTrue with
  | true =>
    simp only [RestrictionDraft.ofRaw, RestrictionDraft.ofValue, RestrictionDraft.shaped,
      Option.map_some, Option.getD_some, hmulti, if_true] at hv
    exact h v hv
  | false =>
    simp only [RestrictionDraft.ofRaw, RestrictionDraft.ofValue, RestrictionDraft.shaped,
      Option.map_some, Option.getD_some, hmulti, Bool.false_eq_true, if_false] at hv
    exact hone v hv

theorem fault?_deletePrivileges (m : Modifications) (r : Registry) (known : Vocabulary) :
    (m.deletePrivileges r).fault? =
      (m.lookups .deletePrivileges).findSome? (Lookup.fault? r known) := by
  rw [lookups, named, List.findSome?_map, deletePrivileges, Plan.fault?, findSome?_flatMap]
  congr 1
  funext delete
  refine (Plan.fault?_ofExcept _).trans ?_
  rw [Function.comp_apply, ← r.errorOf?_privilege known]
  exact errorOf?_bind_of_none _ fun p => rfl

theorem fault?_deleteRestrictions (m : Modifications) (r : Registry) (known : Vocabulary) :
    (m.deleteRestrictions r known).fault? =
      (m.lookups .deleteRestrictions).findSome? (Lookup.fault? r known) := by
  rw [lookups, deleteRestrictions, Plan.fault?, findSome?_flatMap, findSome?_flatMap]
  congr 1
  funext delete
  refine (Plan.fault?_ofExcept _).trans ?_
  have htarget := r.errorOf?_target known id delete.privilege
  simp only [id] at htarget
  rw [RestrictionDelete.lookups, List.findSome?_append, List.findSome?_singleton,
    ← known.errorOf?_definition r, ← htarget]
  exact errorOf?_bind _ fun _ => errorOf?_bind_of_none _ fun target => rfl

theorem fault?_decidePrivileges (m : Modifications) (r : Registry) (known : Vocabulary)
    (d : DepthIndex) : (m.decidePrivileges r d).fault? =
      (m.lookups .decidePrivileges).findSome? (Lookup.fault? r known) := by
  rw [lookups, named, List.findSome?_map, decidePrivileges, Plan.fault?_ofExcept]
  refine (errorOf?_bind_of_none _ fun requested => rfl).trans ?_
  rw [errorOf?_mapM]
  congr 1
  funext p
  rw [Function.comp_apply, ← r.errorOf?_privilege known]
  exact errorOf?_bind_of_none _ fun p => rfl

theorem fault?_addRestrictions (hm : m.Plain) (r : Registry) (known : Vocabulary)
    (d : DepthIndex) : (m.addRestrictions r known d).fault? =
      (m.lookups .addRestrictions).findSome? (Lookup.fault? r known) := by
  have haddition : ∀ q ∈ m.restrictions,
      errorOf? (addition r known q) = q.lookups.findSome? (Lookup.fault? r known) := by
    intro q hq
    rw [RestrictionRequest.lookups, List.findSome?_append, ← r.errorOf?_target known,
      List.findSome?_singleton, ← known.errorOf?_definition r]
    refine errorOf?_bind _ fun p => errorOf?_bind_of_none _ fun definition => ?_
    obtain ⟨restriction, hrestriction⟩ := exists_settle_ofRaw definition (hm q hq)
    rw [hrestriction]
    rfl
  rw [lookups, findSome?_flatMap, addRestrictions, Plan.fault?_ofExcept]
  refine (errorOf?_bind_of_none _ fun all => rfl).trans ?_
  rw [errorOf?_mapM, ← List.head?_filterMap, List.filterMap_congr haddition, List.head?_filterMap]

/-- The plan of a request has an error where a name is not known, and nowhere else. -/
theorem Reads.fault?_plan {ps : List Parameter} (hm : m.Reads ps) (r : Registry)
    (known : Vocabulary) (d : DepthIndex) : (m.plan r known d).fault? =
      (Parameter.firstUnknown? r known ps).map Lookup.error := by
  have hall : Parameter.allLookups ps =
      Parameter.lookupsIn .deletePrivileges ps ++ Parameter.lookupsIn .deleteRestrictions ps ++
        Parameter.lookupsIn .decidePrivileges ps ++ Parameter.lookupsIn .addRestrictions ps := by
    simp [Parameter.allLookups, Phase.inOrder]
  have happend (plan plan' : Plan) : Plan.fault? (plan ++ plan') = plan.fault?.or plan'.fault? :=
    List.findSome?_append
  rw [plan, happend, happend, happend, m.fault?_deletePrivileges r known,
    m.fault?_deleteRestrictions, m.fault?_decidePrivileges r known, fault?_addRestrictions hm.plain]
  simp only [← Parameter.findSome?_fault?, hm.lookups, hall, List.findSome?_append]

end Modifications

/-! ## Main result -/

namespace Registry

variable {r : Registry} {provider : Provider} {acl : List Entry} {principal : Principal}
  {path : Option String} {known : Vocabulary} {parameters : List (String × Datum)}

/-- A request is stopped by the first name that is not known. If there is none, there are
    decisions to be folded and written. -/
theorem modify_cases (hacl : r.Admits acl) (hsupported : provider.supported path = .ok known)
    (hparameters : ∀ q ∈ parameters, q.2.Texts) (principal : Principal) :
    (∃ l, Parameter.firstUnknown? r known (Parameter.accepted parameters) = some l ∧
      (r.modify provider acl principal path parameters).result = .error l.error) ∨
    (Parameter.firstUnknown? r known (Parameter.accepted parameters) = none ∧
      ∃ n : DecisionMap, (r.modify provider acl principal path parameters).result =
        .ok ((n.consolidate r.depths r).entries r.depths principal)) := by
  obtain ⟨m, hm, hreach, _⟩ := DecisionMap.exists_ofEntries hacl principal
  obtain ⟨modifications, hread, hreads⟩ := Modifications.exists_reads hparameters
  have hdecisions := result_modifiedDecisions (r := r)
    (Provider.load_eq_ok_iff.2 ⟨hsupported, hm⟩) hread
  have hfault := hreach.carryOut_fault? (modifications.over_plan r known r.depths)
  rw [hreads.fault?_plan] at hfault
  generalize m.carryOut (modifications.plan r known r.depths) = x at hdecisions hfault
  obtain ⟨n, _ | e⟩ := x
  · exact .inr ⟨Option.map_eq_none_iff.1 hfault.symm, n, result_modify hdecisions⟩
  · obtain ⟨l, hl, rfl⟩ := Option.map_eq_some_iff.1 hfault.symm
    refine .inl ⟨l, hl, ?_⟩
    rw [modify, Journal.result_bind, hdecisions]
    rfl

/-- What a request leads to if it fails for names that are not known, and for nothing else. -/
structure FailsOnUnknown (r : Registry) (known : Vocabulary) (parameters : List (String × Datum))
    (outcome : Except Error (List Entry)) : Prop where
  /-- It fails if some parameter names something that is not known, whatever the values of the
      parameter are. -/
  fails_iff : (∃ e, outcome = .error e) ↔
    ∃ p ∈ Parameter.accepted parameters, p.namesUnknown r known = true
  /-- It fails for the name that is looked up first of those that are not known. -/
  error_iff : ∀ e, outcome = .error e ↔
    ∃ l, Parameter.firstUnknown? r known (Parameter.accepted parameters) = some l ∧ l.error = e
  /-- Otherwise there are entries, none of them without a privilege. -/
  exists_entries : (∀ p ∈ Parameter.accepted parameters, p.namesUnknown r known = false) →
    ∃ entries, outcome = .ok entries ∧ ∀ a ∈ entries, a.privileges ≠ []

/-- A request of texts fails for the first name that is not known, and for nothing else,
    whatever entries are stored. -/
theorem failsOnUnknown_modify (hacl : r.Admits acl)
    (hsupported : provider.supported path = .ok known)
    (hparameters : ∀ q ∈ parameters, q.2.Texts) (principal : Principal) :
    r.FailsOnUnknown known parameters
      (r.modify provider acl principal path parameters).result := by
  have hnone := Parameter.firstUnknown?_eq_none_iff r known (Parameter.accepted parameters)
  rcases modify_cases hacl hsupported hparameters principal with ⟨l, hl, h⟩ | ⟨hall, n, h⟩
  · have hsome : ¬ ∀ p ∈ Parameter.accepted parameters, p.namesUnknown r known = false := by
      rw [← hnone, hl]
      exact Option.some_ne_none l
    refine ⟨iff_of_true ⟨_, h⟩ (by simpa using hsome), fun e => ?_, fun hall => absurd hall hsome⟩
    rw [h, hl, Except.error.injEq]
    simp
  · have hfails (e : Error) : (r.modify provider acl principal path parameters).result ≠
        .error e := by
      rw [h]
      intro he
      cases he
    refine ⟨iff_of_false (fun ⟨e, he⟩ => hfails e he) ?_, fun e => iff_of_false (hfails e) ?_,
      fun _ => ⟨_, h, fun a ha => DecisionMap.privileges_ne_nil ha⟩⟩
    · rintro ⟨p, hp, hunknown⟩
      exact absurd hunknown (by simp [hnone.1 hall p hp])
    · rintro ⟨l, hl, _⟩
      cases hall.symm.trans hl

/-- A request about a restriction that is not supported and, in an earlier phase, a privilege
    that is not defined, with a word that is not known and with no values at all. -/
def misnaming : List (String × Datum) :=
  [("restriction@rep:void", .list []), ("privilege@doc:void@Delete", .text "whatever"),
    ("order", .text "first")]

/-- A request with names that are known, and otherwise as senseless. -/
def senseless : List (String × Datum) :=
  [("restriction@rep:glob", .list []), ("privilege@doc:edit@Delete", .text "whatever")]

/-- The first one fails for the privilege, which is looked up first. The other one does not. -/
theorem failsOnUnknown_modify_diamond :
    (diamond.modify .standard sharedEntries (.text "guest") (some "/") misnaming).result =
      .error (.unknownPrivilege (.text "doc:void")) ∧
    ∃ entries, (diamond.modify .standard sharedEntries (.text "guest") (some "/")
      senseless).result = .ok entries ∧ ∀ a ∈ entries, a.privileges ≠ [] := by
  have hadmits : diamond.Admits sharedEntries := by
    intro a ha
    rcases List.mem_pair.1 ha with rfl | rfl <;>
      exact List.forall_mem_singleton.2 diamond.root_mem
  have hsupported : Provider.standard.supported (some "/") = .ok Vocabulary.standard := by
    decide +kernel
  have hmisnaming : ∀ q ∈ misnaming, q.2.Texts :=
    List.forall_mem_cons.2 ⟨.several [],
      List.forall_mem_cons.2 ⟨.one _, List.forall_mem_singleton.2 (.one _)⟩⟩
  have hsenseless : ∀ q ∈ senseless, q.2.Texts :=
    List.forall_mem_cons.2 ⟨.several [], List.forall_mem_singleton.2 (.one _)⟩
  exact ⟨((failsOnUnknown_modify hadmits hsupported hmisnaming (.text "guest")).error_iff _).2
      ⟨.privilege "doc:void", by decide +kernel, rfl⟩,
    (failsOnUnknown_modify hadmits hsupported hsenseless (.text "guest")).exists_entries
      (by decide +kernel)⟩

end Registry

end AccessControl
