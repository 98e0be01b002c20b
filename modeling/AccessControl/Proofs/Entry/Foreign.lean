import AccessControl.Proofs.Decision.Atoms
import AccessControl.Proofs.Decision.Termination
import AccessControl.Proofs.Entry.RoundTrip

/-!
# Entries about privileges of no registry

Entries may name atomic privileges that a registry does not know. To a registry that knows
them as well, with nothing above them, the decisions about them are decisions about leaves, and
it folds whatever the registry folds, in the same way. So what is written is loaded again as it
was. Only an atomic privilege that has the name of an aggregate cannot be told from what is
folded into the aggregate.

* `Registry.foldSteps_eq_of_subset`: when two registries fold the same;
* `Registry.rooted`, `Registry.withAtoms`: a registry without what is not below its root, and
  with more atomic privileges;
* `DecisionMap.isLeafMap_withAtoms`: decisions about atomic privileges are about leaves of it;
* `DecisionMap.exists_ofEntries_entries_atoms`: they are the same again once they are written
  and loaded.
-/

namespace AccessControl

/-! ## Registries in one another -/

namespace Registry

variable {r r' : Registry} {p : Privilege} {name : String} {names : List String} {d : DepthIndex}

/-- In a registry that has the privileges of another one, these have the same immediate
    children. -/
theorem immediateChildren_eq_of_subset (h : ∀ q ∈ r.privileges, q ∈ r'.privileges)
    (hp : p ∈ r.privileges) : r'.immediateChildren p.id = r.immediateChildren p.id := by
  have hget {q : Privilege} (hq : q ∈ r.privileges) : r'.get? q.id = r.get? q.id :=
    (get?_eq_some_iff.2 ⟨h q hq, rfl⟩).trans (get?_eq_some_iff.2 ⟨hq, rfl⟩).symm
  have hreached : r'.reached p.children = r.reached p.children := by
    refine List.foldl_ext _ _ _ fun s c hc => ?_
    obtain ⟨b, hb, rfl⟩ := List.mem_map.1 hc
    obtain ⟨q, hq, rfl⟩ := r.catalogue.closed p hp b hb
    exact congrArg (fun o => (o.map Privilege.descendants).getD ∅ ∪ s) (hget hq)
  rw [immediateChildren, immediateChildren, hget hp, get?_eq_some_iff.2 ⟨hp, rfl⟩]
  dsimp only
  rw [hreached]

/-- It folds the same, if it has the same aggregates in the depth index. -/
theorem foldSteps_eq_of_subset (h : ∀ q ∈ r.privileges, q ∈ r'.privileges)
    (hagg : (r'.aggregates.filter fun p => d.contains p.id) =
      r.aggregates.filter fun p => d.contains p.id) : r'.foldSteps d = r.foldSteps d := by
  have hbyDepth : r'.aggregatesByDepth d = r.aggregatesByDepth d := by
    rw [aggregatesByDepth, hagg, aggregatesByDepth]
  rw [foldSteps, hbyDepth, foldSteps]
  refine List.flatMap_congr fun p hp => ?_
  rw [aggregatesByDepth, List.mem_mergeSort, List.mem_filter, aggregates, List.mem_filter] at hp
  rw [immediateChildren_eq_of_subset h hp.1.1]

/-! ## Less: what is below the root -/

theorem root_mem_depths (r : Registry) : r.root.id ∈ r.depths :=
  (id_mem_depths_iff r.root_mem r.root_mem).2 .refl

/-- The privileges of a registry from its root down. -/
def rooted (r : Registry) : Registry where
  catalogue := {
    privileges := r.privileges.filter fun p => r.depths.contains p.id
    nodup := r.catalogue.nodup.sublist (List.filter_sublist.map _)
    closed := by
      intro p hp b hb
      rw [List.mem_filter, Std.ExtTreeMap.contains_iff_mem] at hp
      obtain ⟨q, hq, rfl⟩ := r.catalogue.closed p hp.1 b hb
      refine ⟨q, List.mem_filter.2 ⟨hq, Std.ExtTreeMap.contains_iff_mem.2 ?_⟩, rfl⟩
      exact (id_mem_depths_iff r.root_mem hq).2
        (((id_mem_depths_iff r.root_mem hp.1).1 hp.2).tail hb)
    grounded := fun p hp => r.catalogue.grounded p (List.mem_filter.1 hp).1 }
  root := r.root
  root_mem := List.mem_filter.2
    ⟨r.root_mem, Std.ExtTreeMap.contains_iff_mem.2 r.root_mem_depths⟩
  root_isAggregate := r.root_isAggregate

theorem privileges_rooted (r : Registry) :
    r.rooted.privileges = r.privileges.filter fun p => r.depths.contains p.id := rfl

theorem mem_of_mem_rooted (hp : p ∈ r.rooted.privileges) : p ∈ r.privileges :=
  (List.mem_filter.1 hp).1

theorem mem_aggregates_rooted_iff :
    p ∈ r.rooted.aggregates ↔ p ∈ r.aggregates ∧ p.id ∈ r.depths := by
  rw [aggregates, aggregates, privileges_rooted, List.mem_filter, List.mem_filter,
    List.mem_filter, Std.ExtTreeMap.contains_iff_mem]
  exact and_right_comm

/-- What is not below the root is not folded. -/
theorem foldSteps_rooted (r : Registry) : r.foldSteps r.depths = r.rooted.foldSteps r.depths := by
  refine foldSteps_eq_of_subset (fun _ => mem_of_mem_rooted) ?_
  rw [aggregates, aggregates, privileges_rooted, List.filter_filter, List.filter_filter,
    List.filter_filter]
  refine List.filter_congr fun p _ => ?_
  cases r.depths.contains p.id <;> simp

/-! ## More: atomic privileges -/

theorem privileges_define_nil (c : Catalogue) (id : String) : (c.define id []).privileges =
    if c.get? id = none then c.privileges ++ [.atomic id] else c.privileges := by
  rw [Catalogue.define]
  split <;> rfl

theorem mem_define_nil (hp : p ∈ r.privileges) (name : String) :
    p ∈ (r.catalogue.define name []).privileges := by
  rw [privileges_define_nil]
  split
  · exact List.mem_append_left _ hp
  · exact hp

/-- A registry with one more atomic privilege. A name that is known already keeps its meaning. -/
def withAtom (r : Registry) (name : String) : Registry where
  catalogue := r.catalogue.define name []
  root := r.root
  root_mem := mem_define_nil r.root_mem name
  root_isAggregate := r.root_isAggregate

/-- A registry with more atomic privileges. -/
def withAtoms (r : Registry) (names : List String) : Registry := names.foldl withAtom r

theorem mem_withAtoms (hp : p ∈ r.privileges) (names : List String) :
    p ∈ (r.withAtoms names).privileges := by
  induction names generalizing r with
  | nil => exact hp
  | cons name names ih => exact ih (mem_define_nil hp name)

theorem aggregates_withAtom (r : Registry) (name : String) :
    (r.withAtom name).aggregates = r.aggregates := by
  have hatomic : (Privilege.atomic name).isAggregate = false := rfl
  rw [aggregates, privileges, withAtom, privileges_define_nil]
  split
  · rw [List.filter_append, List.filter_singleton, hatomic, cond_false, List.append_nil]
    rfl
  · rfl

theorem aggregates_withAtoms (r : Registry) (names : List String) :
    (r.withAtoms names).aggregates = r.aggregates := by
  induction names generalizing r with
  | nil => rfl
  | cons name names ih => exact (ih _).trans (r.aggregates_withAtom name)

/-- With more atomic privileges a registry folds the same. -/
theorem foldSteps_withAtoms (r : Registry) (names : List String) (d : DepthIndex) :
    (r.withAtoms names).foldSteps d = r.foldSteps d :=
  foldSteps_eq_of_subset (fun _ hq => mem_withAtoms hq names) (by rw [aggregates_withAtoms])

theorem atomic_mem_withAtom (hfree : ∀ p ∈ r.aggregates, p.id ≠ name) :
    .atomic name ∈ (r.withAtom name).privileges := by
  rw [privileges, withAtom, privileges_define_nil]
  split
  · exact List.mem_append_right _ (List.mem_singleton.2 rfl)
  next hknown =>
    -- What has the name already is no aggregate, and so it is atomic.
    obtain ⟨p, hp⟩ := Option.ne_none_iff_exists'.1 hknown
    obtain ⟨hmem, rfl⟩ := get?_eq_some_iff.1 (show r.get? name = some p from hp)
    have hatomic : p.isAggregate = false := by
      by_contra hagg
      exact hfree p (List.mem_filter.2 ⟨hmem, by simpa using hagg⟩) rfl
    exact eq_atomic hmem hatomic ▸ hmem

/-- The atomic privileges are there, if they do not have the names of aggregates. -/
theorem atomic_mem_withAtoms (hname : name ∈ names)
    (hfree : ∀ p ∈ r.aggregates, p.id ≠ name) : .atomic name ∈ (r.withAtoms names).privileges := by
  induction names generalizing r with
  | nil => cases hname
  | cons k names ih =>
    rcases List.mem_cons.1 hname with rfl | hname
    · exact mem_withAtoms (atomic_mem_withAtom hfree) names
    · exact ih hname (by rwa [aggregates_withAtom])

end Registry

/-! ## Decisions about atomic privileges -/

namespace DecisionMap

variable {m : DecisionMap} {r : Registry}

/-- Nothing is decided under the name of an aggregate that is below the root. -/
def Unbundled (r : Registry) (m : DecisionMap) : Prop :=
  ∀ p ∈ r.aggregates, p.id ∈ r.depths → m.get? p.id = none

/-- Decisions about atomic privileges are decisions about leaves of a registry that knows
    these. -/
theorem isLeafMap_withAtoms (hm : m.OnAtoms) (hfree : m.Unbundled r) :
    m.IsLeafMap (r.rooted.withAtoms (m.privileges.map Privilege.id)) where
  atomic p hp := by
    have hsome : (m.get? p.id).isSome = true := exists_id_eq_iff.1 ⟨p, hp, rfl⟩
    have hne : ∀ q ∈ r.rooted.aggregates, q.id ≠ p.id := by
      intro q hq hid
      obtain ⟨hq, hdepth⟩ := Registry.mem_aggregates_rooted_iff.1 hq
      rw [← hid, hfree q hq hdepth] at hsome
      cases hsome
    have hmem := Registry.atomic_mem_withAtoms (List.mem_map_of_mem (f := Privilege.id) hp) hne
    rw [← hm.atomic p hp] at hmem
    exact ⟨hmem, hm.atomic p hp ▸ rfl⟩
  sound := hm.sound

/-- The entries that decisions about atomic privileges are written as, folded, load into the
    same decisions, unless one of these privileges has the name of an aggregate. -/
theorem exists_ofEntries_entries_atoms (hm : m.OnAtoms) (hfree : m.Unbundled r)
    (principal : Principal) :
    ∃ n, ofEntries ((m.consolidate r.depths r).entries r.depths principal) principal = .ok n ∧
      n.same m = true := by
  have hsteps := (r.rooted.foldSteps_withAtoms (m.privileges.map Privilege.id) r.depths).trans
    r.foldSteps_rooted.symm
  obtain ⟨n, hn, _, hsame⟩ :=
    exists_ofEntries_entries_of (isLeafMap_withAtoms hm hfree) r.depths principal
  exact ⟨n, consolidate_eq_of_foldSteps_eq hsteps m ▸ hn, hsame⟩

end DecisionMap

end AccessControl
