import AccessControl.Proofs.Decision.Sameness

/-!
# Decisions about atomic privileges

Operations only decide about leaves, whatever the privileges are made of that they are
performed on. So what they lead to are sound decisions about atomic privileges, even if
some of these are in no registry (`DecisionMap.OnAtoms`), and an operation on all that is
decided is an operation on each of the decisions.

* `OnAtoms.perform`: an operation keeps a map that way;
* `OnAtoms.exists_perform_privileges`: an operation on everything that is decided.
-/

namespace AccessControl

/-- An operation that takes no decision where there is none. -/
def Operation.IsIdle (op : Operation) : Prop := op.act none = none

/-- Whatever can be resolved is resolved into different leaves. -/
theorem Privilege.nodup_of_expand_eq_ok {targets : List Privilege} {ls : List String}
    (h : expand targets = .ok ls) : ls.Nodup := by
  obtain ⟨lss, _, hls⟩ := exists_of_bind_eq_ok h
  exact Except.ok.inj hls ▸ Catalogue.nodup_eraseDups _

namespace DecisionMap

variable {m n : DecisionMap} {r : Registry} {op : Operation} {targets : List Privilege}

/-- Sound decisions about atomic privileges, be they in a registry or not. -/
structure OnAtoms (m : DecisionMap) : Prop where
  /-- The decisions are about atomic privileges. -/
  atomic : ∀ p ∈ m.privileges, p = .atomic p.id
  /-- The decisions are sound. -/
  sound : ∀ a ∈ m.rulings, a.decision.Sound

theorem onAtoms_empty : OnAtoms ∅ where
  atomic _ hp := absurd hp List.not_mem_nil
  sound _ ha := absurd ha List.not_mem_nil

theorem OnAtoms.sound_get? (hm : m.OnAtoms) (k : String) : ∀ d ∈ m.get? k, d.Sound :=
  forall_mem_rulings_iff.1 hm.sound k

theorem atomic_performOnLeaves {ls : List String} (h : ∀ p ∈ m.privileges, p = .atomic p.id) :
    ∀ p ∈ (m.performOnLeaves op ls).privileges, p = .atomic p.id := by
  intro p hp
  rcases mem_privileges_performOnLeaves hp with ⟨l, _, rfl, _⟩ | hp
  · rfl
  · exact h p hp

/-- An operation on whatever can be resolved is an operation on leaves, once on each. -/
theorem exists_of_perform_eq_ok (h : m.perform op targets = .ok n) :
    ∃ ls, ls.Nodup ∧ n = m.performOnLeaves op ls := by
  obtain ⟨ls, hls, hn⟩ := exists_of_bind_eq_ok h
  exact ⟨ls, Privilege.nodup_of_expand_eq_ok hls, (Except.ok.inj hn).symm⟩

theorem OnAtoms.perform (hm : m.OnAtoms) (h : m.perform op targets = .ok n) : n.OnAtoms := by
  obtain ⟨ls, hls, rfl⟩ := exists_of_perform_eq_ok h
  refine ⟨atomic_performOnLeaves hm.atomic, forall_mem_rulings_iff.2 fun k => ?_⟩
  rw [get?_performOnLeaves m op hls]
  split
  · exact op.sound_act (hm.sound_get? k)
  · exact hm.sound_get? k

theorem OnAtoms.mapDecisions (hm : m.OnAtoms) {f : Decision → Decision}
    (hf : ∀ d : Decision, d.Sound → (f d).Sound) :
    (m.mapDecisions f).OnAtoms where
  atomic p hp := hm.atomic p (by rwa [privileges_mapDecisions] at hp)
  sound := by
    refine forall_mem_rulings_iff.2 fun k d hd => ?_
    rw [get?_mapDecisions] at hd
    obtain ⟨d₀, hd₀, rfl⟩ := Option.map_eq_some_iff.1 hd
    exact hf d₀ (hm.sound_get? k d₀ hd₀)

/-- What is decided are the names of the privileges of a map. -/
theorem exists_id_eq_iff {k : String} :
    (∃ p ∈ m.privileges, p.id = k) ↔ (m.get? k).isSome = true := by
  rw [← mem_ids_iff, Ruling.ids, privileges]
  simp only [List.mem_map, exists_exists_and_eq_and]
  rfl

/-- An operation on everything that is decided acts on every decision. -/
theorem OnAtoms.exists_perform_privileges (hm : m.OnAtoms) (hop : op.IsIdle) :
    ∃ n, m.perform op m.privileges = .ok n ∧ ∀ k, n.get? k = op.act (m.get? k) := by
  have hresolved : ∀ p ∈ m.privileges, p.leaves?.isSome = true := by
    intro p hp
    rw [hm.atomic p hp]
    rfl
  obtain ⟨ls, hls, hnodup, hmem⟩ := Privilege.exists_expand hresolved
  refine ⟨m.performOnLeaves op ls, by rw [DecisionMap.perform, hls]; rfl, fun k => ?_⟩
  have hk : k ∈ ls ↔ (m.get? k).isSome = true := by
    rw [hmem, ← exists_id_eq_iff]
    refine exists_congr fun p => and_congr_right fun hp => ?_
    rw [hm.atomic p hp, Privilege.covers_iff_of_atomic]
    exact eq_comm
  rw [get?_performOnLeaves m op hnodup]
  split
  · rfl
  next hnot =>
    rw [hk, Option.not_isSome_iff_eq_none] at hnot
    rw [hnot, hop]

end DecisionMap

end AccessControl
