import AccessControl.Proofs.Decision.FoldStep
import AccessControl.Proofs.Decision.Sameness
import AccessControl.Proofs.Privilege.Likeness

/-!
# Folding respects sameness

Maps that are the same fold in step: an aggregate folds in the one if it does in
the other, and what they are folded into is the same again. Nor does it matter in which
order a registry lists what is folded.

* `FoldStep.Alike`: steps that fold the same children into the same aggregate;
* `fold?_congr`: one step;
* `consolidate_congr`: all of them, in registries that are alike.
-/

namespace AccessControl

/-- Steps with the same children, listed in any order. -/
structure FoldStep.Alike (s t : FoldStep) : Prop where
  aggregate : s.aggregate.id = t.aggregate.id
  children : SameMembers s.children t.children
  effect : s.effect = t.effect

/-- Registries that are alike fold in the same order. -/
theorem Registry.Alike.forall₂_foldSteps {r r' : Registry} (h : r.Alike r') (d : DepthIndex) :
    List.Forall₂ FoldStep.Alike (r.foldSteps d) (r'.foldSteps d) := by
  have hmem {r : Registry} {p : Privilege} (hp : p ∈ r.aggregatesByDepth d) : p ∈ r.privileges := by
    rw [aggregatesByDepth, List.mem_mergeSort] at hp
    exact (List.mem_filter.1 (List.mem_filter.1 hp).1).1
  refine List.rel_flatMap (forall₂_of_map_eq (h.map_id_aggregatesByDepth d)) ?_
  rintro p q ⟨hp, hq, hid⟩
  have hchildren := h.mem_immediateChildren_iff (hmem hp) (hmem hq) hid
  exact .cons ⟨hid, hchildren, rfl⟩ (.cons ⟨hid, hchildren, rfl⟩ .nil)

namespace DecisionMap

variable {m n : DecisionMap} {r r' : Registry}

/-- What names have in common on a side depends on what is in force on it. -/
theorem common?_congr {e : Effect}
    (h : ∀ k, RestrictionSet.Alike (m.inForce? e k) (n.inForce? e k)) {ids ids' : List String}
    (hids : SameMembers ids ids') :
    RestrictionSet.Alike (m.common? e ids) (n.common? e ids') := by
  -- What all names have in common in the one map they have in common in the other one.
  have hcommon {m n : DecisionMap}
      (h : ∀ k, RestrictionSet.Alike (m.inForce? e k) (n.inForce? e k)) {ids ids' : List String}
      (hids : SameMembers ids ids') {rs : RestrictionSet} (hrs : m.common? e ids = some rs) :
      ∃ ss, n.common? e ids' = some ss ∧ ss.same rs = true := by
    obtain ⟨⟨c, hc, _⟩, hall⟩ := common?_eq_some hrs
    refine exists_common? (List.ne_nil_of_mem ((hids c).1 hc)) fun k hk => ?_
    obtain ⟨ss, hss, hsame⟩ := hall k ((hids k).2 hk)
    obtain ⟨ts, hts, hsame'⟩ := (h k).exists_of_eq_some hss
    exact ⟨ts, hts, RestrictionSet.same_symm (RestrictionSet.same_trans hsame hsame')⟩
  cases hm : m.common? e ids with
  | some rs =>
    obtain ⟨ss, hss, hsame⟩ := hcommon h hids hm
    rw [hss]
    exact .some (RestrictionSet.same_symm hsame)
  | none =>
    cases hn : n.common? e ids' with
    | none => exact .none
    | some ss =>
      obtain ⟨rs, hrs, _⟩ := hcommon (fun k => (h k).symm) hids.symm hn
      cases hm.symm.trans hrs

theorem clear_congr (h : m.same n = true) (e : Effect) {ids ids' : List String}
    (hids : SameMembers ids ids') :
    (m.performOnLeaves (.clear e) ids).same (n.performOnLeaves (.clear e) ids') = true := by
  refine same_iff.2 fun k => ?_
  rw [get?_clear, get?_clear, if_congr (hids k) rfl rfl]
  split
  · exact Operation.act_congr (same_iff.1 h k) _
  · exact same_iff.1 h k

theorem fold?_congr (h : m.same n = true) {s t : FoldStep} (hst : s.Alike t) :
    Option.Rel (fun f g : DecisionMap => f.same g = true) (m.fold? s) (n.fold? t) := by
  have hfold {o o' : Option RestrictionSet} (ho : RestrictionSet.Alike o o') :
      Option.Rel (fun f g : DecisionMap => f.same g = true)
        (o.map fun rs => (m.performOnLeaves (.clear t.effect) s.children).rule s.aggregate
          fun d => d.onSide t.effect fun _ => ⟨true, rs⟩)
        (o'.map fun rs => (n.performOnLeaves (.clear t.effect) t.children).rule t.aggregate
          fun d => d.onSide t.effect fun _ => ⟨true, rs⟩) := by
    cases ho with
    | none => exact .none
    | some hrs =>
      refine .some (rule_congr (clear_congr h _ hst.children) hst.aggregate fun d d' hd => ?_)
      exact Decision.onSide_congr hd _ (Side.same_iff.2 ⟨rfl, hrs⟩)
  rw [fold?, fold?, hst.effect]
  exact hfold (common?_congr (inForce?_congr h _) hst.children)

variable {steps steps' : List FoldStep}

theorem sweep_congr (h : m.same n = true) (hsteps : List.Forall₂ FoldStep.Alike steps steps') :
    (m.sweep steps).1.same (n.sweep steps').1 = true ∧
      (m.sweep steps).2 = (n.sweep steps').2 := by
  refine List.rel_foldl (P := fun a b : DecisionMap × Bool => a.1.same b.1 = true ∧ a.2 = b.2)
    (R := FoldStep.Alike) ?_ ?_ hsteps
  rotate_left
  · exact ⟨h, rfl⟩
  rintro ⟨f, folded⟩ ⟨g, folded'⟩ ⟨hfg, hflag⟩ s t hst
  -- The step folds in both maps or in none of them.
  have hstep := fold?_congr hfg hst
  dsimp only at hflag ⊢
  cases hf : f.fold? s <;> cases hg : g.fold? t <;> rw [hf, hg] at hstep
  · exact ⟨hfg, hflag⟩
  · cases hstep
  · cases hstep
  · cases hstep with
    | some hstep => exact ⟨hstep, rfl⟩

/-- Both maps are swept as often. -/
theorem sweeps_congr (h : m.same n = true) (hsteps : List.Forall₂ FoldStep.Alike steps steps')
    (bound : Nat) : (m.sweeps steps bound).same (n.sweeps steps' bound) = true := by
  induction bound generalizing m n with
  | zero => exact h
  | succ bound ih =>
    obtain ⟨hsame, hflag⟩ := sweep_congr h hsteps
    rw [sweeps, sweeps]
    cases hm : m.sweep steps with
    | mk m' folded =>
      cases hn : n.sweep steps' with
      | mk n' folded' =>
        rw [hm, hn] at hsame hflag
        obtain rfl : folded = folded' := hflag
        cases folded with
        | true => exact ih hsame
        | false => exact hsame

theorem consolidate_congr (h : m.same n = true) (hr : r.Alike r') (d : DepthIndex) :
    (m.consolidate d r).same (n.consolidate d r') = true := by
  rw [consolidate, consolidate, hr.size_eq]
  exact sweeps_congr h (hr.forall₂_foldSteps d) _

end DecisionMap

end AccessControl
