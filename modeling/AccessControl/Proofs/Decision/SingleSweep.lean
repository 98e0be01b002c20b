import AccessControl.Proofs.Decision.Reachable
import AccessControl.Proofs.Decision.Termination
import AccessControl.Proofs.Privilege.Acceptance
import AccessControl.Proofs.Privilege.Depth

/-!
# One sweep is enough

A sweep looks at the deepest aggregates first. A step puts a side in force for its aggregate
only, and that is a child of none of the aggregates that were looked at before, as those are
as deep as it is or deeper. So their children can lose a side after their turn, but not gain
one, and what could not be folded then cannot be folded later. This holds of every index in
which children are deeper than their parents, be it with or without gaps, and of every map.

* `DepthIndex.Descends`: children are deeper than their parents;
* `Registry.pairwise_foldSteps`: no step changes the children of an earlier one;
* `DecisionMap.fold?_eq_none_of_fold?`: what one step keeps;
* `DecisionMap.settled_sweep`: after a sweep there is nothing left to fold;
* `DecisionMap.foldsAtOnce_consolidate`: a fold is one sweep, the deepest aggregates first.
-/

namespace AccessControl

namespace DepthIndex

variable {r : Registry} {d : DepthIndex} {p : Privilege}

/-- A child is deeper than its parent, where both are in the index. -/
def Descends (r : Registry) (d : DepthIndex) : Prop :=
  ∀ a b, r.Holds a → a.Parent b → ∀ i j, d[a.id]? = some i → d[b.id]? = some j → i < j

theorem descends_depths (hp : p ∈ r.privileges) : Descends r p.depths := by
  intro a b ha hab i j hi hj
  obtain ⟨k, hk, hlt⟩ := Registry.settled_depths hp ha i hi b hab
  obtain rfl := Option.some.inj (hk.symm.trans hj)
  exact hlt

theorem getElem?_of_without {ids : List String} {k : String} {i : Int}
    (h : (d.without ids)[k]? = some i) : d[k]? = some i := by
  rw [without, Std.ExtTreeMap.getElem?_filter] at h
  obtain ⟨hi, _⟩ := Option.pfilter_eq_some_iff.1 h
  exact hi

/-- Gaps do no harm. -/
theorem Descends.without (h : Descends r d) (ids : List String) : Descends r (d.without ids) :=
  fun a b ha hab i j hi hj =>
    h a b ha hab i j (getElem?_of_without hi) (getElem?_of_without hj)

/-- So it comes later in the order of the index. -/
theorem Descends.rank_lt (h : Descends r d) {a b : Bundle} (ha : r.Holds a) (hab : a.Parent b)
    (had : a.id ∈ d) (hbd : b.id ∈ d) : d.rank a.id < d.rank b.id := by
  obtain ⟨i, hi⟩ := mem_iff_exists_getElem?.1 had
  obtain ⟨j, hj⟩ := mem_iff_exists_getElem?.1 hbd
  rw [rank_eq_of_getElem? hi, rank_eq_of_getElem? hj]
  exact h a b ha hab i j hi hj

end DepthIndex

/-- The aggregates of a sweep come deepest first. -/
theorem Registry.pairwise_aggregatesByDepth (r : Registry) (d : DepthIndex) :
    (r.aggregatesByDepth d).Pairwise fun p q => d.rank q.id ≤ d.rank p.id := by
  refine (List.pairwise_mergeSort (fun _ _ _ => Std.TransCmp.isLE_trans) isLE_total _).imp ?_
  intro p q hle
  by_contra hlt
  have hgt : compareOn (fun p : Privilege => -d.rank p.id) p q = .gt :=
    compare_gt_iff_gt.2 (Int.neg_lt_neg (Int.not_le.1 hlt))
  simp [compareLex, hgt] at hle

/-- The steps of a sweep, too. -/
theorem Registry.pairwise_rank_foldSteps (r : Registry) (d : DepthIndex) :
    (r.foldSteps d).Pairwise fun s t => d.rank t.aggregate.id ≤ d.rank s.aggregate.id := by
  refine List.pairwise_flatMap.2 ⟨fun p _ => ?_, (r.pairwise_aggregatesByDepth d).imp ?_⟩
  · exact List.pairwise_pair.2 (Int.le_refl _)
  · intro p q hle s hs t ht
    have haggregate {p : Privilege} {cs : List String} {s : FoldStep}
        (h : s ∈ [FoldStep.mk p cs .allow, ⟨p, cs, .deny⟩]) : s.aggregate = p := by
      rw [List.mem_pair] at h
      rcases h with rfl | rfl <;> rfl
    rw [haggregate hs, haggregate ht]
    exact hle

/-- A step puts a side in force for its aggregate, which is no child of the aggregates of
    the steps before it. -/
theorem Registry.pairwise_foldSteps {r : Registry} {d : DepthIndex} (hd : d.Descends r) :
    (r.foldSteps d).Pairwise fun s t => t.aggregate.id ∉ s.children := by
  refine (r.pairwise_rank_foldSteps d).imp_of_mem fun {s t} hs ht hle hmem => ?_
  obtain ⟨⟨hp, _⟩, hps, hchildren⟩ := mem_foldSteps_iff.1 hs
  obtain ⟨_, hqt, _⟩ := mem_foldSteps_iff.1 ht
  obtain ⟨q, _, hid, hpq⟩ := exists_of_mem_immediateChildren hp (hchildren ▸ hmem)
  rw [← hid] at hle hqt
  exact absurd hle (Int.not_le.2 (hd.rank_lt ⟨_, hp, rfl⟩ hpq hps hqt))

namespace DecisionMap

variable {m f : DecisionMap} {r : Registry} {d : DepthIndex} {p : Privilege}
  {step next : FoldStep} {steps : List FoldStep}

/-! ## What a step keeps -/

/-- What has just been folded cannot be folded again. -/
theorem fold?_eq_none_of_fold?_self (hproper : step.aggregate.id ∉ step.children)
    (h : m.fold? step = some f) : f.fold? step = none := by
  obtain ⟨rs, hrs, hforce⟩ := inForce?_of_fold? hproper h
  obtain ⟨⟨c, hc, _⟩, _⟩ := common?_eq_some hrs
  have hne : c ≠ step.aggregate.id := fun hid => hproper (hid ▸ hc)
  cases hfold : f.fold? step with
  | none => rfl
  | some g =>
    -- A child would have to be in force, but none is any longer.
    obtain ⟨_, hss, _⟩ := fold?_eq_some hfold
    obtain ⟨_, hall⟩ := common?_eq_some hss
    obtain ⟨_, hts, _⟩ := hall c hc
    rw [hforce, if_pos rfl, if_neg hne, if_pos hc] at hts
    cases hts

/-- What cannot be folded cannot be folded after a step either, unless this is about one of
    the children. -/
theorem fold?_eq_none_of_fold? (hproper : next.aggregate.id ∉ next.children)
    (hchild : next.aggregate.id ∉ step.children) (hstep : m.fold? step = none)
    (h : m.fold? next = some f) : f.fold? step = none := by
  obtain ⟨_, _, hforce⟩ := inForce?_of_fold? hproper h
  cases hfold : f.fold? step with
  | none => rfl
  | some g =>
    obtain ⟨rs, hrs, _⟩ := fold?_eq_some hfold
    obtain ⟨⟨c₀, hc₀, _⟩, hall⟩ := common?_eq_some hrs
    -- What is in force for the children now was so before.
    have hbefore : ∀ c ∈ step.children,
        ∃ ss, m.inForce? step.effect c = some ss ∧ ss.same rs = true := by
      intro c hc
      obtain ⟨ss, hss, hsame⟩ := hall c hc
      have hne : c ≠ next.aggregate.id := fun hid => hchild (hid ▸ hc)
      rw [hforce, if_neg hne] at hss
      refine ⟨ss, ?_, RestrictionSet.same_symm hsame⟩
      split at hss
      · split at hss
        · cases hss
        · exact hss
      · exact hss
    obtain ⟨g, hg⟩ := exists_fold? (List.ne_nil_of_mem hc₀) hbefore
    cases hstep.symm.trans hg

/-! ## Sweeps -/

/-- After a sweep there is nothing left to fold, if no step is about a child of an earlier
    one. -/
theorem settled_sweep (hproper : ∀ step ∈ steps, step.aggregate.id ∉ step.children)
    (hpair : steps.Pairwise fun s t => t.aggregate.id ∉ s.children) (m : DecisionMap) :
    (m.sweep steps).1.Settled steps := by
  induction steps generalizing m with
  | nil => exact nofun
  | cons step steps ih =>
    obtain ⟨hstep, hproper⟩ := List.forall_mem_cons.1 hproper
    obtain ⟨hlater, hpair⟩ := List.pairwise_cons.1 hpair
    -- The first step cannot be folded when its turn is over, and the others keep it so.
    have hrest {n : DecisionMap} (hn : n.fold? step = none) :
        (n.sweep steps).1.Settled (step :: steps) := by
      refine List.forall_mem_cons.2 ⟨?_, ih hproper hpair n⟩
      exact sweep_induction (P := fun n => n.fold? step = none)
        (fun next hnext _ _ hn h => fold?_eq_none_of_fold? (hproper next hnext)
          (hlater next hnext) hn h) hn
    rw [sweep_cons]
    split
    next f hf => exact hrest (fold?_eq_none_of_fold?_self hstep hf)
    next hf => exact hrest hf

/-- In a map in which nothing folds, sweeps change nothing. -/
theorem sweeps_eq_of_settled (h : m.Settled steps) (bound : Nat) : m.sweeps steps bound = m := by
  cases bound with
  | zero => rfl
  | succ bound => rw [sweeps, sweep_of_settled h]

/-- Sweeps end with the first one if this leaves nothing to be folded. -/
theorem sweeps_succ_of_settled (h : (m.sweep steps).1.Settled steps) (bound : Nat) :
    m.sweeps steps (bound + 1) = (m.sweep steps).1 := by
  rw [sweeps]
  split
  next n hn =>
    rw [hn] at h ⊢
    exact sweeps_eq_of_settled h bound
  next n hn => rw [hn]

/-! ## Main results -/

/-- A map is folded into another one by a single sweep. -/
structure FoldsAtOnce (r : Registry) (d : DepthIndex) (m n : DecisionMap) : Prop where
  /-- The sweep takes one aggregate after the other, the deepest first. -/
  deepestFirst : (r.foldSteps d).Pairwise fun s t => d.rank t.aggregate.id ≤ d.rank s.aggregate.id
  /-- It leads to the other map. -/
  once : (m.sweep (r.foldSteps d)).1 = n
  /-- A second one folds nothing. -/
  again : n.sweep (r.foldSteps d) = (n, false)
  /-- The immediate children of no aggregate in the index are all in force on a side under the
      same restrictions. -/
  exhausted : ∀ a ∈ r.privileges, a.isAggregate = true → a.id ∈ d → ∀ e, ¬ ∃ rs,
    ∀ c ∈ r.immediateChildren a.id, ∃ ss, n.inForce? e c = some ss ∧ ss.same rs = true
  /-- To fold the other map changes nothing. -/
  stable : n.consolidate d r = n

/-- Where nothing folds, no aggregate has children that are all in force under the same
    restrictions. -/
theorem Settled.exhausted (hr : r.Accepted) (h : m.Settled (r.foldSteps d))
    (hp : p ∈ r.privileges) (hagg : p.isAggregate = true) (hd : p.id ∈ d) (e : Effect) :
    ¬ ∃ rs, ∀ c ∈ r.immediateChildren p.id,
      ∃ ss, m.inForce? e c = some ss ∧ ss.same rs = true := by
  rintro ⟨rs, hall⟩
  -- An aggregate has leaves, and so it has immediate children.
  obtain ⟨leaf, hleaf⟩ := hr.exists_covers hp
  rw [← Registry.covers_eq hp, Registry.covers_iff_immediateChildren hp hagg] at hleaf
  obtain ⟨c, hc, _⟩ := hleaf
  have hstep : ⟨p, r.immediateChildren p.id, e⟩ ∈ r.foldSteps d :=
    Registry.mem_foldSteps_iff.2 ⟨⟨hp, hagg⟩, hd, rfl⟩
  have hfold : ∃ f, m.fold? ⟨p, r.immediateChildren p.id, e⟩ = some f :=
    exists_fold? (List.ne_nil_of_mem hc) hall
  obtain ⟨f, hf⟩ := hfold
  cases (h _ hstep).symm.trans hf

/-- A fold is a single sweep, whatever the map holds, and whatever is left out of the index of
    a privilege. -/
theorem foldsAtOnce_consolidate (hr : r.Accepted) (hp : p ∈ r.privileges) (ids : List String)
    (m : DecisionMap) :
    FoldsAtOnce r (p.depths.without ids) m (m.consolidate (p.depths.without ids) r) := by
  have hd := (DepthIndex.descends_depths hp).without ids
  generalize p.depths.without ids = d at hd
  have hsettled : (m.sweep (r.foldSteps d)).1.Settled (r.foldSteps d) :=
    settled_sweep (fun _ hs => (Registry.splits_of_mem_foldSteps hs).proper)
      (Registry.pairwise_foldSteps hd) m
  rw [consolidate, sweeps_succ_of_settled hsettled]
  exact {
    deepestFirst := r.pairwise_rank_foldSteps d
    once := rfl
    again := sweep_of_settled hsettled
    exhausted _ ha hagg had := hsettled.exhausted hr ha hagg had
    stable := consolidate_of_settled hsettled }

/-- One aggregate of the diamond is left out of the index, and what is allowed is folded into
    the other one. -/
theorem foldsAtOnce_diamond :
    Registry.diamond.Accepted ∧ Registry.diamond.root ∈ Registry.diamond.privileges ∧
      (guarded.sweep (Registry.diamond.foldSteps
        (Registry.diamond.root.depths.without ["doc:view"]))).2 = true ∧
      ∃ n, FoldsAtOnce .diamond (Registry.diamond.root.depths.without ["doc:view"]) guarded n := by
  have hfolded : (guarded.sweep (Registry.diamond.foldSteps
      (Registry.diamond.root.depths.without ["doc:view"]))).2 = true := by
    simp only [Registry.foldSteps, Registry.aggregatesByDepth_eq]
    decide +kernel
  exact ⟨Registry.accepted_diamond, Registry.diamond.root_mem, hfolded, _,
    foldsAtOnce_consolidate Registry.accepted_diamond Registry.diamond.root_mem _ _⟩

end DecisionMap

end AccessControl
