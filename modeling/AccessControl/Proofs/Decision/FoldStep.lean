import AccessControl.Decision.Fold
import AccessControl.Proofs.Decision.Leafwise
import AccessControl.Proofs.Sorting

/-!
# Steps of a fold

What one step of a fold does: it takes the side of an effect from the immediate
children of an aggregate and puts it in force for the aggregate. Nothing else
changes, and nothing changes on the opposite side.

* `DecisionMap.common?_eq_some`: when a step folds;
* `DecisionMap.get?_of_fold?`, `DecisionMap.inForce?_of_fold?`: what a map says of
  a name after a step;
* `Registry.splits_of_mem_foldSteps`: the leaves of an aggregate are those of the
  children it is folded from;
* `DecisionMap.consolidate_induction`: what every step keeps, the fold keeps.
-/

namespace AccessControl

/-- The children that a step folds are other privileges than the aggregate, and
    have its leaves. -/
structure FoldStep.Splits (r : Registry) (step : FoldStep) : Prop where
  /-- No aggregate is folded into itself. -/
  proper : step.aggregate.id ∉ step.children
  /-- The leaves of the aggregate are those of its children. -/
  covers_iff : ∀ l, r.covers step.aggregate.id l = true ↔
    ∃ c ∈ step.children, r.covers c l = true

/-- The steps of a sweep are those of the aggregates in the depth index. -/
theorem Registry.mem_foldSteps_iff {r : Registry} {d : DepthIndex} {step : FoldStep} :
    step ∈ r.foldSteps d ↔ (step.aggregate ∈ r.privileges ∧ step.aggregate.isAggregate = true) ∧
      step.aggregate.id ∈ d ∧ step.children = r.immediateChildren step.aggregate.id := by
  simp only [foldSteps, List.mem_flatMap, List.mem_cons, List.not_mem_nil, or_false,
    aggregatesByDepth, List.mem_mergeSort, List.mem_filter, aggregates,
    Std.ExtTreeMap.contains_iff_mem]
  constructor
  · -- There is a step for either effect.
    rintro ⟨p, ⟨hp, hd⟩, rfl | rfl⟩
    · exact ⟨hp, hd, rfl⟩
    · exact ⟨hp, hd, rfl⟩
  · obtain ⟨p, cs, e⟩ := step
    rintro ⟨hp, hd, hcs⟩
    dsimp only at hcs
    subst hcs
    refine ⟨p, ⟨hp, hd⟩, ?_⟩
    cases e with
    | allow => exact .inl rfl
    | deny => exact .inr rfl

/-- The aggregates of a sweep are put in their places one after the other. -/
theorem Registry.aggregatesByDepth_eq (r : Registry) (d : DepthIndex) :
    r.aggregatesByDepth d = (r.aggregates.filter fun p => d.contains p.id).insertionSort fun p q =>
      (compareLex (compareOn fun p => -d.rank p.id) (compareOn Privilege.id) p q).isLE = true :=
  mergeSort_eq_insertionSort (fun _ _ _ => Std.TransCmp.isLE_trans) isLE_total _

theorem Registry.splits_of_mem_foldSteps {r : Registry} {d : DepthIndex} {step : FoldStep}
    (h : step ∈ r.foldSteps d) : step.Splits r := by
  obtain ⟨⟨hp, hagg⟩, _, hchildren⟩ := mem_foldSteps_iff.1 h
  refine ⟨?_, fun l => ?_⟩
  · rw [hchildren]
    exact not_mem_immediateChildren hp
  · rw [hchildren]
    exact covers_iff_immediateChildren hp hagg

/-! ## Taking back a side -/

theorem Decision.inForce?_eq_none_of_isUndecided {d : Decision} (h : d.isUndecided = true)
    (e : Effect) : (d.side e).inForce? = none := by
  rw [Side.inForce?, if_neg]
  intro he
  rw [isUndecided_eq_false_iff.2 ⟨e, he⟩] at h
  cases h

/-- Taking back a side twice is taking it back once. -/
theorem Operation.act_clear_act_clear (e : Effect) (o : Option Decision) :
    (clear e).act ((clear e).act o) = (clear e).act o := by
  cases o with
  | none => rfl
  | some d =>
    have htwice : (d.onSide e fun s => s.switch false).onSide e (fun s => s.switch false) =
        d.onSide e fun s => s.switch false := by
      cases e <;> rfl
    have hact : (clear e).act (some d) = (d.onSide e fun s => s.switch false).decided? := rfl
    rw [hact, Decision.decided?]
    split
    · rfl
    next h => rw [act, Option.bind_some, htwice, Decision.decided?, if_neg h]

theorem Operation.inForce?_act_clear (e e' : Effect) (o : Option Decision) :
    (((clear e).act o).bind fun d => (d.side e').inForce?) =
      if e' = e then none else o.bind fun d => (d.side e').inForce? := by
  cases o with
  | none => simp [act]
  | some d =>
    have hside : ((d.onSide e fun s => s.switch false).side e').inForce? =
        if e' = e then none else (d.side e').inForce? := by
      split
      next h => rw [h, Decision.side_onSide_self]; rfl
      next h => rw [Decision.side_onSide_of_ne d h]
    rw [act, Option.bind_some, Option.bind_some, ← hside, Decision.decided?]
    split
    next h => rw [Option.bind_none, Decision.inForce?_eq_none_of_isUndecided h]
    next h => rw [Option.bind_some]

namespace DecisionMap

variable {m f : DecisionMap} {step : FoldStep} {r : Registry}

theorem get?_clear (m : DecisionMap) (e : Effect) (ls : List String) (k : String) :
    (m.performOnLeaves (.clear e) ls).get? k =
      if k ∈ ls then (Operation.clear e).act (m.get? k) else m.get? k := by
  -- To take back a side twice is to take it back once, so repetitions do no harm.
  have hiter (n : Nat) (o : Option Decision) :
      (Operation.clear e).act^[n + 1] o = (Operation.clear e).act o := by
    induction n generalizing o with
    | zero => rfl
    | succ n ih => rw [Function.iterate_succ_apply, ih, Operation.act_clear_act_clear]
  rw [get?_performOnLeaves_iterate]
  split
  next hk =>
    obtain ⟨n, hn⟩ := Nat.exists_eq_succ_of_ne_zero (mt List.count_eq_zero.1 (not_not_intro hk))
    rw [hn, hiter]
  next hk => rw [List.count_eq_zero.2 hk]; rfl

/-! ## One step -/

/-- A step folds when all children are in force under the same restrictions, those
    of one of them. -/
theorem common?_eq_some {e : Effect} {ids : List String} {rs : RestrictionSet}
    (h : m.common? e ids = some rs) :
    (∃ c ∈ ids, m.inForce? e c = some rs) ∧
      ∀ c ∈ ids, ∃ ss, m.inForce? e c = some ss ∧ rs.same ss = true := by
  cases ids with
  | nil => cases h
  | cons id ids =>
    rw [common?, Option.filter_eq_some_iff] at h
    obtain ⟨hid, hall⟩ := h
    refine ⟨⟨id, List.mem_cons_self, hid⟩, fun c hc => ?_⟩
    rcases List.mem_cons.1 hc with rfl | hc
    · exact ⟨rs, hid, RestrictionSet.same_refl rs⟩
    · have hany := List.all_eq_true.1 hall c hc
      cases hss : m.inForce? e c with
      | none => simp [hss] at hany
      | some ss => exact ⟨ss, rfl, by simpa [hss] using hany⟩

/-- If all of some names are in force under the same restrictions, these are common to
    them. -/
theorem exists_common? {e : Effect} {ids : List String} {rs : RestrictionSet} (hne : ids ≠ [])
    (h : ∀ c ∈ ids, ∃ ss, m.inForce? e c = some ss ∧ ss.same rs = true) :
    ∃ ss, m.common? e ids = some ss ∧ ss.same rs = true := by
  obtain ⟨c, cs, rfl⟩ := List.exists_cons_of_ne_nil hne
  obtain ⟨ss, hss, hsame⟩ := h c List.mem_cons_self
  refine ⟨ss, ?_, hsame⟩
  rw [common?, hss]
  refine Option.filter_eq_some_iff.2 ⟨rfl, List.all_eq_true.2 fun k hk => ?_⟩
  obtain ⟨ts, hts, hsame'⟩ := h k (List.mem_cons_of_mem _ hk)
  rw [hts, Option.any_some]
  exact RestrictionSet.same_trans hsame (RestrictionSet.same_symm hsame')

/-- If all children are in force under the same restrictions, a step folds. -/
theorem exists_fold? {rs : RestrictionSet} (hne : step.children ≠ [])
    (h : ∀ c ∈ step.children, ∃ ss, m.inForce? step.effect c = some ss ∧ ss.same rs = true) :
    ∃ f, m.fold? step = some f := by
  obtain ⟨ss, hss, _⟩ := exists_common? hne h
  exact ⟨_, by rw [fold?, hss, Option.map_some]⟩

theorem fold?_eq_some (h : m.fold? step = some f) :
    ∃ rs, m.common? step.effect step.children = some rs ∧
      f = (m.performOnLeaves (.clear step.effect) step.children).rule step.aggregate fun d =>
        d.onSide step.effect fun _ => ⟨true, rs⟩ := by
  obtain ⟨rs, hrs, rfl⟩ := Option.map_eq_some_iff.1 h
  exact ⟨rs, hrs, rfl⟩

/-- What a map says of a name after a step. -/
theorem get?_of_fold? (hs : step.aggregate.id ∉ step.children) (h : m.fold? step = some f) :
    ∃ rs, m.common? step.effect step.children = some rs ∧ ∀ k, f.get? k =
      if step.aggregate.id = k then
        some (((m.get? k).getD .undecided).onSide step.effect fun _ => ⟨true, rs⟩)
      else if k ∈ step.children then (Operation.clear step.effect).act (m.get? k)
      else m.get? k := by
  obtain ⟨rs, hrs, rfl⟩ := fold?_eq_some h
  refine ⟨rs, hrs, fun k => ?_⟩
  rw [get?_rule, get?_clear]
  split
  next hk =>
    subst hk
    rw [if_neg hs]
  next => rfl

/-- What is in force after a step: on the side of the effect the aggregate in place
    of its children, on the opposite side the same as before. -/
theorem inForce?_of_fold? (hs : step.aggregate.id ∉ step.children) (h : m.fold? step = some f) :
    ∃ rs, m.common? step.effect step.children = some rs ∧ ∀ e k, f.inForce? e k =
      if e = step.effect then
        if k = step.aggregate.id then some rs
        else if k ∈ step.children then none
        else m.inForce? e k
      else m.inForce? e k := by
  obtain ⟨rs, hrs, hget⟩ := get?_of_fold? hs h
  refine ⟨rs, hrs, fun e k => ?_⟩
  rw [inForce?_eq, inForce?_eq, hget]
  by_cases hk : step.aggregate.id = k
  · rw [if_pos hk, if_pos hk.symm, Option.bind_some]
    split
    next he => rw [he, Decision.side_onSide_self, Side.inForce?, if_pos rfl]
    next he =>
      rw [Decision.side_onSide_of_ne _ he]
      cases m.get? k with
      | none => rw [Option.getD_none, Decision.side_undecided]; rfl
      | some d => rfl
  · rw [if_neg hk, if_neg (Ne.symm hk)]
    by_cases hc : k ∈ step.children
    · rw [if_pos hc, if_pos hc, Operation.inForce?_act_clear]
    · rw [if_neg hc, if_neg hc, ite_self]

/-- A step enters no privilege but the aggregate. -/
theorem mem_privileges_of_fold? (h : m.fold? step = some f) {p : Privilege}
    (hp : p ∈ f.privileges) : p = step.aggregate ∨ p ∈ m.privileges := by
  obtain ⟨rs, _, rfl⟩ := fold?_eq_some h
  refine (mem_privileges_rule hp).imp_right fun hp => ?_
  rcases mem_privileges_performOnLeaves hp with ⟨_, _, _, hact⟩ | hp
  · cases hact
  · exact hp

/-! ## Sweeps -/

theorem sweep_induction {P : DecisionMap → Prop} {steps : List FoldStep}
    (hstep : ∀ step ∈ steps, ∀ m f : DecisionMap, P m → m.fold? step = some f → P f)
    (hm : P m) : P (m.sweep steps).1 := by
  refine List.foldlRecOn (motive := fun a : DecisionMap × Bool => P a.1) steps _ hm ?_
  rintro ⟨n, folded⟩ hn step hs
  dsimp only
  split
  next f hf => exact hstep step hs n f hn hf
  next => exact hn

/-- What every step keeps, the fold keeps, however many sweeps it takes. -/
theorem consolidate_induction {P : DecisionMap → Prop} {d : DepthIndex}
    (hstep : ∀ step ∈ r.foldSteps d, ∀ m f : DecisionMap, P m → m.fold? step = some f → P f)
    (hm : P m) : P (m.consolidate d r) := by
  have hsweeps (bound : Nat) (m : DecisionMap) (hm : P m) :
      P (m.sweeps (r.foldSteps d) bound) := by
    induction bound generalizing m with
    | zero => exact hm
    | succ bound ih =>
      have hsweep := sweep_induction hstep hm
      rw [sweeps]
      split
      next m' hs => exact ih m' (by rwa [hs] at hsweep)
      next m' hs => rwa [hs] at hsweep
  exact hsweeps _ m hm

end DecisionMap

end AccessControl
