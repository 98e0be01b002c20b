import AccessControl.Proofs.Decision.FoldStep
import Mathlib.Algebra.Order.BigOperators.Group.Finset

/-!
# Folding comes to an end

A step of a fold moves a side up, from privileges to one that is above all of them.
So the sides in force, counted with the number of privileges above them, get fewer
(`DecisionMap.weight`), whatever the map holds and in whatever order the aggregates
are looked at. As long as a sweep folds something there is less to be folded.

* `Registry.level`: the number of privileges above a name;
* `DecisionMap.weight_lt_of_fold?`: a step lowers the weight of a map;
* `DecisionMap.Loops`: the loop of sweeps, without a bound on their number;
* `DecisionMap.loop_ends`: the loop ends, with what a fold is;
* `DecisionMap.settled_consolidate`: after a fold there is nothing left to fold;
* `DecisionMap.consolidate_of_settled`, `DecisionMap.consolidate_consolidate`: then
  another fold changes nothing;
* `DecisionMap.consolidate_eq_of_foldSteps_eq`: how large a registry is makes no difference.
-/

namespace AccessControl

namespace Registry

variable {r : Registry} {p q : Privilege}

/-- The names of the privileges of a registry. -/
def nameSet (r : Registry) : Finset String := (r.privileges.map Privilege.id).toFinset

theorem id_mem_nameSet (hp : p ∈ r.privileges) : p.id ∈ r.nameSet :=
  List.mem_toFinset.2 (List.mem_map_of_mem hp)

theorem card_nameSet (r : Registry) : r.nameSet.card = r.size := by
  have hnodup : (r.privileges.map Privilege.id).Nodup := r.catalogue.nodup
  rw [nameSet, List.toFinset_card_of_nodup hnodup, List.length_map, size]

/-- Whether the privilege of a name is above that of another name. -/
def isOver (r : Registry) (a k : String) : Bool := (r.get? a).any (·.descendants.contains k)

theorem isOver_iff (hp : p ∈ r.privileges) {k : String} :
    r.isOver p.id k = true ↔ ∃ b, p.bundle.Above b ∧ b.id = k := by
  rw [isOver, get?_eq_some_iff.2 ⟨hp, rfl⟩, Option.any_some, Std.ExtTreeSet.contains_iff_mem,
    p.descendants_eq, Bundle.mem_descendants]

/-- The number of privileges above a name. -/
def level (r : Registry) (k : String) : Nat := (r.nameSet.filter (r.isOver · k)).card

theorem level_le (r : Registry) (k : String) : r.level k ≤ r.size :=
  (Finset.card_filter_le _ _).trans r.card_nameSet.le

/-- There is more above a child than above its parent. -/
theorem level_lt (hp : p ∈ r.privileges) (h : p.bundle.Parent q.bundle) :
    r.level p.id < r.level q.id := by
  refine Finset.card_lt_card (Finset.ssubset_iff_of_subset ?_ |>.2 ⟨p.id, ?_, ?_⟩)
  · intro k hk
    rw [Finset.mem_filter] at hk ⊢
    obtain ⟨a, ha, rfl⟩ := List.mem_map.1 (List.mem_toFinset.1 hk.1)
    obtain ⟨b, hab, hid⟩ := (isOver_iff ha).1 hk.2
    obtain ⟨p', hp', rfl⟩ := exists_of_above ha hab
    obtain rfl := eq_of_id_eq hp' hp hid
    exact ⟨hk.1, (isOver_iff ha).2 ⟨q.bundle, hab.tail h, rfl⟩⟩
  · exact Finset.mem_filter.2
      ⟨id_mem_nameSet hp, (isOver_iff hp).2 ⟨q.bundle, .single h, rfl⟩⟩
  · intro hmem
    obtain ⟨b, hb, hid⟩ := (isOver_iff hp).1 (Finset.mem_filter.1 hmem).2
    exact id_ne_of_above hp hb hid

end Registry

namespace DecisionMap

variable {m f : DecisionMap} {r : Registry} {d : DepthIndex} {step : FoldStep}

/-! ## The weight of a map -/

/-- What a side in force of a name counts: as much as there is above the name. -/
def share (m : DecisionMap) (r : Registry) (e : Effect) (k : String) : Nat :=
  if (m.inForce? e k).isSome then r.level k else 0

/-- The sides of an effect that are in force, each with what is above it. -/
def weightOf (m : DecisionMap) (r : Registry) (e : Effect) : Nat := ∑ k ∈ r.nameSet, m.share r e k

/-- All sides that are in force, each with what is above it. -/
def weight (m : DecisionMap) (r : Registry) : Nat := m.weightOf r .allow + m.weightOf r .deny

theorem weightOf_le (m : DecisionMap) (r : Registry) (e : Effect) :
    m.weightOf r e ≤ r.size * r.size := by
  have hshare : ∀ k ∈ r.nameSet, m.share r e k ≤ r.size := by
    intro k _
    rw [share]
    split
    · exact r.level_le k
    · exact Nat.zero_le _
  have hsum := Finset.sum_le_card_nsmul r.nameSet _ _ hshare
  rwa [r.card_nameSet, Nat.nsmul_eq_mul] at hsum

/-- Of a step the aggregate gains less than one of its children loses. -/
theorem weightOf_lt_of_fold? (hstep : step ∈ r.foldSteps d) (h : m.fold? step = some f) :
    f.weightOf r step.effect < m.weightOf r step.effect := by
  obtain ⟨⟨hp, _⟩, _, hchildren⟩ := Registry.mem_foldSteps_iff.1 hstep
  have hproper := (Registry.splits_of_mem_foldSteps hstep).proper
  obtain ⟨rs, hrs, hforce⟩ := inForce?_of_fold? hproper h
  obtain ⟨⟨c, hc, hcrs⟩, _⟩ := common?_eq_some hrs
  obtain ⟨q, hq, rfl, hpq⟩ := Registry.exists_of_mem_immediateChildren hp (hchildren ▸ hc)
  have hne : q.id ≠ step.aggregate.id := by
    intro hid
    exact hproper (hid ▸ hc)
  have hnew (k : String) : f.inForce? step.effect k = if k = step.aggregate.id then some rs
      else if k ∈ step.children then none else m.inForce? step.effect k := by
    rw [hforce, if_pos rfl]
  have hp' : f.share r step.effect step.aggregate.id = r.level step.aggregate.id := by
    rw [share, hnew, if_pos rfl, Option.isSome_some, if_pos rfl]
  have hq' : f.share r step.effect q.id = 0 := by
    rw [share, hnew, if_neg hne, if_pos hc, Option.isSome_none, if_neg Bool.false_ne_true]
  have hq₀ : m.share r step.effect q.id = r.level q.id := by
    rw [share, hcrs, Option.isSome_some, if_pos rfl]
  -- All others count as much as before, or no longer.
  have hrest : ∑ k ∈ (r.nameSet.erase step.aggregate.id).erase q.id, f.share r step.effect k ≤
      ∑ k ∈ (r.nameSet.erase step.aggregate.id).erase q.id, m.share r step.effect k := by
    refine Finset.sum_le_sum fun k hk => ?_
    have hk := (Finset.mem_erase.1 (Finset.mem_erase.1 hk).2).1
    by_cases hchild : k ∈ step.children
    · rw [share, hnew, if_neg hk, if_pos hchild]
      exact Nat.zero_le _
    · rw [share, hnew, if_neg hk, if_neg hchild]
      exact Nat.le_refl _
  have hmem : q.id ∈ r.nameSet.erase step.aggregate.id :=
    Finset.mem_erase.2 ⟨hne, Registry.id_mem_nameSet hq⟩
  have hlevel := Registry.level_lt hp hpq
  rw [weightOf, weightOf, ← Finset.add_sum_erase _ _ (Registry.id_mem_nameSet hp),
    ← Finset.add_sum_erase _ (m.share r step.effect) (Registry.id_mem_nameSet hp),
    ← Finset.add_sum_erase _ _ hmem, ← Finset.add_sum_erase _ (m.share r step.effect) hmem,
    hp', hq', hq₀]
  omega

theorem weightOf_eq_of_fold? (hstep : step ∈ r.foldSteps d) (h : m.fold? step = some f)
    {e : Effect} (he : e ≠ step.effect) : f.weightOf r e = m.weightOf r e := by
  obtain ⟨rs, _, hforce⟩ :=
    inForce?_of_fold? (Registry.splits_of_mem_foldSteps hstep).proper h
  refine Finset.sum_congr rfl fun k _ => ?_
  rw [share, share, hforce, if_neg he]

/-- A step makes a map lighter. -/
theorem weight_lt_of_fold? (hstep : step ∈ r.foldSteps d) (h : m.fold? step = some f) :
    f.weight r < m.weight r := by
  have hlt := weightOf_lt_of_fold? hstep h
  have heq {e : Effect} (he : e ≠ step.effect) := weightOf_eq_of_fold? hstep h he
  rw [weight, weight]
  cases hs : step.effect with
  | allow =>
    have := heq (e := .deny) (by simp [hs])
    rw [hs] at hlt
    omega
  | deny =>
    have := heq (e := .allow) (by simp [hs])
    rw [hs] at hlt
    omega

/-! ## Sweeps -/

/-- No step folds in a map. -/
def Settled (m : DecisionMap) (steps : List FoldStep) : Prop := ∀ step ∈ steps, m.fold? step = none

/-- Once a step has folded, a sweep tells so whatever the rest of it does. -/
theorem foldl_folded (m : DecisionMap) (steps : List FoldStep) :
    steps.foldl (fun (m, folded) step =>
      match m.fold? step with
      | some m => (m, true)
      | none => (m, folded)) (m, true) = ((m.sweep steps).1, true) := by
  rw [sweep]
  generalize false = folded
  induction steps generalizing m folded with
  | nil => rfl
  | cons step steps ih =>
    rw [List.foldl_cons, List.foldl_cons]
    dsimp only
    cases m.fold? step with
    | none => exact ih m folded
    | some f => exact ih f true

theorem sweep_cons (m : DecisionMap) (step : FoldStep) (steps : List FoldStep) :
    m.sweep (step :: steps) = match m.fold? step with
      | some f => ((f.sweep steps).1, true)
      | none => m.sweep steps := by
  rw [sweep, List.foldl_cons]
  dsimp only
  cases m.fold? step with
  | none => rfl
  | some f => exact f.foldl_folded steps

theorem sweep_of_settled {steps : List FoldStep} (h : m.Settled steps) :
    m.sweep steps = (m, false) := by
  induction steps with
  | nil => rfl
  | cons step steps ih =>
    rw [sweep_cons, h step List.mem_cons_self]
    exact ih fun s hs => h s (List.mem_cons_of_mem _ hs)

/-- A sweep folds nothing and finds the map settled, or it makes the map lighter. -/
theorem sweep_cases {steps : List FoldStep} (hsteps : ∀ step ∈ steps, step ∈ r.foldSteps d) :
    (m.sweep steps = (m, false) ∧ m.Settled steps) ∨
      ((m.sweep steps).2 = true ∧ (m.sweep steps).1.weight r < m.weight r) := by
  induction steps generalizing m with
  | nil => exact .inl ⟨rfl, nofun⟩
  | cons step steps ih =>
    have ih (m : DecisionMap) := ih (m := m) fun s hs => hsteps s (List.mem_cons_of_mem _ hs)
    rw [sweep_cons]
    cases hf : m.fold? step with
    | none =>
      refine (ih m).imp_left fun ⟨hsweep, hsettled⟩ => ⟨hsweep, ?_⟩
      exact List.forall_mem_cons.2 ⟨hf, hsettled⟩
    | some f =>
      -- What follows the step makes the map lighter still, or leaves it as it is.
      have hlt := weight_lt_of_fold? (hsteps step List.mem_cons_self) hf
      refine .inr ⟨rfl, ?_⟩
      rcases ih f with ⟨hsweep, _⟩ | ⟨_, hlt'⟩
      · dsimp only
        rw [hsweep]
        exact hlt
      · exact Nat.lt_trans hlt' hlt

/-! ## The loop -/

/-- How the sweeps go on as long as one of them folds something. The number is that of the
    sweeps that do; one more, which folds nothing, ends the loop. -/
inductive Loops (steps : List FoldStep) : Nat → DecisionMap → DecisionMap → Prop
  | stop {m f : DecisionMap} (h : m.sweep steps = (f, false)) : Loops steps 0 m f
  | again {k : Nat} {m mid f : DecisionMap} (h : m.sweep steps = (mid, true))
      (rest : Loops steps k mid f) : Loops steps (k + 1) m f

namespace Loops

variable {steps : List FoldStep} {k k' bound : Nat} {f' : DecisionMap}

/-- The loop goes in one way only. -/
theorem unique (h : Loops steps k m f) (h' : Loops steps k' m f') : f = f' := by
  induction h generalizing k' with
  | stop h =>
    cases h' with
    | stop h' => exact congrArg Prod.fst (h.symm.trans h')
    | again h' _ => cases h.symm.trans h'
  | again h _ ih =>
    cases h' with
    | stop h' => cases h.symm.trans h'
    | again h' rest =>
      obtain rfl := congrArg Prod.fst (h.symm.trans h')
      exact ih rest

/-- It ends when there is nothing left to fold. -/
theorem settled (hsteps : ∀ step ∈ steps, step ∈ r.foldSteps d) (h : Loops steps k m f) :
    f.Settled steps := by
  induction h with
  | @stop m f h =>
    rcases sweep_cases (m := m) hsteps with ⟨hsweep, hsettled⟩ | ⟨hfolded, _⟩
    · obtain rfl : f = m := congrArg Prod.fst (h.symm.trans hsweep)
      exact hsettled
    · cases (congrArg Prod.snd h).symm.trans hfolded
  | again _ _ ih => exact ih

/-- Every sweep that folds makes the map lighter, so that the loop ends after as many of them
    as the map is heavy. -/
theorem exists_end (hsteps : ∀ step ∈ steps, step ∈ r.foldSteps d) (m : DecisionMap) :
    ∃ k ≤ m.weight r, ∃ f, Loops steps k m f := by
  induction hw : m.weight r using Nat.strongRecOn generalizing m with
  | ind w ih =>
    subst hw
    rcases sweep_cases (m := m) hsteps with ⟨hsweep, _⟩ | ⟨hfolded, hlt⟩
    · exact ⟨0, Nat.zero_le _, m, stop hsweep⟩
    · obtain ⟨k, hk, f, hf⟩ := ih _ hlt _ rfl
      exact ⟨k + 1, Nat.lt_of_le_of_lt hk hlt, f, again (Prod.ext rfl hfolded) hf⟩

/-- A bound that leaves room for the last sweep does not interrupt the loop. -/
theorem sweeps_eq (h : Loops steps k m f) (hbound : k < bound) : m.sweeps steps bound = f := by
  induction h generalizing bound with
  | stop h =>
    obtain ⟨bound, rfl⟩ := Nat.exists_eq_add_of_lt hbound
    rw [Nat.zero_add, sweeps, h]
  | @again k m mid f h _ ih =>
    obtain ⟨bound, rfl⟩ := Nat.exists_eq_add_of_le' (Nat.lt_of_le_of_lt (Nat.zero_le _) hbound)
    rw [sweeps, h]
    exact ih (Nat.lt_of_succ_lt_succ hbound)

end Loops

theorem weight_le (m : DecisionMap) (r : Registry) : m.weight r ≤ 2 * r.size * r.size := by
  have hallow := m.weightOf_le r .allow
  have hdeny := m.weightOf_le r .deny
  rw [weight, Nat.mul_assoc]
  omega

/-- Of a fold the loop is not interrupted. -/
theorem exists_loops_consolidate (m : DecisionMap) (d : DepthIndex) (r : Registry) :
    ∃ k ≤ 2 * r.size * r.size, Loops (r.foldSteps d) k m (m.consolidate d r) := by
  obtain ⟨k, hk, f, hf⟩ := Loops.exists_end (r := r) (d := d) (fun _ => id) m
  have hk := hk.trans (m.weight_le r)
  have hf' : m.consolidate d r = f := hf.sweeps_eq (Nat.lt_succ_of_le hk)
  exact ⟨k, hk, hf' ▸ hf⟩

/-! ## Main results -/

/-- After a fold there is nothing left to fold. -/
theorem settled_consolidate (m : DecisionMap) (d : DepthIndex) (r : Registry) :
    (m.consolidate d r).Settled (r.foldSteps d) := by
  obtain ⟨_, _, hloop⟩ := exists_loops_consolidate m d r
  exact hloop.settled fun _ => id

/-- The loop ends, whatever the depths are that the aggregates are put in order by: after a
    bounded number of sweeps that fold something there is one that folds nothing. A fold is
    what the loop ends with. -/
theorem loop_ends (m : DecisionMap) (d : DepthIndex) (r : Registry) :
    (∃ k ≤ 2 * r.size * r.size, Loops (r.foldSteps d) k m (m.consolidate d r)) ∧
      (m.consolidate d r).sweep (r.foldSteps d) = (m.consolidate d r, false) ∧
      ∀ k f, Loops (r.foldSteps d) k m f → f = m.consolidate d r := by
  obtain ⟨k, hk, hloop⟩ := exists_loops_consolidate m d r
  exact ⟨⟨k, hk, hloop⟩, sweep_of_settled (settled_consolidate m d r),
    fun _ _ hf => hf.unique hloop⟩

/-- A fold leaves a map alone in which nothing folds. -/
theorem consolidate_of_settled (h : m.Settled (r.foldSteps d)) : m.consolidate d r = m := by
  rw [consolidate, sweeps, sweep_of_settled h]

/-- A fold depends on a registry by its steps only. -/
theorem consolidate_eq_of_foldSteps_eq {r' : Registry} (h : r.foldSteps d = r'.foldSteps d)
    (m : DecisionMap) : m.consolidate d r = m.consolidate d r' := by
  obtain ⟨_, _, hloop⟩ := exists_loops_consolidate m d r
  obtain ⟨_, _, hloop'⟩ := exists_loops_consolidate m d r'
  rw [h] at hloop
  exact hloop.unique hloop'

/-- To fold again changes nothing. -/
theorem consolidate_consolidate (m : DecisionMap) (d : DepthIndex) (r : Registry) :
    (m.consolidate d r).consolidate d r = m.consolidate d r :=
  consolidate_of_settled (settled_consolidate m d r)

end DecisionMap

end AccessControl
