import AccessControl.Proofs.Decision.FoldSameness
import AccessControl.Proofs.Decision.Termination

/-!
# The two sides of a fold

A fold looks at what is allowed and at what is denied in one map, by turns, and it sweeps
on as long as either of them folds. Still neither has an influence on the other: a step
leaves the opposite side as it is, and the sweeps that it causes do nothing there that would
not have been done anyway. For the same reason it does not matter which of the sides is
looked at first.

* `DecisionMap.sweeps_eq_iterate`: sweeps as the same steps taken a fixed number of times;
* `DecisionMap.inForce?_foldedBy`: what is in force on either side after a step;
* `DecisionMap.foldedBy_comm`: steps for the two sides commute;
* `DecisionMap.exchange_foldedInto`: an aggregate takes what is denied as it takes what is
  allowed;
* `DecisionMap.consolidate_sides`: so does the whole fold, and each side on its own.
-/

namespace AccessControl

/-! ## Exchanging the sides -/

namespace Decision

/-- The decision that denies what a decision allows, and allows what it denies. -/
def exchanged (d : Decision) : Decision := ⟨d.deny, d.allow⟩

theorem side_exchanged (d : Decision) (e : Effect) :
    d.exchanged.side e = d.side e.other := by cases e <;> rfl

theorem onSide_exchanged (d : Decision) (e : Effect) (f : Side → Side) :
    d.exchanged.onSide e f = (d.onSide e.other f).exchanged := by cases e <;> rfl

theorem isUndecided_exchanged (d : Decision) : d.exchanged.isUndecided = d.isUndecided :=
  Bool.and_comm _ _

theorem decided?_exchanged (d : Decision) :
    d.exchanged.decided? = d.decided?.map exchanged := by
  rw [decided?, decided?, isUndecided_exchanged]
  split
  · rfl
  · rfl

theorem exchanged_congr {d d' : Decision} (h : d.same d' = true) :
    d.exchanged.same d'.exchanged = true := by
  refine same_iff.2 fun e => ?_
  rw [side_exchanged, side_exchanged]
  exact same_iff.1 h e.other

/-- What is done to either side does not depend on which is done first. -/
theorem onSide_comm {e e' : Effect} (h : e ≠ e') (d : Decision) (f g : Side → Side) :
    (d.onSide e f).onSide e' g = (d.onSide e' g).onSide e f := by
  cases e <;> cases e' <;> first | rfl | exact absurd rfl h

end Decision

namespace Operation

theorem act_clear_exchanged (e : Effect) (o : Option Decision) :
    (clear e).act (o.map .exchanged) = ((clear e.other).act o).map .exchanged := by
  cases o with
  | none => rfl
  | some d =>
    rw [Option.map_some, act, act, Option.bind_some, Option.bind_some, Decision.onSide_exchanged,
      Decision.decided?_exchanged]

/-- When both sides are taken back there is no decision. -/
theorem act_clear_act_clear_of_ne {e e' : Effect} (h : e ≠ e') (o : Option Decision) :
    (clear e).act ((clear e').act o) = none := by
  cases o with
  | none => rfl
  | some d =>
    have hboth : ((d.onSide e' fun s => s.switch false).onSide e fun s => s.switch false) =
        .undecided := by
      cases e <;> cases e' <;> first | rfl | exact absurd rfl h
    rw [act, act, Option.bind_some, Decision.decided?]
    split
    · rfl
    · rw [Option.bind_some, hboth]
      rfl

end Operation

namespace DecisionMap

variable {m n : DecisionMap} {e : Effect} {step : FoldStep} {p : Privilege} {cs : List String}

theorem inForce?_exchanged (m : DecisionMap) (e : Effect) (k : String) :
    (m.mapDecisions .exchanged).inForce? e k = m.inForce? e.other k := by
  rw [inForce?_eq, inForce?_eq, get?_mapDecisions]
  cases m.get? k with
  | none => rfl
  | some d => rw [Option.map_some, Option.bind_some, Option.bind_some, Decision.side_exchanged]

/-! ## Maps alike on one side -/

/-- In both maps the same is in force on the side of an effect. -/
def AlikeOn (e : Effect) (m n : DecisionMap) : Prop :=
  ∀ k, RestrictionSet.Alike (m.inForce? e k) (n.inForce? e k)

theorem alikeOn_onSide {e e' : Effect} (he : e ≠ e') (m : DecisionMap) (f : Side → Side) :
    AlikeOn e m (m.mapDecisions (·.onSide e' f)) := by
  intro k
  rw [inForce?_eq, inForce?_eq, get?_mapDecisions]
  cases m.get? k with
  | none => exact .none
  | some d =>
    rw [Option.map_some, Option.bind_some, Option.bind_some, Decision.side_onSide_of_ne d he]
    exact Side.inForce?_congr (Side.same_refl _)

/-- What names have in common on a side can be told from that side. -/
theorem common?_eq_of_inForce? {e e' : Effect} (h : m.inForce? e = n.inForce? e')
    (ids : List String) : m.common? e ids = n.common? e' ids := by
  cases ids with
  | nil => rfl
  | cons id ids => rw [common?, common?, h]

/-! ## A fold, step by step -/

/-- The map after a step, which is the map before it if the step does not fold. -/
def foldedBy (m : DecisionMap) (step : FoldStep) : DecisionMap := (m.fold? step).getD m

theorem fst_sweep (m : DecisionMap) (steps : List FoldStep) :
    (m.sweep steps).1 = steps.foldl foldedBy m := by
  induction steps generalizing m with
  | nil => rfl
  | cons step steps ih =>
    rw [sweep_cons, List.foldl_cons, foldedBy]
    cases m.fold? step with
    | none => exact ih m
    | some f => exact ih f

/-- A sweep that tells of no folding has left the map alone. -/
theorem fst_sweep_of_not_folded {steps : List FoldStep} (h : (m.sweep steps).2 = false) :
    (m.sweep steps).1 = m := by
  induction steps with
  | nil => rfl
  | cons step steps ih =>
    rw [sweep_cons] at h ⊢
    cases hf : m.fold? step with
    | none =>
      rw [hf] at h
      exact ih h
    | some f =>
      rw [hf] at h
      cases h

/-- To stop when nothing folds is to go on, as the sweeps that are left out would change
    nothing. -/
theorem sweeps_eq_iterate (m : DecisionMap) (steps : List FoldStep) (bound : Nat) :
    m.sweeps steps bound = (fun m => steps.foldl foldedBy m)^[bound] m := by
  induction bound generalizing m with
  | zero => rfl
  | succ bound ih =>
    rw [sweeps, Function.iterate_succ_apply, ← fst_sweep]
    cases hsweep : m.sweep steps with
    | mk n folded =>
      cases folded with
      | true => exact ih n
      | false =>
        obtain rfl : n = m := by
          have hn : (m.sweep steps).1 = m := fst_sweep_of_not_folded (by rw [hsweep])
          rwa [hsweep] at hn
        have hfixed : steps.foldl foldedBy n = n := by rw [← fst_sweep, hsweep]
        exact (Function.iterate_fixed hfixed bound).symm

/-- The map after both steps of an aggregate with given children. -/
def foldedInto (m : DecisionMap) (p : Privilege) (cs : List String) : DecisionMap :=
  (m.foldedBy ⟨p, cs, .allow⟩).foldedBy ⟨p, cs, .deny⟩

/-- What both steps of every aggregate keep of two maps, their folds keep. -/
theorem consolidate_rel {R : DecisionMap → DecisionMap → Prop}
    (hstep : ∀ p cs, Privilege.id p ∉ cs → ∀ m n, R m n →
      R (m.foldedInto p cs) (n.foldedInto p cs))
    (h : R m n) (d : DepthIndex) (r : Registry) : R (m.consolidate d r) (n.consolidate d r) := by
  have hproper {p : Privilege} (hp : p ∈ r.aggregatesByDepth d) :
      p.id ∉ r.immediateChildren p.id := by
    have hmem : (⟨p, r.immediateChildren p.id, .allow⟩ : FoldStep) ∈ r.foldSteps d :=
      List.mem_flatMap.2 ⟨p, hp, List.mem_cons_self⟩
    exact (Registry.splits_of_mem_foldSteps hmem).proper
  have hsweep {m n : DecisionMap} (h : R m n) :
      R ((r.foldSteps d).foldl foldedBy m) ((r.foldSteps d).foldl foldedBy n) := by
    rw [Registry.foldSteps, List.foldl_flatMap, List.foldl_flatMap]
    exact List.foldl_rel h fun p hp m n hmn => hstep p _ (hproper hp) m n hmn
  rw [consolidate, consolidate, sweeps_eq_iterate, sweeps_eq_iterate]
  generalize 2 * r.size * r.size + 1 = bound
  induction bound generalizing m n with
  | zero => exact h
  | succ bound ih => exact ih (hsweep h)

/-! ## One step -/

/-- What a map says of a name after a step. -/
theorem get?_foldedBy (m : DecisionMap) (hs : step.aggregate.id ∉ step.children) (k : String) :
    (m.foldedBy step).get? k =
      (m.common? step.effect step.children).elim (m.get? k) fun rs =>
        if step.aggregate.id = k then
          some (((m.get? k).getD .undecided).onSide step.effect fun _ => ⟨true, rs⟩)
        else if k ∈ step.children then (Operation.clear step.effect).act (m.get? k)
        else m.get? k := by
  rw [foldedBy]
  cases hf : m.fold? step with
  | none => rw [Option.map_eq_none_iff.1 hf, Option.getD_none, Option.elim_none]
  | some f =>
    obtain ⟨rs, hrs, hget⟩ := get?_of_fold? hs hf
    rw [hrs, Option.getD_some, Option.elim_some, hget]

/-- What is in force on either side after a step. -/
theorem inForce?_foldedBy (m : DecisionMap) (hs : step.aggregate.id ∉ step.children) (e : Effect)
    (k : String) :
    (m.foldedBy step).inForce? e k = if e = step.effect then
        (m.common? step.effect step.children).elim (m.inForce? e k) fun rs =>
          if k = step.aggregate.id then some rs
          else if k ∈ step.children then none
          else m.inForce? e k
      else m.inForce? e k := by
  rw [foldedBy]
  cases hf : m.fold? step with
  | none => rw [Option.map_eq_none_iff.1 hf, Option.getD_none, Option.elim_none, ite_self]
  | some f =>
    obtain ⟨rs, hrs, hforce⟩ := inForce?_of_fold? hs hf
    rw [hrs, Option.getD_some, Option.elim_some, hforce]

/-- A step leaves the opposite side as it is. -/
theorem inForce?_foldedBy_of_ne (m : DecisionMap) (hs : step.aggregate.id ∉ step.children)
    (he : e ≠ step.effect) : (m.foldedBy step).inForce? e = m.inForce? e :=
  funext fun k => by rw [inForce?_foldedBy m hs, if_neg he]

theorem foldedBy_congr (h : m.same n = true) (step : FoldStep) :
    (m.foldedBy step).same (n.foldedBy step) = true := by
  have hrel := fold?_congr h (s := step) (t := step) ⟨rfl, fun _ => Iff.rfl, rfl⟩
  rw [foldedBy, foldedBy]
  cases hm : m.fold? step <;> cases hn : n.fold? step <;> rw [hm, hn] at hrel
  · exact h
  · cases hrel
  · cases hrel
  · cases hrel with
    | some hrel => exact hrel

/-! ## Each side on its own -/

theorem alikeOn_foldedBy (hs : step.aggregate.id ∉ step.children) (h : AlikeOn e m n) :
    AlikeOn e (m.foldedBy step) (n.foldedBy step) := by
  intro k
  rw [inForce?_foldedBy m hs, inForce?_foldedBy n hs]
  split
  next he =>
    subst he
    have hcommon : RestrictionSet.Alike (m.common? step.effect step.children)
        (n.common? step.effect step.children) := common?_congr h fun _ => Iff.rfl
    cases hm : m.common? step.effect step.children <;>
      cases hn : n.common? step.effect step.children <;> rw [hm, hn] at hcommon
    · exact h k
    · cases hcommon
    · cases hcommon
    · -- The aggregate takes what the children have in common, and they lose it.
      rw [Option.elim_some, Option.elim_some]
      split
      · exact hcommon
      · split
        · exact .none
        · exact h k
  next => exact h k

theorem alikeOn_consolidate (h : AlikeOn e m n) (d : DepthIndex) (r : Registry) :
    AlikeOn e (m.consolidate d r) (n.consolidate d r) :=
  consolidate_rel (R := AlikeOn e)
    (fun _ _ hs _ _ h => alikeOn_foldedBy hs (alikeOn_foldedBy hs h)) h d r

/-! ## Both sides alike -/

/-- Steps of an aggregate for the two sides commute. -/
theorem foldedBy_comm (m : DecisionMap) (hp : p.id ∉ cs) :
    ((m.foldedBy ⟨p, cs, .allow⟩).foldedBy ⟨p, cs, .deny⟩).same
      ((m.foldedBy ⟨p, cs, .deny⟩).foldedBy ⟨p, cs, .allow⟩) = true := by
  have hne : Effect.allow ≠ .deny := nofun
  have hcommon {e e' : Effect} (he : e ≠ e') :
      (m.foldedBy ⟨p, cs, e'⟩).common? e cs = m.common? e cs :=
    common?_eq_of_inForce? (inForce?_foldedBy_of_ne m hp he) cs
  refine same_iff.2 fun k => ?_
  rw [get?_foldedBy _ hp, get?_foldedBy _ hp, get?_foldedBy _ hp, get?_foldedBy _ hp]
  dsimp only
  rw [hcommon hne.symm, hcommon hne]
  cases m.common? .allow cs with
  | none => exact .refl _
  | some rs =>
    cases m.common? .deny cs with
    | none => exact .refl _
    | some ss =>
      simp only [Option.elim_some]
      split
      · rw [Option.getD_some, Option.getD_some, Decision.onSide_comm hne]
        exact .refl _
      · split
        · rw [Operation.act_clear_act_clear_of_ne hne.symm,
            Operation.act_clear_act_clear_of_ne hne]
          exact .none
        · exact .refl _

/-- A step for one side does in the exchanged map what the step for the other side does. -/
theorem exchange_foldedBy (m : DecisionMap) (hp : p.id ∉ cs) (e : Effect) :
    ((m.mapDecisions .exchanged).foldedBy ⟨p, cs, e⟩).same
      ((m.foldedBy ⟨p, cs, e.other⟩).mapDecisions .exchanged) = true := by
  have hcommon : (m.mapDecisions .exchanged).common? e cs = m.common? e.other cs :=
    common?_eq_of_inForce? (funext fun k => inForce?_exchanged m e k) cs
  refine same_iff.2 fun k => ?_
  rw [get?_mapDecisions, get?_foldedBy _ hp, get?_foldedBy _ hp, get?_mapDecisions]
  dsimp only
  rw [hcommon]
  cases m.common? e.other cs with
  | none => exact .refl _
  | some rs =>
    simp only [Option.elim_some]
    split
    · have hget : ((m.get? k).map Decision.exchanged).getD .undecided =
          ((m.get? k).getD .undecided).exchanged := by
        cases m.get? k <;> rfl
      rw [hget, Decision.onSide_exchanged]
      exact .refl _
    · split
      · rw [Operation.act_clear_exchanged]
        exact .refl _
      · exact .refl _

/-- An aggregate takes what is denied in the same way as what is allowed. -/
theorem exchange_foldedInto (h : n.same (m.mapDecisions .exchanged) = true) (hp : p.id ∉ cs) :
    (n.foldedInto p cs).same ((m.foldedInto p cs).mapDecisions .exchanged) = true := by
  -- The exchanged map takes the steps in the other order, which makes no difference.
  have hallow := exchange_foldedBy m hp .allow
  have hdeny := exchange_foldedBy (m.foldedBy ⟨p, cs, .deny⟩) hp .deny
  have hboth := foldedBy_congr (foldedBy_congr h ⟨p, cs, .allow⟩) ⟨p, cs, .deny⟩
  have hsteps := same_trans hboth (same_trans (foldedBy_congr hallow ⟨p, cs, .deny⟩) hdeny)
  exact same_trans hsteps
    (mapDecisions_congr (same_symm (foldedBy_comm m hp)) fun _ _ => Decision.exchanged_congr)

/-! ## Main result -/

/-- What a fold leaves in force on a side depends on what was in force on that side only,
    and not on which side it is. -/
theorem consolidate_sides (r : Registry) (d : DepthIndex) :
    (∀ e m n, AlikeOn e m n → AlikeOn e (m.consolidate d r) (n.consolidate d r)) ∧
      ∀ m : DecisionMap, ((m.mapDecisions .exchanged).consolidate d r).same
        ((m.consolidate d r).mapDecisions .exchanged) = true := by
  refine ⟨fun _ _ _ h => alikeOn_consolidate h d r, fun m => ?_⟩
  exact consolidate_rel (R := fun n m => n.same (m.mapDecisions .exchanged) = true)
    (fun _ _ hp _ _ h => exchange_foldedInto h hp) (same_refl _) d r

/-- What guards the diamond has no influence on what is allowed in it. -/
theorem consolidate_sides_guarded :
    AlikeOn .allow guarded (guarded.mapDecisions (·.onSide .deny fun _ => .off)) ∧
      AlikeOn .allow (guarded.consolidate Registry.diamond.depths .diamond)
        ((guarded.mapDecisions (·.onSide .deny fun _ => .off)).consolidate
          Registry.diamond.depths .diamond) :=
  have hne : Effect.allow ≠ .deny := nofun
  have h := alikeOn_onSide hne guarded fun _ => .off
  ⟨h, (consolidate_sides .diamond Registry.diamond.depths).1 .allow _ _ h⟩

end DecisionMap

end AccessControl
