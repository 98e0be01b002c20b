import AccessControl.Proofs.Decision.Exactness
import AccessControl.Proofs.Decision.Sameness
import AccessControl.Proofs.Privilege.Acceptance

/-!
# Operations after a fold

Decisions are meant to be folded when all operations are done. Operations look at leaves
only, so that one that comes after a fold does not see what the fold tells of the
aggregates above a leaf, and it may enter the opposite of it. The next fold puts both
together.

This does not happen as long as operations keep off the leaves of aggregates that a fold
has entered. The map then represents the decisions on leaves that the same operations
lead to without any fold.

* `Activity`, `DecisionMap.run`: operations and folds in any order and number;
* `DecisionMap.run_contradictory`: a run may lead to a contradiction;
* `Tracks.perform`, `Tracks.consolidate`: what keeps a map in step with decisions on
  leaves;
* `DecisionMap.Undisturbed`: no operation touches what is folded, if another fold is to
  follow;
* `DecisionMap.exists_run`: a run leads to a result, without a contradiction about a leaf,
  and without any contradiction if it is undisturbed.
-/

namespace AccessControl

/-- What is done to decisions. -/
inductive Activity
  /-- An operation on some privileges. -/
  | operate (op : Operation) (targets : List Privilege)
  /-- A fold. -/
  | fold

/-- An operation is about privileges of a registry. -/
def Activity.Within (r : Registry) : Activity → Prop
  | operate _ targets => ∀ p ∈ targets, p ∈ r.privileges
  | fold => True

namespace DecisionMap

variable {r : Registry} {l m n : DecisionMap} {op : Operation} {targets : List Privilege}
  {acts : List Activity}

/-! ## Runs -/

/-- Does one thing to a map. -/
def advance (r : Registry) (m : DecisionMap) : Activity → Except Error DecisionMap
  | .operate op targets => m.perform op targets
  | .fold => .ok (m.consolidate r.depths r)

/-- Does one thing after the other. -/
def run (r : Registry) (m : DecisionMap) (acts : List Activity) : Except Error DecisionMap :=
  acts.foldlM (advance r) m

theorem run_operate (h : m.perform op targets = .ok n) (acts : List Activity) :
    m.run r (.operate op targets :: acts) = n.run r acts := by
  rw [run, List.foldlM_cons, advance, h]
  rfl

theorem run_fold (m : DecisionMap) (acts : List Activity) :
    m.run r (.fold :: acts) = (m.consolidate r.depths r).run r acts := by
  rw [run, List.foldlM_cons, advance]
  rfl

/-- The targets of an operation have no leaf in common with an aggregate of a map. -/
def KeepsOff (m : DecisionMap) (targets : List Privilege) : Prop :=
  ∀ p ∈ targets, ∀ q ∈ m.privileges, q.isAggregate = true → ∀ leaf, p.covers leaf = true →
    q.covers leaf = false

/-- No operation of a run touches the leaves of an aggregate that the map then holds, if it
    is to be folded again. -/
def Undisturbed (r : Registry) : DecisionMap → List Activity → Prop
  | _, [] => True
  | m, .operate op targets :: acts => (.fold ∈ acts → m.KeepsOff targets) ∧
      ∀ n, m.perform op targets = .ok n → Undisturbed r n acts
  | m, .fold :: acts => Undisturbed r (m.consolidate r.depths r) acts

/-! ## Leaves -/

/-- A map holds privileges of the registry, and sound decisions on leaves. -/
structure LeafSound (r : Registry) (m : DecisionMap) : Prop where
  /-- The privileges are in the registry. -/
  known : ∀ p ∈ m.privileges, p ∈ r.privileges
  /-- What is said of a leaf is sound. -/
  sound : ∀ k, Privilege.atomic k ∈ r.privileges → ∀ d ∈ m.get? k, d.Sound

theorem leafSound_empty (r : Registry) : LeafSound r ∅ :=
  ⟨fun _ hp => absurd hp List.not_mem_nil, fun _ _ _ hd => nomatch hd⟩

theorem known_perform (hm : ∀ p ∈ m.privileges, p ∈ r.privileges)
    (ht : ∀ p ∈ targets, p ∈ r.privileges) (h : m.perform op targets = .ok n) :
    ∀ p ∈ n.privileges, p ∈ r.privileges := by
  intro p hp
  rcases mem_privileges_perform ht h hp with ⟨k, hk, rfl⟩ | hp
  · exact hk
  · exact hm p hp

theorem LeafSound.perform (hm : LeafSound r m) (ht : ∀ p ∈ targets, p ∈ r.privileges)
    (h : m.perform op targets = .ok n) : LeafSound r n where
  known := known_perform hm.known ht h
  sound k hk := by
    rw [get?_perform ht h]
    split
    · exact op.sound_act (hm.sound k hk)
    · exact hm.sound k hk

/-- A fold does nothing to a leaf but to take back a side. -/
theorem LeafSound.consolidate (hm : LeafSound r m) (d : DepthIndex) :
    LeafSound r (m.consolidate d r) where
  known := mem_privileges_consolidate d hm.known
  sound k hk := by
    refine consolidate_induction (P := fun f => ∀ d ∈ f.get? k, d.Sound)
      (fun step hstep f f' hf hfold => ?_) (hm.sound k hk)
    obtain ⟨⟨hp, ha⟩, _⟩ := Registry.mem_foldSteps_iff.1 hstep
    obtain ⟨_, _, hget⟩ := get?_of_fold? (Registry.splits_of_mem_foldSteps hstep).proper hfold
    have hne : step.aggregate.id ≠ k := by
      intro hid
      rw [Registry.eq_of_id_eq hp hk hid] at ha
      cases ha
    rw [hget, if_neg hne]
    split
    · exact (Operation.clear step.effect).sound_act hf
    · exact hf

/-! ## Keeping in step -/

/-- What is told stays right when something is changed about leaves that no privilege
    covers which is in force, other than the leaf itself. -/
theorem Tells.touch {leaf told leaf' told' : String → Option RestrictionSet} (h : Tells r leaf told)
    {T : String → Prop} (hleaf : ∀ k, T k → ∀ x, r.covers k x = true ↔ x = k)
    (halone : ∀ k x, (told k).isSome → r.covers k x = true → T x → k = x)
    (hon : ∀ k, T k → RestrictionSet.Alike (leaf' k) (told' k))
    (hoff : ∀ k, ¬ T k → leaf' k = leaf k ∧ told' k = told k) : Tells r leaf' told' := by
  -- Still what covers a leaf that is touched is the leaf itself.
  have halone' {k x : String} (hk : (told' k).isSome) (hkx : r.covers k x = true) (hx : T x) :
      k = x := by
    by_cases hT : T k
    · exact ((hleaf k hT x).1 hkx).symm
    · exact halone k x ((hoff k hT).2 ▸ hk) hkx hx
  have hsame {k x : String} (hkx : r.covers k x = true) (hx : ¬ T x) : told' k = told k := by
    refine (hoff k fun hT => hx ?_).2
    rwa [(hleaf k hT x).1 hkx]
  refine ⟨fun k hk => ?_, fun k k' x hk hk' hkx hkx' => ?_, fun k x rs hk hkx => ?_,
    fun x ss hx => ?_⟩
  · by_cases hT : T k
    · exact ⟨k, (hleaf k hT k).2 rfl⟩
    · exact h.inhabited k ((hoff k hT).2 ▸ hk)
  · by_cases hT : T x
    · rw [halone' hk hkx hT, halone' hk' hkx' hT]
    · exact h.unique k k' x (hsame hkx hT ▸ hk) (hsame hkx' hT ▸ hk') hkx hkx'
  · by_cases hT : T x
    · obtain rfl := halone' (Option.isSome_of_eq_some hk) hkx hT
      obtain ⟨ss, hss, hrs⟩ := RestrictionSet.Alike.exists_of_eq_some (hon k hT).symm hk
      exact ⟨ss, hss, hrs⟩
    · rw [(hoff x hT).1]
      exact h.sound k x rs (hsame hkx hT ▸ hk) hkx
  · by_cases hT : T x
    · obtain ⟨rs, hrs, hss⟩ := (hon x hT).exists_of_eq_some hx
      exact ⟨x, rs, hrs, (hleaf x hT x).2 rfl, RestrictionSet.same_symm hss⟩
    · obtain ⟨k, rs, hk, hkx, hrs⟩ := h.complete x ss ((hoff x hT).1 ▸ hx)
      exact ⟨k, rs, (hsame hkx hT).trans hk, hkx, hrs⟩

/-- A map `m` of sound decisions represents decisions `l` on leaves. -/
structure Tracks (r : Registry) (l m : DecisionMap) : Prop where
  /-- What is represented. -/
  leaves : l.IsLeafMap r
  /-- It is represented. -/
  represents : Represents r l m
  /-- The privileges are in the registry. -/
  known : ∀ p ∈ m.privileges, p ∈ r.privileges
  /-- The decisions are sound. -/
  sound : ∀ a ∈ m.rulings, a.decision.Sound

namespace Tracks

theorem empty (r : Registry) : Tracks r ∅ ∅ where
  leaves := isLeafMap_empty r
  represents := represents_self (isLeafMap_empty r).atomic
  known _ hp := absurd hp List.not_mem_nil
  sound _ ha := absurd ha List.not_mem_nil

theorem consolidate (h : Tracks r l m) (d : DepthIndex) : Tracks r l (m.consolidate d r) where
  leaves := h.leaves
  represents := h.represents.consolidate d
  known := mem_privileges_consolidate d h.known
  sound := (h.represents.consolidate d).sound h.leaves
    (decided_consolidate d fun a ha => (h.sound a ha).decided)
    (clean_consolidate d fun a ha => (h.sound a ha).clean)

/-- Of a leaf that is kept off, only the leaf itself tells. -/
theorem eq_of_covers (h : Tracks r l m) (hoff : m.KeepsOff targets) {e : Effect}
    {k x : String} (hk : (m.inForce? e k).isSome) (hkx : r.covers k x = true)
    (hx : targets.any (·.covers x) = true) : k = x := by
  obtain ⟨rs, hrs⟩ := Option.isSome_iff_exists.1 hk
  obtain ⟨a, ha, rfl, _⟩ := inForce?_eq_some_iff.1 hrs
  obtain ⟨p, hp, hpx⟩ := List.any_eq_true.1 hx
  have hmem := h.known _ (List.mem_map_of_mem ha)
  rw [Ruling.id, Registry.covers_eq hmem] at hkx
  cases hagg : a.privilege.isAggregate with
  | false =>
    rw [Registry.eq_atomic hmem hagg, Privilege.covers_iff_of_atomic] at hkx
    exact hkx.symm
  | true => simp [hoff p hp _ (List.mem_map_of_mem ha) hagg x hpx] at hkx

/-- What the leaf map says of a leaf stands in the map as well, if nothing else tells of
    the leaf. -/
theorem alike (h : Tracks r l m) {k : String} (hk : r.covers k k = true)
    (halone : ∀ (e : Effect) (j : String), (m.inForce? e j).isSome → r.covers j k = true → j = k) :
    Decision.Alike (l.get? k) (m.get? k) := by
  refine Decision.alike_of_inForce? (forall_mem_rulings_iff.1 h.leaves.sound k)
    (forall_mem_rulings_iff.1 h.sound k) fun e => ?_
  rw [← inForce?_eq, ← inForce?_eq]
  cases hss : l.inForce? e k with
  | some ss =>
    obtain ⟨j, rs, hrs, hcov, hsame⟩ := (h.represents e).complete k ss hss
    obtain rfl := halone e j (Option.isSome_of_eq_some hrs) hcov
    rw [hrs]
    exact .some (RestrictionSet.same_symm hsame)
  | none =>
    cases hrs : m.inForce? e k with
    | none => exact .none
    | some rs =>
      obtain ⟨ss, hss', _⟩ := (h.represents e).sound k k rs hrs hk
      cases hss.symm.trans hss'

/-- An operation that keeps off aggregates does the same to the map as to the decisions
    on leaves. -/
theorem perform (h : Tracks r l m) (ht : ∀ p ∈ targets, p ∈ r.privileges)
    (hoff : m.KeepsOff targets) (hn : m.perform op targets = .ok n) : ∃ l', Tracks r l' n := by
  obtain ⟨ls, _, _, hl⟩ := exists_perform l op ht
  refine ⟨_, h.leaves.perform ht hl, fun e => ?_, known_perform h.known ht hn,
    sound_perform h.sound ht hn⟩
  have hleaf (k : String) (hk : targets.any (·.covers k) = true) (x : String) :
      r.covers k x = true ↔ x = k := by
    obtain ⟨p, hp, hpk⟩ := List.any_eq_true.1 hk
    have hmem := Registry.atomic_mem_of_covers (ht p hp) hpk
    change r.covers (Privilege.atomic k).id x = true ↔ x = k
    rw [Registry.covers_eq hmem]
    exact Privilege.covers_iff_of_atomic
  refine (h.represents e).touch hleaf (fun k x => h.eq_of_covers hoff) (fun k hk => ?_)
    fun k hk => ?_
  · have halike := h.alike ((hleaf k hk k).2 rfl) fun e j hj hjk => h.eq_of_covers hoff hj hjk hk
    rw [inForce?_eq, inForce?_eq, get?_perform ht hl, get?_perform ht hn, if_pos hk, if_pos hk]
    exact (Operation.act_congr halike op).inForce? e
  · simp only [inForce?_eq, get?_perform ht hl, get?_perform ht hn, if_neg hk, and_self]

end Tracks

/-! ## Main results -/

/-- What a run leads to from any map. -/
theorem exists_run_of (hacts : ∀ a ∈ acts, a.Within r) (hm : LeafSound r m) :
    ∃ n, m.run r acts = .ok n ∧ LeafSound r n ∧
      ((∀ a ∈ m.rulings, a.decision.Sound) → (.fold ∈ acts → ∃ l, Tracks r l m) →
        Undisturbed r m acts → ∀ a ∈ n.rulings, a.decision.Sound) := by
  induction acts generalizing m with
  | nil => exact ⟨m, rfl, hm, fun hsound _ _ => hsound⟩
  | cons act acts ih =>
    have ih {m : DecisionMap} := ih (m := m) fun a ha => hacts a (List.mem_cons_of_mem _ ha)
    cases act with
    | operate op targets =>
      have ht : ∀ p ∈ targets, p ∈ r.privileges := hacts _ List.mem_cons_self
      obtain ⟨ls, _, _, hperform⟩ := exists_perform m op ht
      obtain ⟨n, hn, hleaf, hsound⟩ := ih (hm.perform ht hperform)
      refine ⟨n, (run_operate hperform acts).trans hn, hleaf, fun hs htracks hoff => ?_⟩
      refine hsound (sound_perform hs ht hperform) (fun hfold => ?_) (hoff.2 _ hperform)
      obtain ⟨l, hl⟩ := htracks (List.mem_cons_of_mem _ hfold)
      exact hl.perform ht (hoff.1 hfold) hperform
    | fold =>
      obtain ⟨n, hn, hleaf, hsound⟩ := ih (hm.consolidate r.depths)
      refine ⟨n, (run_fold m acts).trans hn, hleaf, fun _ htracks hoff => ?_⟩
      obtain ⟨l, hl⟩ := htracks List.mem_cons_self
      have hnext := hl.consolidate r.depths
      exact hsound hnext.sound (fun _ => ⟨l, hnext⟩) hoff

/-- If all of the diamond is allowed and folded, and then denied and folded, one of the
    aggregates that share a leaf is allowed and denied. -/
theorem run_contradictory : ¬ ∀ r : Registry, r.Accepted → ∀ acts : List Activity,
    (∀ a ∈ acts, a.Within r) → ∀ n, (∅ : DecisionMap).run r acts = .ok n →
      ∀ a ∈ n.rulings, a.decision.isContradictory = false := by
  intro h
  let acts : List Activity := [.operate (.set .allow ∅) [Registry.diamond.root], .fold,
    .operate (.set .deny ∅) [Registry.diamond.root], .fold]
  have hacts : ∀ a ∈ acts, a.Within .diamond := by
    have hroot : ∀ p ∈ [Registry.diamond.root], p ∈ Registry.diamond.privileges :=
      List.forall_mem_singleton.2 Registry.diamond.root_mem
    simp [acts, Activity.Within, hroot]
  have hcontra : ((∅ : DecisionMap).run .diamond acts).toOption.any
      (fun n => n.rulings.any (·.decision.isContradictory)) = true := by
    simp only [acts, run, List.foldlM_cons, List.foldlM_nil, advance, consolidate,
      Registry.foldSteps, Registry.aggregatesByDepth_eq]
    decide +kernel
  obtain ⟨n, hn, _⟩ := exists_run_of hacts (leafSound_empty _)
  rw [hn] at hcontra
  obtain ⟨a, ha, hcontra⟩ := List.any_eq_true.1 hcontra
  rw [h .diamond Registry.accepted_diamond acts hacts n hn a ha] at hcontra
  cases hcontra

/-- A run of operations and folds leads to a result, in which no leaf is allowed and denied
    under the same restrictions. Nothing else is either, if no operation touches the leaves
    of an aggregate that the map then holds and that is to be folded again. -/
theorem exists_run (hacts : ∀ a ∈ acts, a.Within r) :
    ∃ n, (∅ : DecisionMap).run r acts = .ok n ∧
      (∀ a ∈ n.rulings, a.privilege.isAggregate = false → a.decision.isContradictory = false) ∧
      (Undisturbed r ∅ acts → ∀ a ∈ n.rulings, a.decision.isContradictory = false) := by
  obtain ⟨n, hn, hleaf, hsound⟩ := exists_run_of hacts (leafSound_empty r)
  refine ⟨n, hn, fun a ha hatomic => ?_, fun hoff a ha => ?_⟩
  · have hmem := hleaf.known _ (List.mem_map_of_mem ha)
    have hsound := hleaf.sound a.id (Registry.eq_atomic hmem hatomic ▸ hmem) a.decision
    exact (hsound (get?_of_mem ha)).consistent
  · have htracks := Tracks.empty r
    exact (hsound htracks.sound (fun _ => ⟨∅, htracks⟩) hoff a ha).consistent

/-- What one aggregate of the diamond covers is allowed and folded, and then the leaf that
    it does not cover is denied, before all is folded again. -/
def spaced : List Activity :=
  [.operate (.set .allow ∅) [.atomic "doc:read", .atomic "doc:share"], .fold,
    .operate (.set .deny ∅) [.atomic "doc:write"], .fold]

theorem undisturbed_spaced : Undisturbed .diamond ∅ spaced := by
  refine ⟨fun _ _ _ _ hq => absurd hq List.not_mem_nil,
    fun n hn => ⟨fun _ => ?_, fun _ _ => trivial⟩⟩
  obtain rfl := Except.ok.inj (show Except.ok _ = _ from hn)
  have hwrite : ∀ q ∈ (((∅ : DecisionMap).performOnLeaves (.set .allow ∅)
      ["doc:read", "doc:share"]).consolidate Registry.diamond.depths .diamond).privileges,
      q.covers "doc:write" = false := by
    simp only [consolidate, Registry.foldSteps, Registry.aggregatesByDepth_eq]
    decide +kernel
  intro p hp q hq _ leaf hleaf
  rw [List.mem_singleton.1 hp] at hleaf
  rw [Privilege.covers_iff_of_atomic.1 hleaf]
  exact hwrite q hq

/-- No leaf and no aggregate is allowed and denied in the end. -/
theorem exists_run_spaced : (∀ a ∈ spaced, a.Within .diamond) ∧ Undisturbed .diamond ∅ spaced ∧
    ∃ n, (∅ : DecisionMap).run .diamond spaced = .ok n ∧
      ∀ a ∈ n.rulings, a.decision.isContradictory = false := by
  have hleaf {k : String} (hk : Registry.diamond.root.covers k = true) :
      .atomic k ∈ Registry.diamond.privileges :=
    Registry.atomic_mem_of_covers Registry.diamond.root_mem hk
  have hcovers : ∀ k ∈ ["doc:read", "doc:share", "doc:write"],
      Registry.diamond.root.covers k = true := by
    decide +kernel
  have hwithin : ∀ a ∈ spaced, a.Within .diamond := by
    simp [spaced, Activity.Within, hleaf (hcovers _ _)]
  obtain ⟨n, hn, _, hsound⟩ := exists_run hwithin
  exact ⟨hwithin, undisturbed_spaced, n, hn, hsound undisturbed_spaced⟩

end DecisionMap

end AccessControl
