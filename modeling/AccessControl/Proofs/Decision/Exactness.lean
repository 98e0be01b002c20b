import AccessControl.Proofs.Decision.FoldStep
import AccessControl.Proofs.Decision.Reachable

/-!
# Exactness of folding

Folding tells of aggregates what was decided about leaves, and tells it exactly:
a leaf is allowed or denied by one privilege that covers it if it was so before,
under the same restrictions, and by none otherwise. This holds for every acyclic
graph of privileges, whichever aggregates a depth index has and in whatever order.

* `DecisionMap.Tells`: privileges tell, for one effect, what is said of leaves;
* `Tells.fold`: they still do when an aggregate takes the place of its children;
* `DecisionMap.Represents`, `Represents.of_fold?`: so a step of a fold keeps what a
  map says of leaves;
* `DecisionMap.consolidate_exact`: so the fold of decisions on leaves is exact;
* `DecisionMap.sound_consolidate`: it leaves sound decisions;
* `DecisionMap.Reachable.atomic_and_sound`: what holds of decisions after any run, and of
  their fold.
-/

namespace AccessControl

namespace DecisionMap

variable {r : Registry} {m f : DecisionMap}

/-- What is said of leaves for one effect, `leaf`, is told by what is said of privileges
    that cover them, `told`, and of every leaf once. -/
structure Tells (r : Registry) (leaf told : String → Option RestrictionSet) : Prop where
  /-- A privilege that is in force covers something. -/
  inhabited : ∀ k, (told k).isSome → ∃ l, r.covers k l = true
  /-- Privileges that are in force have no leaf in common. -/
  unique : ∀ k k' l, (told k).isSome → (told k').isSome →
    r.covers k l = true → r.covers k' l = true → k = k'
  /-- What is in force for a privilege is so for the leaves it covers. -/
  sound : ∀ k l rs, told k = some rs → r.covers k l = true →
    ∃ ss, leaf l = some ss ∧ rs.same ss = true
  /-- What is in force for a leaf is so for a privilege that covers it. -/
  complete : ∀ l ss, leaf l = some ss →
    ∃ k rs, told k = some rs ∧ r.covers k l = true ∧ rs.same ss = true

/-- Folding keeps what is told: the leaves of an aggregate are those of the children it
    replaces, which are in force under the same restrictions. -/
theorem Tells.fold {leaf told told' : String → Option RestrictionSet} (h : Tells r leaf told)
    {p : String} {cs : List String} {rs : RestrictionSet}
    (hcovers : ∀ l, r.covers p l = true ↔ ∃ c ∈ cs, r.covers c l = true)
    (hsome : ∃ c ∈ cs, told c = some rs)
    (hall : ∀ c ∈ cs, ∃ ss, told c = some ss ∧ rs.same ss = true)
    (htold : ∀ k, told' k = if k = p then some rs else if k ∈ cs then none else told k) :
    Tells r leaf told' := by
  have hactive {c : String} (hc : c ∈ cs) : (told c).isSome := by
    obtain ⟨ss, hss, _⟩ := hall c hc
    exact Option.isSome_of_eq_some hss
  have hp : told' p = some rs := by rw [htold, if_pos rfl]
  -- What else is in force was so before, and is no child.
  have helse {k : String} (hk : k ≠ p) (hact : (told' k).isSome) :
      k ∉ cs ∧ told' k = told k := by
    rw [htold, if_neg hk] at hact ⊢
    split at hact
    · cases hact
    next hc => exact ⟨hc, if_neg hc⟩
  -- It has no leaf in common with the aggregate, as it had none with the children.
  have hdisjoint {k l : String} (hk : k ≠ p) (hact : (told' k).isSome)
      (hkl : r.covers k l = true) (hl : r.covers p l = true) : False := by
    obtain ⟨c, hc, hcl⟩ := (hcovers l).1 hl
    obtain ⟨hnot, heq⟩ := helse hk hact
    exact hnot (h.unique c k l (hactive hc) (heq ▸ hact) hcl hkl ▸ hc)
  refine ⟨?_, ?_, ?_, ?_⟩
  · intro k hk
    by_cases hkp : k = p
    · obtain ⟨c, hc, _⟩ := hsome
      obtain ⟨l, hl⟩ := h.inhabited c (hactive hc)
      exact ⟨l, hkp ▸ (hcovers l).2 ⟨c, hc, hl⟩⟩
    · exact h.inhabited k ((helse hkp hk).2 ▸ hk)
  · intro k k' l hk hk' hl hl'
    by_cases hkp : k = p <;> by_cases hkp' : k' = p
    · rw [hkp, hkp']
    · exact (hdisjoint hkp' hk' hl' (hkp ▸ hl)).elim
    · exact (hdisjoint hkp hk hl (hkp' ▸ hl')).elim
    · exact h.unique k k' l ((helse hkp hk).2 ▸ hk) ((helse hkp' hk').2 ▸ hk') hl hl'
  · intro k l ts hk hl
    by_cases hkp : k = p
    · subst hkp
      obtain rfl := Option.some.inj (hp.symm.trans hk)
      obtain ⟨c, hc, hcl⟩ := (hcovers l).1 hl
      obtain ⟨ss, hss, hsame⟩ := hall c hc
      obtain ⟨us, hus, hsame'⟩ := h.sound c l ss hss hcl
      exact ⟨us, hus, RestrictionSet.same_trans hsame hsame'⟩
    · exact h.sound k l ts ((helse hkp (Option.isSome_of_eq_some hk)).2 ▸ hk) hl
  · intro l ss hl
    obtain ⟨k, ts, hk, hkl, hsame⟩ := h.complete l ss hl
    by_cases hc : k ∈ cs
    · obtain ⟨us, hus, hsame'⟩ := hall k hc
      obtain rfl := Option.some.inj (hk.symm.trans hus)
      exact ⟨p, rs, hp, (hcovers l).2 ⟨k, hc, hkl⟩, RestrictionSet.same_trans hsame' hsame⟩
    · have hkp : k ≠ p := by
        rintro rfl
        obtain ⟨c, hcc, hcl⟩ := (hcovers l).1 hkl
        exact hc (h.unique c k l (hactive hcc) (Option.isSome_of_eq_some hk) hcl hkl ▸ hcc)
      refine ⟨k, ts, ?_, hkl, hsame⟩
      rw [htold, if_neg hkp, if_neg hc, hk]

/-- `f` says of the privileges it holds what `m` says of the leaves they cover. -/
def Represents (r : Registry) (m f : DecisionMap) : Prop :=
  ∀ e, Tells r (m.inForce? e) (f.inForce? e)

/-- Decisions on leaves represent themselves. -/
theorem represents_self
    (hkeys : ∀ p ∈ m.privileges, p ∈ r.privileges ∧ p.isAggregate = false) :
    Represents r m m := by
  intro e
  have hcovers {k l : String} (h : (m.inForce? e k).isSome) : r.covers k l = true ↔ l = k := by
    obtain ⟨rs, hrs⟩ := Option.isSome_iff_exists.1 h
    obtain ⟨a, ha, rfl, _⟩ := inForce?_eq_some_iff.1 hrs
    obtain ⟨hp, hatomic⟩ := hkeys a.privilege (List.mem_map_of_mem ha)
    rw [Ruling.id, Registry.covers_eq hp, Registry.eq_atomic hp hatomic]
    exact Privilege.covers_iff_of_atomic
  refine ⟨fun k h => ⟨k, (hcovers h).2 rfl⟩, ?_, ?_, ?_⟩
  · intro k k' l hk hk' hl hl'
    rw [← (hcovers hk).1 hl, ← (hcovers hk').1 hl']
  · intro k l rs hk hl
    obtain rfl := (hcovers (Option.isSome_of_eq_some hk)).1 hl
    exact ⟨rs, hk, RestrictionSet.same_refl rs⟩
  · intro l ss hl
    exact ⟨l, ss, hl, (hcovers (Option.isSome_of_eq_some hl)).2 rfl, RestrictionSet.same_refl ss⟩

/-- A step of a fold keeps what is represented. -/
theorem Represents.of_fold? {f' : DecisionMap} {step : FoldStep} (h : Represents r m f)
    (hs : step.Splits r) (hf : f.fold? step = some f') : Represents r m f' := by
  obtain ⟨rs, hrs, hforce⟩ := inForce?_of_fold? hs.proper hf
  obtain ⟨hsome, hall⟩ := common?_eq_some hrs
  intro e
  by_cases he : e = step.effect
  · subst he
    exact (h _).fold hs.covers_iff hsome hall fun k => by rw [hforce, if_pos rfl]
  · -- On the opposite side nothing changes.
    have hsame : f'.inForce? e = f.inForce? e := funext fun k => by rw [hforce, if_neg he]
    rw [hsame]
    exact h e

/-- So does a fold. -/
theorem Represents.consolidate (h : Represents r m f) (d : DepthIndex) :
    Represents r m (f.consolidate d r) :=
  consolidate_induction
    (fun _ hstep _ _ h hf => h.of_fold? (Registry.splits_of_mem_foldSteps hstep) hf) h

/-- The fold of decisions on leaves represents them. -/
theorem represents_consolidate (d : DepthIndex)
    (hkeys : ∀ p ∈ m.privileges, p ∈ r.privileges ∧ p.isAggregate = false) :
    Represents r m (m.consolidate d r) :=
  (represents_self hkeys).consolidate d

/-- A fold holds privileges of the registry. -/
theorem mem_privileges_consolidate (d : DepthIndex) (hm : ∀ p ∈ m.privileges, p ∈ r.privileges) :
    ∀ p ∈ (m.consolidate d r).privileges, p ∈ r.privileges := by
  refine consolidate_induction (P := fun f => ∀ p ∈ f.privileges, p ∈ r.privileges)
    (fun step hstep n f hn hf p hp => ?_) hm
  rcases mem_privileges_of_fold? hf hp with rfl | hp
  · exact (Registry.mem_foldSteps_iff.1 hstep).1.1
  · exact hn p hp

/-! ## Decisions of a fold -/

/-- What holds of all decisions after a step, if it is kept when a side is taken
    back or put in force. -/
theorem forall_decision_of_fold? {P : Decision → Prop} {f' : DecisionMap} {step : FoldStep}
    (hs : step.Splits r) (hf : f.fold? step = some f')
    (hput : ∀ e rs d, (d = .undecided ∨ P d) → P (d.onSide e fun _ => ⟨true, rs⟩))
    (htake : ∀ e d d', P d → (d.onSide e fun s => s.switch false).decided? = some d' → P d')
    (h : ∀ a ∈ f.rulings, P a.decision) : ∀ a ∈ f'.rulings, P a.decision := by
  obtain ⟨rs, _, hget⟩ := get?_of_fold? hs.proper hf
  have hP := forall_mem_rulings_iff.1 h
  refine forall_mem_rulings_iff.2 fun k d hd => ?_
  rw [hget] at hd
  split at hd
  · obtain rfl := Option.some.inj hd
    refine hput _ _ _ ?_
    cases hk : f.get? k with
    | none => exact .inl rfl
    | some d => exact .inr (hP k d hk)
  · split at hd
    · obtain ⟨d₀, hd₀, hd⟩ := Option.bind_eq_some_iff.1 hd
      exact htake _ d₀ d (hP k d₀ hd₀) hd
    · exact hP k d hd

theorem isUndecided_of_decided? {d d' : Decision} (h : d.decided? = some d') :
    d' = d ∧ d'.isUndecided = false := by
  rw [Decision.decided?, Option.ite_none_left_eq_some, Option.some.injEq] at h
  obtain ⟨hd, rfl⟩ := h
  exact ⟨rfl, by simpa using hd⟩

/-- No decision of a fold is void. -/
theorem decided_consolidate (d : DepthIndex) (h : ∀ a ∈ m.rulings, a.decision.isUndecided = false) :
    ∀ a ∈ (m.consolidate d r).rulings, a.decision.isUndecided = false := by
  refine consolidate_induction (P := fun f => ∀ a ∈ f.rulings, a.decision.isUndecided = false)
    (fun step hstep n f hn hf => ?_) h
  refine forall_decision_of_fold? (P := fun d => d.isUndecided = false)
    (Registry.splits_of_mem_foldSteps hstep) hf ?_ ?_ hn
  · intro e rs d _
    exact Decision.isUndecided_eq_false_iff.2 ⟨e, by rw [Decision.side_onSide_self]⟩
  · intro e d d' _ hd'
    exact (isUndecided_of_decided? hd').2

/-- No side of a fold that is not in force has restrictions. -/
theorem clean_consolidate (d : DepthIndex) (h : ∀ a ∈ m.rulings, a.decision.Clean) :
    ∀ a ∈ (m.consolidate d r).rulings, a.decision.Clean := by
  refine consolidate_induction (P := fun f => ∀ a ∈ f.rulings, a.decision.Clean)
    (fun step hstep n f hn hf => ?_) h
  refine forall_decision_of_fold? (P := Decision.Clean)
    (Registry.splits_of_mem_foldSteps hstep) hf ?_ ?_ hn
  · rintro e rs d (rfl | hd)
    · exact Decision.clean_undecided.onSide e nofun
    · exact hd.onSide e nofun
  · intro e d d' hd hd'
    rw [(isUndecided_of_decided? hd').1]
    exact hd.onSide e fun _ => rfl

/-- What represents sound decisions on leaves is sound, if it is not void and is clean: if
    a privilege were allowed and denied under the same restrictions, so were its leaves. -/
theorem Represents.sound (h : Represents r m f) (hm : m.IsLeafMap r)
    (hdecided : ∀ a ∈ f.rulings, a.decision.isUndecided = false)
    (hclean : ∀ a ∈ f.rulings, a.decision.Clean) : ∀ a ∈ f.rulings, a.decision.Sound := by
  intro a ha
  refine ⟨hdecided a ha, hclean a ha, ?_⟩
  rw [← Bool.not_eq_true, Decision.isContradictory_iff]
  rintro ⟨hact, hsame⟩
  -- Both sides tell of a leaf that the privilege covers.
  have hforce (e : Effect) := inForce?_eq_some_iff.2 ⟨a, ha, rfl, hact e, rfl⟩
  obtain ⟨l, hl⟩ := (h .allow).inhabited a.id (Option.isSome_of_eq_some (hforce .allow))
  obtain ⟨ss, hss, hsame_allow⟩ := (h .allow).sound a.id l _ (hforce .allow) hl
  obtain ⟨ts, hts, hsame_deny⟩ := (h .deny).sound a.id l _ (hforce .deny) hl
  have hdiffer := hm.restrictions_differ hss hts
  rw [← RestrictionSet.same_congr hsame_allow hsame_deny, hsame] at hdiffer
  cases hdiffer

/-- A fold of sound decisions on leaves consists of sound decisions. -/
theorem sound_consolidate (d : DepthIndex) (hm : m.IsLeafMap r) :
    ∀ a ∈ (m.consolidate d r).rulings, a.decision.Sound :=
  (represents_consolidate d hm.atomic).sound hm
    (decided_consolidate d fun a ha => (hm.sound a ha).decided)
    (clean_consolidate d fun a ha => (hm.sound a ha).clean)

/-! ## Main results -/

/-- The fold of decisions on leaves is exact. What is in force for a leaf is so for
    one privilege of the fold that covers it, under the same restrictions; what is
    not, is so for none; and no decision of the fold is void. -/
theorem consolidate_exact (d : DepthIndex)
    (hkeys : ∀ p ∈ m.privileges, p ∈ r.privileges ∧ p.isAggregate = false)
    (hdecided : ∀ a ∈ m.rulings, a.decision.isUndecided = false) :
    (∀ e l rs, m.inForce? e l = some rs → ∃ a ∈ (m.consolidate d r).rulings,
      (a.privilege.covers l = true ∧ (a.decision.side e).active = true) ∧
      (a.decision.side e).restrictions.same rs = true ∧
      ∀ b ∈ (m.consolidate d r).rulings,
        b.privilege.covers l = true → (b.decision.side e).active = true → b = a) ∧
    (∀ e l, m.inForce? e l = none → ∀ a ∈ (m.consolidate d r).rulings,
      a.privilege.covers l = true → (a.decision.side e).active = false) ∧
    ∀ a ∈ (m.consolidate d r).rulings, a.decision.isUndecided = false := by
  have hrep := represents_consolidate d hkeys
  have hcovers {a : Ruling} (ha : a ∈ (m.consolidate d r).rulings) (l : String) :
      r.covers a.id l = a.privilege.covers l :=
    Registry.covers_eq (mem_privileges_consolidate d (fun p hp => (hkeys p hp).1) _
      (List.mem_map_of_mem ha)) l
  refine ⟨fun e l rs hl => ?_, fun e l hl a ha hcov => ?_, decided_consolidate d hdecided⟩
  · obtain ⟨k, ss, hk, hkl, hsame⟩ := (hrep e).complete l rs hl
    obtain ⟨a, ha, rfl, hact, rfl⟩ := inForce?_eq_some_iff.1 hk
    refine ⟨a, ha, ⟨hcovers ha l ▸ hkl, hact⟩, hsame, fun b hb hbl hbact => ?_⟩
    have hid : b.id = a.id := (hrep e).unique b.id a.id l (isSome_inForce?_of_mem hb hbact)
      (isSome_inForce?_of_mem ha hact) ((hcovers hb l).trans hbl) hkl
    exact ruling_eq hb ha hid
  · by_contra hact
    have hforce := inForce?_eq_some_iff.2 ⟨a, ha, rfl, by simpa using hact, rfl⟩
    obtain ⟨ss, hss, _⟩ := (hrep e).sound a.id l _ hforce ((hcovers ha l).trans hcov)
    rw [hl] at hss
    cases hss

/-- Of the two aggregates of the diamond that share a leaf, one says what is denied
    of it. -/
theorem consolidate_exact_guarded :
    ((∀ p ∈ guarded.privileges, p ∈ Registry.diamond.privileges ∧ p.isAggregate = false) ∧
      ∀ a ∈ guarded.rulings, a.decision.isUndecided = false) ∧
    ∃ a ∈ (guarded.consolidate Registry.diamond.depths .diamond).rulings,
      (a.privilege.covers "doc:share" = true ∧ (a.decision.side .deny).active = true) ∧
      (a.decision.side .deny).restrictions.same
        (RestrictionSet.merge ∅
          (.single ⟨some RestrictionName.glob, .bool false, [.text "*"]⟩)) = true ∧
      ∀ b ∈ (guarded.consolidate Registry.diamond.depths .diamond).rulings,
        b.privilege.covers "doc:share" = true → (b.decision.side .deny).active = true → b = a :=
  have hkeys := reachable_guarded.isLeafMap.atomic
  have hdecided := fun a ha => (reachable_guarded.isLeafMap.sound a ha).decided
  ⟨⟨hkeys, hdecided⟩,
    (consolidate_exact Registry.diamond.depths hkeys hdecided).1 .deny "doc:share" _ rfl⟩

/-- After any run of operations decisions are about atomic privileges, say something,
    do not contradict themselves, and have restrictions only where they are in force.
    All of this but the first also holds of their fold. -/
theorem Reachable.atomic_and_sound (h : m.Reachable r) :
    (∀ p ∈ m.privileges, p ∈ r.privileges ∧ p = .atomic p.id) ∧
    (∀ a ∈ m.rulings, a.decision.Sound) ∧
    ∀ d : DepthIndex, ∀ a ∈ (m.consolidate d r).rulings, a.decision.Sound := by
  refine ⟨fun p hp => ?_, h.isLeafMap.sound, fun d => sound_consolidate d h.isLeafMap⟩
  obtain ⟨hmem, hatomic⟩ := h.isLeafMap.atomic p hp
  exact ⟨hmem, Registry.eq_atomic hmem hatomic⟩

/-- What is both allowed and denied in the diamond is so under different
    restrictions, before and after folding. -/
theorem Reachable.atomic_and_sound_guarded :
    guarded.Reachable .diamond ∧
    (∀ p ∈ guarded.privileges, p ∈ Registry.diamond.privileges ∧ p = .atomic p.id) ∧
    (∀ a ∈ guarded.rulings, a.decision.Sound) ∧
    ∀ d : DepthIndex, ∀ a ∈ (guarded.consolidate d .diamond).rulings, a.decision.Sound :=
  ⟨reachable_guarded, reachable_guarded.atomic_and_sound⟩

end DecisionMap

end AccessControl
