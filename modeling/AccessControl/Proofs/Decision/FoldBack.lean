import AccessControl.Proofs.Decision.Canonical

/-!
# Folding back what was taken apart

To allow an aggregate is to allow its leaves. Folding tells this of privileges again,
among which the leaves of the aggregate are divided. Where two aggregates compete for a
child, the one that is looked at first takes the child from the other, so that several
privileges may be needed to name what was one before. Otherwise it is one privilege
again, the aggregate itself or another one that has the same leaves.

* `DecisionMap.Divides`: the leaves of a privilege are divided among those of a map;
* `DecisionMap.FoldsBack`: what is allowed or denied of a privilege is told of one
  privilege after folding;
* `DecisionMap.not_foldsBack_diamond`: this may fail where aggregates compete;
* `DecisionMap.divides_consolidate`: what is true in general, and if they do not.
-/

namespace AccessControl

/-- Aggregates that have no other leaves than a privilege do not compete for a child,
    unless they have all of its leaves. -/
def Registry.Uncontested (r : Registry) (p : Privilege) : Prop :=
  ∀ a ∈ r.privileges, ∀ b ∈ r.privileges, r.root.Reaches a → r.root.Reaches b →
    (∀ l, a.covers l = true → p.covers l = true) → (∀ l, b.covers l = true → p.covers l = true) →
    ∀ c ∈ r.immediateChildren a.id, c ∈ r.immediateChildren b.id →
      a.id = b.id ∨ ∀ l, p.covers l = true → b.covers l = true

namespace DecisionMap

variable {r : Registry} {m f : DecisionMap} {p q : Privilege} {e : Effect} {rs : RestrictionSet}

/-- A decision that only allows, or only denies, under given restrictions. -/
def Only (e : Effect) (rs : RestrictionSet) (d : Decision) : Prop :=
  ((d.side e).active = true ∧ (d.side e).restrictions.same rs = true) ∧
    (d.side e.other).active = false

/-- The leaves of a privilege are divided among the privileges of a map, each of which is
    allowed, or denied, under given restrictions. -/
structure Divides (f : DecisionMap) (e : Effect) (rs : RestrictionSet) (p : Privilege) : Prop where
  /-- All decisions are the same. -/
  only : ∀ a ∈ f.rulings, Only e rs a.decision
  /-- There are no other leaves. -/
  within : ∀ a ∈ f.rulings, ∀ l, a.privilege.covers l = true → p.covers l = true
  /-- Every leaf is told of once. -/
  once : ∀ l, p.covers l = true → ∃ a ∈ f.rulings, a.privilege.covers l = true ∧
    ∀ b ∈ f.rulings, b.privilege.covers l = true → b = a

/-- One decision is left of what is allowed, or denied, of a privilege alone, about a
    privilege that has the same leaves. -/
def FoldsBack (r : Registry) (e : Effect) (rs : RestrictionSet) (p : Privilege) : Prop :=
  ∃ m, (∅ : DecisionMap).perform (.set e rs) [p] = .ok m ∧
    ∃ a, (m.consolidate r.depths r).rulings = [a] ∧
      (∀ l, a.privilege.covers l = p.covers l) ∧ Only e rs a.decision

/-- Of the two aggregates of the diamond that share a leaf, one takes it from the other,
    so that what is allowed of the root is not told of the root again. -/
theorem not_foldsBack_diamond : ¬ ∀ r : Registry, r.Accepted → ∀ p ∈ r.privileges,
    p.isAggregate = true → r.root.Reaches p → ∀ e rs, FoldsBack r e rs p := by
  intro h
  obtain ⟨m, hm, a, ha, _⟩ := h .diamond Registry.accepted_diamond Registry.diamond.root
    Registry.diamond.root_mem Registry.diamond.root_isAggregate .refl .allow ∅
  have htwo : ((∅ : DecisionMap).perform (.set .allow ∅) [Registry.diamond.root]).toOption.map
      (fun m => (m.consolidate Registry.diamond.depths .diamond).rulings.length) = some 2 := by
    unfold consolidate Registry.foldSteps
    rw [Registry.aggregatesByDepth_eq]
    decide +kernel
  rw [hm] at htwo
  simp [Except.toOption, ha] at htwo

/-! ## The leaves of one privilege -/

/-- A map says of the leaves of a privilege that they are allowed, or denied, under given
    restrictions, and nothing else. -/
structure SaysOnly (m : DecisionMap) (e : Effect) (rs : RestrictionSet) (p : Privilege) : Prop where
  /-- All leaves are in force. -/
  uniform : m.Uniform e rs p
  /-- Nothing else is. -/
  only : ∀ e' l ss, m.inForce? e' l = some ss → e' = e ∧ p.covers l = true ∧ ss.same rs = true

theorem saysOnly_of_perform (hp : p ∈ r.privileges)
    (h : (∅ : DecisionMap).perform (.set e rs) [p] = .ok m) : SaysOnly m e rs p := by
  have hgrant : Decision.undecided.grant e rs =
      Decision.undecided.onSide e fun _ => ⟨true, RestrictionSet.merge ∅ rs⟩ := by
    refine Decision.grant_of_off (Decision.side_undecided e) fun ss hss => ?_
    rw [Decision.side_undecided] at hss
    cases hss
  have hget (k : String) : m.get? k = if p.covers k then
      some (Decision.undecided.onSide e fun _ => ⟨true, RestrictionSet.merge ∅ rs⟩) else none := by
    rw [get?_perform (List.forall_mem_singleton.2 hp) h, ← hgrant, List.any_cons, List.any_nil,
      Bool.or_false]
    rfl
  refine ⟨fun l hl => ⟨_, ?_, RestrictionSet.merge_empty_same rs⟩, fun e' l ss hss => ?_⟩
  · rw [inForce?_eq, hget, if_pos hl, Option.bind_some, Decision.side_onSide_self, Side.inForce?,
      if_pos rfl]
  · rw [inForce?_eq, hget] at hss
    by_cases hl : p.covers l = true
    · rw [if_pos hl, Option.bind_some] at hss
      by_cases he : e' = e
      · subst he
        rw [Decision.side_onSide_self, Side.inForce?, if_pos rfl] at hss
        exact ⟨rfl, hl, Option.some.inj hss ▸ RestrictionSet.merge_empty_same rs⟩
      · rw [Decision.side_onSide_of_ne _ he, Decision.side_undecided] at hss
        cases hss
    · rw [if_neg hl] at hss
      cases hss

namespace FoldedFrom

variable {top : Privilege}

/-- What is in force in a fold of the leaves of one privilege. -/
theorem of_active (hf : FoldedFrom r top m f) (hm : SaysOnly m e rs p) {a : Ruling}
    (ha : a ∈ f.rulings) {e' : Effect} (hact : (a.decision.side e').active = true) :
    e' = e ∧ (a.decision.side e').restrictions.same rs = true ∧
      ∀ l, a.privilege.covers l = true → p.covers l = true := by
  have hforce := inForce?_eq_some_iff.2 ⟨a, ha, rfl, hact, rfl⟩
  have hleaf {l : String} (hl : r.covers a.id l = true) :
      e' = e ∧ p.covers l = true ∧ (a.decision.side e').restrictions.same rs = true := by
    obtain ⟨ss, hss, hsame⟩ := (hf.represents e').sound a.id l _ hforce hl
    obtain ⟨he, hpl, hsame'⟩ := hm.only e' l ss hss
    exact ⟨he, hpl, RestrictionSet.same_trans hsame hsame'⟩
  obtain ⟨l, hl⟩ := (hf.represents e').inhabited a.id (Option.isSome_of_eq_some hforce)
  refine ⟨(hleaf hl).1, (hleaf hl).2.2, fun k hk => (hleaf ?_).2.1⟩
  exact (Registry.covers_eq (hf.foldable _ (List.mem_map_of_mem ha)).1 k).trans hk

/-- The leaves of one privilege are divided among the privileges of their fold. -/
theorem divides (hf : FoldedFrom r top m f) (hm : SaysOnly m e rs p)
    (hdecided : ∀ a ∈ f.rulings, a.decision.isUndecided = false) : f.Divides e rs p := by
  have hactive {a : Ruling} (ha : a ∈ f.rulings) : (a.decision.side e).active = true := by
    obtain ⟨e', hact⟩ := Decision.isUndecided_eq_false_iff.1 (hdecided a ha)
    rwa [← (hf.of_active hm ha hact).1]
  have hcovers {a : Ruling} (ha : a ∈ f.rulings) (l : String) :
      r.covers a.id l = a.privilege.covers l :=
    Registry.covers_eq (hf.foldable _ (List.mem_map_of_mem ha)).1 l
  refine ⟨fun a ha => ⟨⟨hactive ha, (hf.of_active hm ha (hactive ha)).2.1⟩, ?_⟩,
    fun a ha => (hf.of_active hm ha (hactive ha)).2.2, fun l hl => ?_⟩
  · by_contra hact
    exact Decision.other_ne e (hf.of_active hm ha (by simpa using hact)).1
  · obtain ⟨ss, hss, _⟩ := hm.uniform l hl
    obtain ⟨k, ts, hk, hkl, _⟩ := (hf.represents e).complete l ss hss
    obtain ⟨a, ha, rfl, hact, rfl⟩ := inForce?_eq_some_iff.1 hk
    refine ⟨a, ha, (hcovers ha l).symm.trans hkl, fun b hb hbl => ruling_eq hb ha ?_⟩
    exact (hf.represents e).unique b.id a.id l (isSome_inForce?_of_mem hb (hactive hb))
      (isSome_inForce?_of_mem ha hact) ((hcovers hb l).trans hbl) hkl

/-- Without competition some privilege is in force that has all leaves. -/
theorem exists_holds (hr : r.Accepted) (hf : FoldedFrom r r.root m f) (hm : SaysOnly m e rs p)
    (hp : r.Foldable r.root p) (hcontest : r.Uncontested p) :
    ∃ k, r.Foldable r.root k ∧ f.Holds e rs k.id ∧ ∀ l, p.covers l = true → k.covers l = true := by
  have hwithin {q : Privilege} (h : m.Uniform e rs q) (l : String) (hl : q.covers l = true) :
      p.covers l = true := by
    obtain ⟨ss, hss, _⟩ := h l hl
    exact (hm.only e l ss hss).2.1
  have habove {q : Privilege} (hq : q ∈ r.privileges) (h : f.HeldAbove r r.root e rs q) :
      ∃ k, r.Foldable r.root k ∧ f.Holds e rs k.id ∧
        ∀ l, q.covers l = true → k.covers l = true := by
    obtain ⟨k, hk, hkq, hheld⟩ := h
    obtain ⟨q', hq', hid, hreach⟩ := Registry.exists_of_immediate hk.1 hkq
    obtain rfl := Registry.eq_of_id_eq hq' hq hid
    exact ⟨k, hk, hheld, fun l => Registry.covers_of_reaches hk.1 hreach⟩
  refine (hf.heldAbove_or hr r.root_mem (fun a b c ha hb hab hac hbc hu hu' h => ?_) hp
    hm.uniform).elim (habove hp.1) id
  -- A rival has all leaves, and so has what is in force above it.
  rcases hcontest a ha.1 b hb.1 (ha.reaches_of_immediate hac) (hb.reaches_of_immediate hbc)
    (hwithin hu) (hwithin hu') c hac hbc with hid | hall
  · exact absurd (Registry.eq_of_id_eq ha.1 hb.1 hid) hab
  · obtain ⟨k, hk, hheld, hkb⟩ := habove hb.1 h
    exact ⟨k, hk, hheld, fun l hl => hkb l (hall l hl)⟩

end FoldedFrom

/-! ## Main results -/

/-- What is allowed, or denied, of a privilege alone is divided among the privileges of
    its fold. It is told of one privilege if no aggregates compete within its leaves. -/
theorem divides_consolidate (hr : r.Accepted) (hp : p ∈ r.privileges)
    (hreach : r.root.Reaches p) (e : Effect) (rs : RestrictionSet) :
    ∃ m, (∅ : DecisionMap).perform (.set e rs) [p] = .ok m ∧
      (m.consolidate r.depths r).Divides e rs p ∧
      (r.Uncontested p → FoldsBack r e rs p) := by
  have htargets : ∀ q ∈ [p], q ∈ r.privileges := List.forall_mem_singleton.2 hp
  obtain ⟨ls, _, _, hm⟩ := exists_perform ∅ (.set e rs) htargets
  generalize (∅ : DecisionMap).performOnLeaves (.set e rs) ls = m at hm
  have hleaves := (Reachable.empty.perform _ htargets hm).isLeafMap
  have honly := saysOnly_of_perform hp hm
  have hf : FoldedFrom r r.root m (m.consolidate r.depths r) :=
    foldedFrom_consolidate r.root_mem hleaves.atomic
  have hdivides := hf.divides honly
    (decided_consolidate r.depths fun a ha => (hleaves.sound a ha).decided)
  refine ⟨m, hm, hdivides, fun hcontest => ⟨m, hm, ?_⟩⟩
  obtain ⟨k, hk, ⟨ss, hss, _⟩, hall⟩ := hf.exists_holds hr honly ⟨hp, .inr hreach⟩ hcontest
  obtain ⟨a, ha, hid, _⟩ := inForce?_eq_some_iff.1 hss
  obtain rfl := Registry.eq_of_id_eq (hf.foldable _ (List.mem_map_of_mem ha)).1 hk.1 hid
  -- What has all leaves leaves none to others.
  have hone : ∀ b ∈ (m.consolidate r.depths r).rulings, b = a := by
    intro b hb
    obtain ⟨l, hl⟩ := hr.exists_covers (hf.foldable _ (List.mem_map_of_mem hb)).1
    have hpl := hdivides.within b hb l hl
    obtain ⟨c, _, _, honce⟩ := hdivides.once l hpl
    rw [honce b hb hl, honce a ha (hall l hpl)]
  refine ⟨a, ?_, fun l => Bool.eq_iff_iff.2 ⟨hdivides.within a ha l, hall l⟩, hdivides.only a ha⟩
  have hnodup : (m.consolidate r.depths r).rulings.Nodup := .of_map _ (nodup_ids _)
  have hperm : (m.consolidate r.depths r).rulings.Perm [a] := by
    refine (List.perm_ext_iff_of_nodup hnodup (List.nodup_singleton a)).2 fun b => ?_
    rw [List.mem_singleton]
    exact ⟨hone b, fun h => h ▸ ha⟩
  exact hperm.eq_singleton

/-- The aggregates of the diamond below its root do not compete within their leaves. -/
theorem divides_consolidate_diamond :
    ∃ p ∈ Registry.diamond.privileges, p.id = "doc:view" ∧
      (Registry.diamond.Accepted ∧ Registry.diamond.root.Reaches p) ∧
      Registry.diamond.Uncontested p ∧ FoldsBack .diamond .allow ∅ p := by
  have hview : ∃ p ∈ Registry.diamond.privileges, p.id = "doc:view" ∧
      p.covers "doc:write" = false ∧ "doc:view" ∈ Registry.diamond.depths := by
    decide +kernel
  have hwrite : ∀ a ∈ Registry.diamond.privileges, ∀ b ∈ Registry.diamond.privileges,
      ∀ c ∈ Registry.diamond.immediateChildren a.id, c ∈ Registry.diamond.immediateChildren b.id →
        a.id = b.id ∨ a.covers "doc:write" = true ∨ b.covers "doc:write" = true := by
    decide +kernel
  obtain ⟨p, hp, hid, hnot, hdepth⟩ := hview
  have hreach : Registry.diamond.root.Reaches p :=
    (Registry.id_mem_depths_iff Registry.diamond.root_mem hp).1 (hid ▸ hdepth)
  have hcontest : Registry.diamond.Uncontested p := by
    intro a ha b hb _ _ hap hbp c hca hcb
    -- Of two aggregates that share a child, one has a leaf that is not to be had.
    rcases hwrite a ha b hb c hca hcb with h | h | h
    · exact .inl h
    · exact absurd (hap _ h) (by rw [hnot]; exact nofun)
    · exact absurd (hbp _ h) (by rw [hnot]; exact nofun)
  obtain ⟨m, _, _, hback⟩ :=
    divides_consolidate Registry.accepted_diamond hp hreach .allow ∅
  exact ⟨p, hp, hid, ⟨Registry.accepted_diamond, hreach⟩, hcontest, hback hcontest⟩

end DecisionMap

end AccessControl
