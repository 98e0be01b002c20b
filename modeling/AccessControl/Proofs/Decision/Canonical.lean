import AccessControl.Privilege.Standard
import AccessControl.Proofs.Decision.Exactness
import AccessControl.Proofs.Decision.Termination
import AccessControl.Proofs.Privilege.Reduction

/-!
# What a fold ends with

A fold goes on until nothing folds. What it then holds can be read off the leaves,
as long as aggregates do not compete, that is, as long as no two of them want the
same child. A privilege is in force for itself if all its leaves are in force alike
and this is not true of the aggregate it is a child of.

The reason is found by going up. What is in force alike is told by a privilege above
or by all children. In the latter case the children fold, so that this is not where
a fold ends. Only a rival, which takes a child away, could stop them.

* `DecisionMap.FoldedFrom`: what is known of a fold that has come to its end;
* `FoldedFrom.heldAbove_or`: what is in force alike is told by a privilege above, if
  no rival is in force;
* `DecisionMap.consolidate_canonical`: what a fold holds where aggregates do not
  compete.
-/

namespace AccessControl

/-! ## Going down by immediate children -/

namespace Privilege

variable {p q : Privilege}

/-- Only an aggregate leads to anything else. -/
theorem isAggregate_of_above {b : Bundle} (h : p.bundle.Above b) : p.isAggregate = true := by
  obtain ⟨c, hc, _⟩ := Relation.TransGen.head'_iff.1 h
  exact Bundle.isAggregate_of_parent hc

end Privilege

namespace Registry

variable {r : Registry} {p q top : Privilege} {l : String}

theorem covers_of_reaches (hp : p ∈ r.privileges) (h : p.Reaches q) (hl : q.covers l = true) :
    p.covers l = true := by
  rw [Privilege.covers_eq] at hl ⊢
  rcases Relation.reflTransGen_iff_eq_or_transGen.1 h with heq | habove
  · rwa [← heq]
  · exact Bundle.covers_of_above (leaves?_isSome hp) habove hl

/-- Immediate children lead from a privilege to every leaf it covers. -/
theorem immediate_of_covers (hp : p ∈ r.privileges) (h : p.covers l = true) :
    Relation.ReflTransGen r.Immediate p.id l := by
  induction hb : p.bundle using Bundle.descent generalizing p with
  | step b ih =>
    subst hb
    cases ha : p.isAggregate with
    | false =>
      rw [eq_atomic hp ha] at h
      rw [Privilege.covers_iff_of_atomic.1 h]
    | true =>
      obtain ⟨c, hc, hcl⟩ := (covers_iff_immediateChildren hp ha).1 ((covers_eq hp l).trans h)
      obtain ⟨q, hq, rfl, hpq⟩ := exists_of_mem_immediateChildren hp hc
      exact .head hc (ih q.bundle hpq hq ((covers_eq hq l).symm.trans hcl) rfl)

/-- What immediate children lead to is reached. -/
theorem exists_of_immediate (hp : p ∈ r.privileges) {k : String}
    (h : Relation.ReflTransGen r.Immediate p.id k) :
    ∃ q ∈ r.privileges, q.id = k ∧ p.Reaches q := by
  induction h with
  | refl => exact ⟨p, hp, rfl, .refl⟩
  | tail _ hc ih =>
    obtain ⟨q, hq, rfl, hpq⟩ := ih
    obtain ⟨q', hq', hid, hqq'⟩ := exists_of_mem_immediateChildren hq hc
    exact ⟨q', hq', hid, hpq.tail hqq'⟩

/-- A privilege of which the decisions of a fold may be, if they start from leaves and
    the depths are those of `top`. -/
def Foldable (r : Registry) (top p : Privilege) : Prop :=
  p ∈ r.privileges ∧ (p.isAggregate = false ∨ top.Reaches p)

theorem Foldable.reaches (h : r.Foldable top p) (ha : p.isAggregate = true) : top.Reaches p :=
  h.2.resolve_left (by rw [ha]; exact nofun)

theorem Foldable.reaches_of_immediate (h : r.Foldable top p) {c : String}
    (hc : c ∈ r.immediateChildren p.id) : top.Reaches p := by
  obtain ⟨_, _, _, hparent⟩ := exists_of_mem_immediateChildren h.1 hc
  exact h.reaches (Bundle.isAggregate_of_parent hparent)

theorem Foldable.of_reaches (h : r.Foldable top p) (hq : q ∈ r.privileges) (hpq : p.Reaches q) :
    r.Foldable top q := by
  rcases Relation.reflTransGen_iff_eq_or_transGen.1 hpq with heq | habove
  · rwa [Privilege.eq_of_bundle_eq heq]
  · exact ⟨hq, .inr ((h.reaches (Privilege.isAggregate_of_above habove)).trans hpq)⟩

end Registry

namespace DecisionMap

variable {r : Registry} {m f : DecisionMap} {top p : Privilege} {e : Effect} {rs : RestrictionSet}

/-- All leaves of a privilege are in force for an effect under given restrictions. -/
def Uniform (m : DecisionMap) (e : Effect) (rs : RestrictionSet) (p : Privilege) : Prop :=
  ∀ l, p.covers l = true → ∃ ss, m.inForce? e l = some ss ∧ ss.same rs = true

/-- A privilege is in force itself for an effect under given restrictions. -/
def Holds (m : DecisionMap) (e : Effect) (rs : RestrictionSet) (k : String) : Prop :=
  ∃ ss, m.inForce? e k = some ss ∧ ss.same rs = true

/-- A privilege is in force from which immediate children lead to a given one. -/
def HeldAbove (f : DecisionMap) (r : Registry) (top : Privilege) (e : Effect)
    (rs : RestrictionSet) (p : Privilege) : Prop :=
  ∃ k, r.Foldable top k ∧ Relation.ReflTransGen r.Immediate k.id p.id ∧ f.Holds e rs k.id

/-- What is known of the fold `f` of decisions `m` on leaves, by the depths of `top`. -/
structure FoldedFrom (r : Registry) (top : Privilege) (m f : DecisionMap) : Prop where
  /-- It says of privileges what was said of their leaves. -/
  represents : Represents r m f
  /-- It has come to its end. -/
  settled : f.Settled (r.foldSteps top.depths)
  /-- It holds leaves and aggregates that the index has. -/
  foldable : ∀ p ∈ f.privileges, r.Foldable top p

theorem foldedFrom_consolidate (htop : top ∈ r.privileges)
    (hkeys : ∀ p ∈ m.privileges, p ∈ r.privileges ∧ p.isAggregate = false) :
    FoldedFrom r top m (m.consolidate top.depths r) where
  represents := represents_consolidate _ hkeys
  settled := settled_consolidate m _ r
  foldable := by
    refine consolidate_induction (P := fun f => ∀ p ∈ f.privileges, r.Foldable top p)
      (fun step hstep n f hn hf p hp => ?_) fun p hp => ⟨(hkeys p hp).1, .inl (hkeys p hp).2⟩
    rcases mem_privileges_of_fold? hf hp with rfl | hp
    · obtain ⟨⟨hagg, _⟩, hdepth, _⟩ := Registry.mem_foldSteps_iff.1 hstep
      exact ⟨hagg, .inr ((Registry.id_mem_depths_iff htop hagg).1 hdepth)⟩
    · exact hn p hp

namespace FoldedFrom

theorem exists_of_inForce (hf : FoldedFrom r top m f) {k : String} {ss : RestrictionSet}
    (h : f.inForce? e k = some ss) : ∃ p, r.Foldable top p ∧ p.id = k := by
  obtain ⟨a, ha, rfl, _⟩ := inForce?_eq_some_iff.1 h
  exact ⟨a.privilege, hf.foldable _ (List.mem_map_of_mem ha), rfl⟩

/-- What is in force itself has its leaves in force. -/
theorem uniform (hf : FoldedFrom r top m f) (hp : p ∈ r.privileges) (h : f.Holds e rs p.id) :
    m.Uniform e rs p := by
  intro l hl
  obtain ⟨ss, hss, hsame⟩ := h
  obtain ⟨ts, hts, hsame'⟩ := (hf.represents e).sound p.id l ss hss
    ((Registry.covers_eq hp l).trans hl)
  exact ⟨ts, hts, RestrictionSet.same_trans (RestrictionSet.same_symm hsame') hsame⟩

/-- A leaf in force is told of by a privilege that covers it. -/
theorem heldAbove_leaf (hf : FoldedFrom r top m f) (hp : p ∈ r.privileges)
    (ha : p.isAggregate = false) (h : m.Uniform e rs p) : f.HeldAbove r top e rs p := by
  have hself : p.covers p.id = true := by
    rw [Registry.eq_atomic hp ha]
    exact Privilege.covers_atomic p.id
  obtain ⟨ss, hss, hsame⟩ := h p.id hself
  obtain ⟨k, ts, hk, hkl, hsame'⟩ := (hf.represents e).complete p.id ss hss
  obtain ⟨q, hq, rfl⟩ := hf.exists_of_inForce hk
  rw [Registry.covers_eq hq.1] at hkl
  exact ⟨q, hq, Registry.immediate_of_covers hq.1 hkl,
    ts, hk, RestrictionSet.same_trans hsame' hsame⟩

/-- The children of an aggregate are not all in force alike, or they would fold. -/
theorem not_holds_children (hr : r.Accepted) (htop : top ∈ r.privileges)
    (hf : FoldedFrom r top m f) (hp : r.Foldable top p) (ha : p.isAggregate = true)
    (e : Effect) (rs : RestrictionSet) : ¬ ∀ c ∈ r.immediateChildren p.id, f.Holds e rs c := by
  intro hchildren
  obtain ⟨l, hl⟩ := hr.exists_covers hp.1
  obtain ⟨c, hc, _⟩ := (Registry.covers_iff_immediateChildren hp.1 ha).1
    ((Registry.covers_eq hp.1 l).trans hl)
  have hdepth := (Registry.id_mem_depths_iff htop hp.1).2 (hp.reaches ha)
  have hstep : ⟨p, r.immediateChildren p.id, e⟩ ∈ r.foldSteps top.depths :=
    Registry.mem_foldSteps_iff.2 ⟨⟨hp.1, ha⟩, hdepth, rfl⟩
  have hfolds : ∃ g, f.fold? ⟨p, r.immediateChildren p.id, e⟩ = some g :=
    exists_fold? (List.ne_nil_of_mem hc) hchildren
  rw [hf.settled _ hstep] at hfolds
  exact nomatch hfolds

/-- What has its leaves in force alike is held above, unless a rival is: another aggregate
    that has its leaves in force alike, with a child in common. -/
theorem heldAbove_or (hr : r.Accepted) (htop : top ∈ r.privileges)
    (hf : FoldedFrom r top m f) {Rival : Prop}
    (hrival : ∀ p q c, r.Foldable top p → r.Foldable top q → p ≠ q →
      c ∈ r.immediateChildren p.id → c ∈ r.immediateChildren q.id →
      m.Uniform e rs p → m.Uniform e rs q → f.HeldAbove r top e rs q → Rival)
    (hp : r.Foldable top p) (h : m.Uniform e rs p) : f.HeldAbove r top e rs p ∨ Rival := by
  induction hb : p.bundle using Bundle.descent generalizing p with
  | step b ih =>
    subst hb
    cases ha : p.isAggregate with
    | false => exact .inl (hf.heldAbove_leaf hp.1 ha h)
    | true =>
      by_contra hnot
      rw [not_or] at hnot
      -- Otherwise all children are in force themselves.
      refine hf.not_holds_children hr htop hp ha e rs fun c hc => ?_
      obtain ⟨q, hq, rfl, hpq⟩ := Registry.exists_of_mem_immediateChildren hp.1 hc
      have huniform : m.Uniform e rs q := fun l hl =>
        h l (Registry.covers_of_reaches hp.1 (.single hpq) hl)
      obtain ⟨k, hk, hkq, hheld⟩ :=
        (ih q.bundle hpq (hp.of_reaches hq (.single hpq)) huniform rfl).resolve_right hnot.2
      rcases hkq.cases_tail with hid | ⟨a, hka, hac⟩
      · exact hid ▸ hheld
      · -- What is in force is above an aggregate that has the child: this one or a rival.
        obtain ⟨b, hb, rfl, hkb⟩ := Registry.exists_of_immediate hk.1 hka
        have habove : f.HeldAbove r top e rs b := ⟨k, hk, hka, hheld⟩
        have hbelow : m.Uniform e rs b := fun l hl =>
          hf.uniform hk.1 hheld l (Registry.covers_of_reaches hk.1 hkb hl)
        by_cases hpb : p = b
        · exact absurd (hpb ▸ habove) hnot.1
        · exact absurd
            (hrival p b q.id hp (hk.of_reaches hb hkb) hpb hc hac h hbelow habove) hnot.2

end FoldedFrom

/-! ## Main results -/

/-- Where no two aggregates have an immediate child in common, a privilege is in force in
    the fold of decisions on leaves if all its leaves are in force alike, and this is not
    true of the aggregate it is a child of. The fold has no other aggregates than those
    that are reached. -/
theorem consolidate_canonical (hr : r.Accepted)
    (hparents : ∀ p ∈ r.privileges, ∀ q ∈ r.privileges, ∀ c ∈ r.immediateChildren p.id,
      c ∈ r.immediateChildren q.id → p.id = q.id)
    (htop : top ∈ r.privileges)
    (hkeys : ∀ p ∈ m.privileges, p ∈ r.privileges ∧ p.isAggregate = false) (e : Effect) :
    (∀ p ∈ r.privileges, p.isAggregate = false ∨ top.Reaches p → ∀ rs,
      (m.consolidate top.depths r).Holds e rs p.id ↔ m.Uniform e rs p ∧
        ∀ q ∈ r.privileges, top.Reaches q → p.id ∈ r.immediateChildren q.id →
          ¬ m.Uniform e rs q) ∧
    ∀ p ∈ (m.consolidate top.depths r).privileges, p.isAggregate = true →
      p ∈ r.privileges ∧ top.Reaches p := by
  have hf := foldedFrom_consolidate htop hkeys
  have hheld {p : Privilege} {rs : RestrictionSet} (hp : r.Foldable top p)
      (h : m.Uniform e rs p) : HeldAbove _ r top e rs p :=
    (hf.heldAbove_or hr htop (fun p q c hp hq hpq hc hc' _ _ _ =>
      hpq (Registry.eq_of_id_eq hp.1 hq.1 (hparents p hp.1 q hq.1 c hc hc'))) hp h).resolve_right
      not_false
  refine ⟨fun p hp hin rs => ⟨fun h => ⟨hf.uniform hp h, fun q hq hreach hpq hu => ?_⟩, ?_⟩, ?_⟩
  · -- What is above the parent would have a leaf in common with the child.
    obtain ⟨k, hk, hkq, ts, hts, _⟩ := hheld ⟨hq, .inr hreach⟩ hu
    obtain ⟨ss, hss, _⟩ := h
    obtain ⟨q', hq', hid, hkq'⟩ := Registry.exists_of_immediate hk.1 hkq
    obtain ⟨p', hp', hid', hqp⟩ := Registry.exists_of_mem_immediateChildren hq hpq
    obtain rfl := Registry.eq_of_id_eq hq' hq hid
    obtain rfl := Registry.eq_of_id_eq hp' hp hid'
    obtain ⟨l, hl⟩ := hr.exists_covers hp
    have hkl := Registry.covers_of_reaches hk.1 (hkq'.tail hqp) hl
    have hkp := (hf.represents e).unique k.id p'.id l (Option.isSome_of_eq_some hts)
      (Option.isSome_of_eq_some hss) ((Registry.covers_eq hk.1 l).trans hkl)
      ((Registry.covers_eq hp l).trans hl)
    exact Registry.id_ne_of_above hk.1 (.tail' hkq' hqp) hkp.symm
  · rintro ⟨hu, hnone⟩
    obtain ⟨k, hk, hkp, h⟩ := hheld ⟨hp, hin⟩ hu
    rcases hkp.cases_tail with hid | ⟨a, hka, hap⟩
    · exact hid ▸ h
    · -- If it is held further up, all leaves of a parent are in force alike.
      obtain ⟨q, hq, rfl, hkq⟩ := Registry.exists_of_immediate hk.1 hka
      have hreach := (hk.of_reaches hq hkq).reaches_of_immediate hap
      exact absurd (fun l hl => hf.uniform hk.1 h l (Registry.covers_of_reaches hk.1 hkq hl))
        (hnone q hq hreach hap)
  · exact fun p hp ha => ⟨(hf.foldable p hp).1, (hf.foldable p hp).reaches ha⟩

/-! ## Reading, by the standard privileges -/

section

open PrivilegeName

/-- In the standard registry reading is an aggregate of two leaves, and no two aggregates
    have an immediate child in common. -/
theorem standard_reading :
    (∃ p ∈ Registry.standard.privileges, p.id = read ∧ p.isAggregate = true ∧
      p.leaves? = some [readNodes, readProperties]) ∧
    read ∈ Registry.standard.root.depths ∧
    (∀ q ∈ Registry.standard.privileges, read ∈ Registry.standard.immediateChildren q.id →
      q.covers lockManagement = true) ∧
    ∀ p ∈ Registry.standard.privileges, ∀ q ∈ Registry.standard.privileges,
      ∀ c ∈ Registry.standard.immediateChildren p.id,
        c ∈ Registry.standard.immediateChildren q.id → p.id = q.id := by
  decide +kernel

/-- What those who may read are allowed. -/
def reading : DecisionMap :=
  (∅ : DecisionMap).performOnLeaves (.set .allow ∅) [readNodes, readProperties]

/-- Those who may read both nodes and properties may read, while all else that bundles
    reading also bundles what they may not do. -/
theorem consolidate_canonical_reading :
    (Registry.standard.Accepted ∧
      (∀ p ∈ Registry.standard.privileges, ∀ q ∈ Registry.standard.privileges,
        ∀ c ∈ Registry.standard.immediateChildren p.id,
          c ∈ Registry.standard.immediateChildren q.id → p.id = q.id) ∧
      Registry.standard.root ∈ Registry.standard.privileges ∧
      ∀ p ∈ reading.privileges, p ∈ Registry.standard.privileges ∧ p.isAggregate = false) ∧
    (reading.consolidate Registry.standard.root.depths .standard).Holds .allow ∅ read := by
  obtain ⟨⟨p, hp, hid, ha, hleaves⟩, hdepth, habove, hparents⟩ := standard_reading
  have hcovers {l : String} : p.covers l = true ↔ l ∈ [readNodes, readProperties] := by
    simp [Privilege.covers, hleaves]
  have hkeys : ∀ q ∈ reading.privileges,
      q ∈ Registry.standard.privileges ∧ q.isAggregate = false := by
    intro q hq
    obtain ⟨l, hl, rfl⟩ : ∃ l ∈ [readNodes, readProperties], .atomic l = q := List.mem_map.1 hq
    exact ⟨Registry.atomic_mem_of_covers hp (hcovers.2 hl), rfl⟩
  have haccepted : Registry.standard.Accepted :=
    Registry.accepted_of_get rfl Registry.standard?_isOk
  have hroot := Registry.standard.root_mem
  have hreach := (Registry.id_mem_depths_iff hroot hp).1 (hid ▸ hdepth)
  refine ⟨⟨haccepted, hparents, hroot, hkeys⟩, hid ▸ ?_⟩
  refine ((consolidate_canonical haccepted hparents hroot hkeys .allow).1 p hp
    (.inr hreach) ∅).2 ⟨fun l hl => ?_, fun q hq _ hpq hu => ?_⟩
  · rcases List.mem_pair.1 (hcovers.1 hl) with rfl | rfl
    · exact ⟨_, rfl, RestrictionSet.merge_empty_same ∅⟩
    · exact ⟨_, rfl, RestrictionSet.merge_empty_same ∅⟩
  · obtain ⟨_, h, _⟩ := hu _ (habove q hq (hid ▸ hpq))
    cases h

end

end DecisionMap

end AccessControl
