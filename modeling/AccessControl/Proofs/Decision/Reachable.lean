import AccessControl.Proofs.Decision.Leafwise
import AccessControl.Restriction.Provider

/-!
# Reachable decision maps

The decision maps that operations on privileges of a registry lead to, starting
from the empty map (`DecisionMap.Reachable`), and what is true of all of them:
their decisions are sound, and are about atomic privileges of the registry
(`DecisionMap.IsLeafMap`).

* `IsLeafMap.perform`: one operation keeps the invariant;
* `Reachable.isLeafMap`: so every reachable map satisfies it;
* `Reachable.set`, `Reachable.attempt`: operations whose arguments are still to be
  checked lead to reachable maps as well.
-/

namespace AccessControl

namespace DecisionMap

variable {m n : DecisionMap} {r : Registry} {targets : List Privilege}

/-- The invariant of the maps that operations work on. -/
structure IsLeafMap (r : Registry) (m : DecisionMap) : Prop where
  /-- The decisions are about atomic privileges of the registry. -/
  atomic : ∀ p ∈ m.privileges, p ∈ r.privileges ∧ p.isAggregate = false
  /-- The decisions are sound. -/
  sound : ∀ a ∈ m.rulings, a.decision.Sound

theorem forall_mem_rulings_iff {P : Decision → Prop} :
    (∀ a ∈ m.rulings, P a.decision) ↔ ∀ k, ∀ d ∈ m.get? k, P d := by
  constructor
  · intro h k d hd
    obtain ⟨a, ha, _, rfl⟩ := get?_eq_some_iff.1 hd
    exact h a ha
  · exact fun h a ha => h a.id _ (get?_of_mem ha)

theorem isLeafMap_empty (r : Registry) : IsLeafMap r ∅ where
  atomic _ hp := absurd hp List.not_mem_nil
  sound _ ha := absurd ha List.not_mem_nil

/-- An operation keeps decisions sound. -/
theorem sound_perform {op : Operation} (hm : ∀ a ∈ m.rulings, a.decision.Sound)
    (ht : ∀ p ∈ targets, p ∈ r.privileges) (h : m.perform op targets = .ok n) :
    ∀ a ∈ n.rulings, a.decision.Sound := by
  have hsound := forall_mem_rulings_iff.1 hm
  refine forall_mem_rulings_iff.2 fun k => ?_
  rw [get?_perform ht h]
  split
  · exact op.sound_act (hsound k)
  · exact hsound k

/-- An operation writes atomic privileges only, and keeps decisions sound. -/
theorem IsLeafMap.perform (hm : m.IsLeafMap r) {op : Operation}
    (ht : ∀ p ∈ targets, p ∈ r.privileges) (h : m.perform op targets = .ok n) : n.IsLeafMap r where
  atomic p hp := by
    rcases mem_privileges_perform ht h hp with ⟨l, hl, rfl⟩ | hp
    · exact ⟨hl, rfl⟩
    · exact hm.atomic p hp
  sound := sound_perform hm.sound ht h

theorem IsLeafMap.mapDecisions (hm : m.IsLeafMap r) {f : Decision → Decision}
    (hf : ∀ d : Decision, d.Sound → (f d).Sound) : (m.mapDecisions f).IsLeafMap r where
  atomic p hp := hm.atomic p (by rwa [privileges_mapDecisions] at hp)
  sound := by
    refine forall_mem_rulings_iff.2 fun k d hd => ?_
    rw [get?_mapDecisions] at hd
    obtain ⟨d₀, hd₀, rfl⟩ := Option.map_eq_some_iff.1 hd
    exact hf d₀ (forall_mem_rulings_iff.1 hm.sound k d₀ hd₀)

/-- Sides that are both in force for a leaf are so under different restrictions. -/
theorem IsLeafMap.restrictions_differ (hm : m.IsLeafMap r) {k : String} {rs ss : RestrictionSet}
    (hrs : m.inForce? .allow k = some rs) (hss : m.inForce? .deny k = some ss) :
    rs.same ss = false := by
  obtain ⟨a, ha, rfl, hallow, rfl⟩ := inForce?_eq_some_iff.1 hrs
  obtain ⟨b, hb, hid, hdeny, rfl⟩ := inForce?_eq_some_iff.1 hss
  obtain rfl := ruling_eq hb ha hid
  have hcon := (hm.sound b hb).consistent
  rw [Decision.isContradictory, show b.decision.allow.active = true from hallow,
    show b.decision.deny.active = true from hdeny] at hcon
  exact hcon

/-! ## Runs -/

/-- The maps that operations on privileges of a registry lead to. -/
inductive Reachable (r : Registry) : DecisionMap → Prop
  | empty : Reachable r ∅
  | perform {m n : DecisionMap} (op : Operation) {targets : List Privilege} :
      Reachable r m → (∀ p ∈ targets, p ∈ r.privileges) → m.perform op targets = .ok n →
      Reachable r n

theorem Reachable.isLeafMap (h : m.Reachable r) : m.IsLeafMap r := by
  induction h with
  | empty => exact isLeafMap_empty r
  | perform op _ ht hn ih => exact ih.perform ht hn

theorem Reachable.set (h : m.Reachable r) (ht : ∀ p ∈ targets, p ∈ r.privileges) {e : Effect}
    {drafts : List RestrictionDraft} (hn : m.set e drafts targets = .ok n) : n.Reachable r := by
  rw [DecisionMap.set] at hn
  cases hrs : RestrictionSet.ofDrafts drafts with
  | error e => rw [hrs] at hn; cases hn
  | ok rs => rw [hrs] at hn; exact h.perform _ ht hn

theorem Reachable.attempt (h : m.Reachable r) (ht : ∀ p ∈ targets, p ∈ r.privileges)
    {op : Except Error Operation} {concerns : Decision → Bool}
    (hn : m.attempt op concerns targets = .ok n) : n.Reachable r := by
  cases op with
  | ok op =>
    obtain ⟨ls, hls, _⟩ := Registry.expand_eq ht
    rw [DecisionMap.attempt, hls] at hn
    exact h.perform op ht (by rw [DecisionMap.perform, hls]; exact hn)
  | error e => exact eq_of_attempt_error hn ▸ h

theorem Reachable.restrict (h : m.Reachable r) (ht : ∀ p ∈ targets, p ∈ r.privileges)
    {draft : RestrictionDraft} (hn : m.restrict draft targets = .ok n) : n.Reachable r :=
  h.attempt ht hn

theorem Reachable.unrestrict (h : m.Reachable r) (ht : ∀ p ∈ targets, p ∈ r.privileges) {e : Effect}
    {names : Datum} (hn : m.unrestrict e names targets = .ok n) : n.Reachable r :=
  h.attempt ht hn

theorem Reachable.unrestrictBoth (h : m.Reachable r) (ht : ∀ p ∈ targets, p ∈ r.privileges)
    {names : Datum} (hn : m.unrestrictBoth names targets = .ok n) : n.Reachable r :=
  h.attempt ht hn

/-- Everything in a diamond is allowed, and what one of its aggregates covers is
    denied under a restriction as well. -/
def guarded : DecisionMap :=
  let allowed := (∅ : DecisionMap).performOnLeaves (.set .allow ∅)
    ["doc:read", "doc:share", "doc:write"]
  let anywhere : Restriction := ⟨some RestrictionName.glob, .bool false, [.text "*"]⟩
  allowed.performOnLeaves (.set .deny (.single anywhere)) ["doc:read", "doc:share"]

theorem reachable_guarded : guarded.Reachable .diamond := by
  have hview : (Registry.diamond.get? "doc:view").isSome := by decide +kernel
  have hroot : ∀ p ∈ [Registry.diamond.root], p ∈ Registry.diamond.privileges :=
    List.forall_mem_singleton.2 Registry.diamond.root_mem
  have hmem : ∀ p ∈ [(Registry.diamond.get? "doc:view").get hview],
      p ∈ Registry.diamond.privileges :=
    List.forall_mem_singleton.2 (Catalogue.mem_of_get? (Option.some_get hview).symm)
  exact (Reachable.empty.perform _ hroot rfl).perform _ hmem rfl

end DecisionMap

end AccessControl
