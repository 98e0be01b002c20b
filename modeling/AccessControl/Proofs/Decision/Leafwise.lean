import AccessControl.Proofs.Decision.Soundness
import AccessControl.Proofs.Privilege.Graph
import AccessControl.Proofs.Success
import Mathlib.Logic.Function.Iterate

/-!
# Operations leaf by leaf

An operation does the same to the decision about every leaf of its targets, and
nothing to any other decision. Whatever the targets are, the result on a leaf is
found by looking at that leaf alone.

* `DecisionMap.get?_eq_some_iff`: what a map says of a name is what its ruling of
  that name says;
* `DecisionMap.get?_performOnLeaves`: an operation on leaves, seen from one name;
* `Registry.expand_eq`: privileges of a registry always resolve into their leaves;
* `DecisionMap.get?_perform`: an operation on privileges of a registry, seen from
  one name.
-/

namespace AccessControl

namespace Ruling

theorem decision?_eq_some_iff {rs : List Ruling} (h : (ids rs).Nodup) {k : String}
    {d : Decision} : decision? k rs = some d ↔ ∃ r ∈ rs, r.id = k ∧ r.decision = d := by
  induction rs with
  | nil => simp [decision?]
  | cons r rs ih =>
    rw [ids_cons, List.nodup_cons] at h
    rw [decision?]
    split
    next hk =>
      subst hk
      -- A later ruling of the name would repeat the name of the first.
      refine ⟨fun he => ⟨r, List.mem_cons_self, rfl, Option.some.inj he⟩, ?_⟩
      rintro ⟨s, hs, hid, rfl⟩
      rcases List.mem_cons.1 hs with rfl | hs
      · rfl
      · exact absurd (hid ▸ List.mem_map_of_mem hs) h.1
    next hk =>
      rw [ih h.2]
      constructor
      · rintro ⟨s, hs, hsd⟩
        exact ⟨s, List.mem_cons_of_mem _ hs, hsd⟩
      · rintro ⟨s, hs, hid, hd⟩
        rcases List.mem_cons.1 hs with rfl | hs
        · exact absurd hid hk
        · exact ⟨s, hs, hid, hd⟩

/-- A change enters a privilege only if it has something to say of a name that
    nothing was said of. -/
theorem mem_privileges_alter {p q : Privilege} {f : Option Decision → Option Decision}
    {rs : List Ruling} (h : q ∈ (alter p f rs).map privilege) :
    (q = p ∧ (f none).isSome) ∨ q ∈ rs.map privilege := by
  induction rs with
  | nil =>
    rw [alter] at h
    cases hf : f none <;> simp_all [remaining]
  | cons r rs ih =>
    rw [alter] at h
    split at h
    · rw [List.map_append, List.mem_append] at h
      rcases h with h | h
      · cases hf : f (some r.decision) <;> simp_all [remaining]
      · exact .inr (List.mem_cons_of_mem _ h)
    · rw [List.map_cons, List.mem_cons] at h ⊢
      rcases h with h | h
      · exact .inr (.inl h)
      · exact (ih h).imp_right .inr

end Ruling

namespace DecisionMap

variable {m n : DecisionMap} {op : Operation} {r : Registry}

/-! ## Views of a map -/

theorem get?_eq_some_iff {k : String} {d : Decision} :
    m.get? k = some d ↔ ∃ a ∈ m.rulings, a.id = k ∧ a.decision = d :=
  Ruling.decision?_eq_some_iff m.nodup_ids

theorem get?_of_mem {a : Ruling} (h : a ∈ m.rulings) : m.get? a.id = some a.decision :=
  get?_eq_some_iff.2 ⟨a, h, rfl, rfl⟩

/-- A map has one ruling for a name. -/
theorem ruling_eq {a b : Ruling} (ha : a ∈ m.rulings) (hb : b ∈ m.rulings) (h : a.id = b.id) :
    a = b :=
  Catalogue.eq_of_nodup_map m.nodup_ids ha hb h

theorem inForce?_eq (m : DecisionMap) (e : Effect) (k : String) :
    m.inForce? e k = (m.get? k).bind fun d => (d.side e).inForce? := rfl

theorem inForce?_eq_some_iff {e : Effect} {k : String} {rs : RestrictionSet} :
    m.inForce? e k = some rs ↔ ∃ a ∈ m.rulings, a.id = k ∧
      (a.decision.side e).active = true ∧ (a.decision.side e).restrictions = rs := by
  rw [inForce?_eq, Option.bind_eq_some_iff]
  constructor
  · rintro ⟨d, hd, h⟩
    obtain ⟨a, ha, rfl, rfl⟩ := get?_eq_some_iff.1 hd
    rw [Side.inForce?, Option.ite_none_right_eq_some, Option.some.injEq] at h
    exact ⟨a, ha, rfl, h⟩
  · rintro ⟨a, ha, rfl, h⟩
    refine ⟨a.decision, get?_of_mem ha, ?_⟩
    rw [Side.inForce?, if_pos h.1, h.2]

theorem isSome_inForce?_of_mem {a : Ruling} (h : a ∈ m.rulings) {e : Effect}
    (he : (a.decision.side e).active = true) : (m.inForce? e a.id).isSome := by
  rw [inForce?_eq_some_iff.2 ⟨a, h, rfl, he, rfl⟩, Option.isSome_some]

theorem get?_mapDecisions (f : Decision → Decision) (k : String) :
    (m.mapDecisions f).get? k = (m.get? k).map f := by
  have hmap (rs : List Ruling) :
      Ruling.decision? k (Ruling.mapDecisions f rs) = (Ruling.decision? k rs).map f := by
    induction rs with
    | nil => rfl
    | cons a rs ih =>
      rw [Ruling.mapDecisions, List.map_cons, ← Ruling.mapDecisions, Ruling.decision?, ih,
        Ruling.decision?, Ruling.id, Ruling.id]
      split <;> rfl
  exact hmap m.rulings

theorem privileges_mapDecisions (f : Decision → Decision) :
    (m.mapDecisions f).privileges = m.privileges := by
  simp [privileges, mapDecisions, Ruling.mapDecisions]

theorem mem_privileges_rule {p q : Privilege} {f : Decision → Decision}
    (h : q ∈ (m.rule p f).privileges) : q = p ∨ q ∈ m.privileges :=
  (Ruling.mem_privileges_alter h).imp_left And.left

/-! ## Operations on leaves -/

/-- Seen from one name, an operation on leaves happens as often as the name is
    among them. -/
theorem get?_performOnLeaves_iterate (m : DecisionMap) (op : Operation) (ls : List String)
    (k : String) : (m.performOnLeaves op ls).get? k = op.act^[ls.count k] (m.get? k) := by
  induction ls generalizing m with
  | nil => rfl
  | cons l ls ih =>
    rw [performOnLeaves, List.foldl_cons, ← performOnLeaves, ih, get?_change, List.count_cons]
    by_cases hl : l = k
    · rw [if_pos hl, if_pos (beq_iff_eq.2 hl)]
      rfl
    · rw [if_neg hl, if_neg (by simpa using hl), Nat.add_zero]

theorem get?_performOnLeaves (m : DecisionMap) (op : Operation) {ls : List String} (h : ls.Nodup)
    (k : String) :
    (m.performOnLeaves op ls).get? k = if k ∈ ls then op.act (m.get? k) else m.get? k := by
  rw [get?_performOnLeaves_iterate, h.count]
  split <;> rfl

theorem mem_privileges_performOnLeaves {q : Privilege} {ls : List String}
    (h : q ∈ (m.performOnLeaves op ls).privileges) :
    (∃ l ∈ ls, q = .atomic l ∧ (op.act none).isSome) ∨ q ∈ m.privileges := by
  induction ls generalizing m with
  | nil => exact .inr h
  | cons l ls ih =>
    rw [performOnLeaves, List.foldl_cons, ← performOnLeaves] at h
    rcases ih h with ⟨k, hk, hq⟩ | h
    · exact .inl ⟨k, List.mem_cons_of_mem _ hk, hq⟩
    · exact (Ruling.mem_privileges_alter h).imp_left fun h => ⟨l, List.mem_cons_self, h⟩

end DecisionMap

/-! ## Operations on privileges of a registry -/

/-- Privileges that can be resolved are resolved into the leaves they cover, each once. -/
theorem Privilege.exists_expand {ps : List Privilege} (h : ∀ p ∈ ps, p.leaves?.isSome = true) :
    ∃ ls, expand ps = .ok ls ∧ ls.Nodup ∧ ∀ l, l ∈ ls ↔ ∃ p ∈ ps, p.covers l = true := by
  obtain ⟨ls, hls⟩ := Option.isSome_iff_exists.1 (Catalogue.leavesOfAll?_isSome h)
  refine ⟨ls.eraseDups, expand_of_leavesOfAll? hls, Catalogue.nodup_eraseDups _, fun l => ?_⟩
  rw [leavesOfAll?_eq] at hls
  rw [List.mem_eraseDups, Bundle.mem_leavesOfAll? hls]
  simp [covers_eq]

/-- Privileges of a registry resolve into the leaves they cover, each once. -/
theorem Registry.expand_eq {r : Registry} {ps : List Privilege} (h : ∀ p ∈ ps, p ∈ r.privileges) :
    ∃ ls, Privilege.expand ps = .ok ls ∧ ls.Nodup ∧
      ∀ l, l ∈ ls ↔ ∃ p ∈ ps, p.covers l = true :=
  Privilege.exists_expand fun p hp => r.catalogue.grounded p (h p hp)

namespace DecisionMap

variable {m n : DecisionMap} {op : Operation} {r : Registry} {targets : List Privilege}

/-- An operation on privileges of a registry never fails. -/
theorem exists_perform (m : DecisionMap) (op : Operation) (ht : ∀ p ∈ targets, p ∈ r.privileges) :
    ∃ ls, (∀ l, l ∈ ls ↔ ∃ p ∈ targets, p.covers l = true) ∧ ls.Nodup ∧
      m.perform op targets = .ok (m.performOnLeaves op ls) := by
  obtain ⟨ls, hls, hnodup, hmem⟩ := Registry.expand_eq ht
  refine ⟨ls, hmem, hnodup, ?_⟩
  rw [perform, hls]
  rfl

/-- Seen from one name, an operation acts if a target covers the name. -/
theorem get?_perform (ht : ∀ p ∈ targets, p ∈ r.privileges) (h : m.perform op targets = .ok n)
    (k : String) :
    n.get? k = if targets.any (·.covers k) then op.act (m.get? k) else m.get? k := by
  obtain ⟨ls, hmem, hnodup, hp⟩ := exists_perform m op ht
  obtain rfl := Except.ok.inj (hp.symm.trans h)
  rw [get?_performOnLeaves m op hnodup]
  have : k ∈ ls ↔ targets.any (·.covers k) = true := by rw [hmem, List.any_eq_true]
  simp only [this]

/-- With an argument of no use, an operation that does not fail leaves a map as it is. -/
theorem eq_of_attempt_error {e : Error} {concerns : Decision → Bool}
    (h : m.attempt (.error e) concerns targets = .ok n) : n = m := by
  obtain ⟨ls, _, h⟩ := exists_of_bind_eq_ok h
  change (if _ then _ else _) = _ at h
  split at h
  · cases h
  · exact (Except.ok.inj h).symm

theorem mem_privileges_perform {q : Privilege} (ht : ∀ p ∈ targets, p ∈ r.privileges)
    (h : m.perform op targets = .ok n) (hq : q ∈ n.privileges) :
    (∃ l, .atomic l ∈ r.privileges ∧ q = .atomic l) ∨ q ∈ m.privileges := by
  obtain ⟨ls, hmem, _, hp⟩ := exists_perform m op ht
  obtain rfl := Except.ok.inj (hp.symm.trans h)
  refine (mem_privileges_performOnLeaves hq).imp_left ?_
  rintro ⟨l, hl, rfl, _⟩
  obtain ⟨p, hpt, hcov⟩ := (hmem l).1 hl
  exact ⟨l, Registry.atomic_mem_of_covers (ht p hpt) hcov, rfl⟩

end DecisionMap

end AccessControl
