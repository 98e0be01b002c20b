import AccessControl.Proofs.Correspondence
import AccessControl.Proofs.Decision.Idempotence

/-!
# The targets of an operation

An operation looks at one leaf of its targets at a time, and does the same to each of them,
whatever the targets are and whatever else a map says. So nothing counts of the targets but
which leaves they cover: not their order, nor how often they are given or cover a leaf, nor
whether they are given at once or one after the other.

* `Ruling.mem_alter_of_ne`, `DecisionMap.mem_performOnLeaves`: rulings of other names stay;
* `Operation.Called`: the operations, and what is called for them;
* `DecisionMap.perform_same`: targets that cover the same leaves lead to the same map;
* `DecisionMap.leafByLeaf`: what is called for an operation acts leaf by leaf, and commutes
  with what is called for another one elsewhere.
-/

namespace AccessControl

/-- A change of one name leaves the rulings of other names as they are. -/
theorem Ruling.mem_alter_of_ne {p : Privilege} {a : Ruling} (h : a.id ≠ p.id)
    (f : Option Decision → Option Decision) (rs : List Ruling) : a ∈ alter p f rs ↔ a ∈ rs := by
  have hleft {q : Privilege} (hq : q.id = p.id) (d : Option Decision) : a ∉ remaining q d := by
    cases d with
    | none => exact List.not_mem_nil
    | some d =>
      intro ha
      rw [List.mem_singleton.1 ha] at h
      exact h hq
  induction rs with
  | nil => exact iff_of_false (hleft rfl _) List.not_mem_nil
  | cons r rs ih =>
    rw [alter]
    split
    next hr =>
      have hne : a ≠ r := fun ha => h (ha ▸ hr)
      rw [List.mem_append, List.mem_cons, or_iff_right (hleft hr _)]
      exact (or_iff_right hne).symm
    · rw [List.mem_cons, List.mem_cons]
      exact or_congr_right ih

/-- The operations, and what is called to perform them on targets, with arguments that are
    of use. -/
inductive Operation.Called :
    Operation → (DecisionMap → List Privilege → Except Error DecisionMap) → Prop
  | perform (op : Operation) : Called op fun m targets => m.perform op targets
  | set (e : Effect) {drafts : List RestrictionDraft} {rs : RestrictionSet} :
      RestrictionSet.ofDrafts drafts = .ok rs →
      Called (.set e rs) fun m targets => m.set e drafts targets
  | restrict {draft : RestrictionDraft} {x : Restriction} : draft.settle = .ok x →
      Called (.restrict (.single x)) fun m targets => m.restrict draft targets
  | unrestrict (e : Effect) {names : Datum} {ns : List (Option String)} : names.names = .ok ns →
      Called (.unrestrict e ns) fun m targets => m.unrestrict e names targets
  | unrestrictBoth {names : Datum} {ns : List (Option String)} : names.names = .ok ns →
      Called (.unrestrictBoth ns) fun m targets => m.unrestrictBoth names targets

/-- Arguments that are of use are all that is asked for. -/
theorem Operation.Called.eq_perform {op : Operation}
    {f : DecisionMap → List Privilege → Except Error DecisionMap} (h : op.Called f) :
    f = fun m targets => m.perform op targets := by
  funext m targets
  cases h with
  | perform => rfl
  | set e h => simp only [DecisionMap.set, h]; rfl
  | restrict h => simp only [DecisionMap.restrict, h]; rfl
  | unrestrict e h => simp only [DecisionMap.unrestrict, h]; rfl
  | unrestrictBoth h => simp only [DecisionMap.unrestrictBoth, h]; rfl

namespace DecisionMap

variable {m n : DecisionMap} {op op' : Operation} {r : Registry} {ps qs targets : List Privilege}
  {f g : DecisionMap → List Privilege → Except Error DecisionMap}

/-! ## What stays -/

theorem mem_performOnLeaves {a : Ruling} {ls : List String} (h : a.id ∉ ls) :
    a ∈ (m.performOnLeaves op ls).rulings ↔ a ∈ m.rulings := by
  induction ls generalizing m with
  | nil => rfl
  | cons l ls ih =>
    rw [List.mem_cons, not_or] at h
    rw [performOnLeaves, List.foldl_cons, ← performOnLeaves, ih h.2]
    exact Ruling.mem_alter_of_ne h.1 op.act m.rulings

/-- The rulings of what no target covers stay as they are. -/
theorem mem_perform (ht : ∀ p ∈ targets, p ∈ r.privileges) (h : m.perform op targets = .ok n)
    {a : Ruling} (ha : targets.any (·.covers a.id) = false) : a ∈ n.rulings ↔ a ∈ m.rulings := by
  obtain ⟨ls, hmem, _, hperform⟩ := exists_perform m op ht
  obtain rfl := Except.ok.inj (hperform.symm.trans h)
  refine mem_performOnLeaves fun hls => ?_
  rw [List.any_eq_true.2 ((hmem a.id).1 hls)] at ha
  cases ha

/-! ## The same map -/

/-- Two ways to change a map both lead to a result, and to the same one. -/
def SameResult (x y : Except Error DecisionMap) : Prop :=
  ∃ m n, x = .ok m ∧ y = .ok n ∧ m.same n = true

/-- What an operation on privileges of a registry leads to, seen from one name. -/
theorem exists_perform_actIf (hp : ∀ p ∈ ps, p ∈ r.privileges) (op : Operation) (m : DecisionMap) :
    ∃ n, m.perform op ps = .ok n ∧
      ∀ k, n.get? k = op.actIf (ps.any (·.covers k)) (m.get? k) := by
  obtain ⟨_, _, _, hn⟩ := exists_perform m op hp
  exact ⟨_, hn, get?_perform hp hn⟩

/-- What one operation and then another one lead to, seen from one name. -/
theorem exists_perform_perform (hp : ∀ p ∈ ps, p ∈ r.privileges)
    (hq : ∀ p ∈ qs, p ∈ r.privileges) (op op' : Operation) (m : DecisionMap) :
    ∃ n, (m.perform op ps >>= fun l => l.perform op' qs) = .ok n ∧ ∀ k, n.get? k =
      op'.actIf (qs.any (·.covers k)) (op.actIf (ps.any (·.covers k)) (m.get? k)) := by
  obtain ⟨l, hl, hget⟩ := exists_perform_actIf hp op m
  obtain ⟨n, hn, hget'⟩ := exists_perform_actIf hq op' l
  refine ⟨n, ?_, fun k => by rw [hget', hget]⟩
  rw [hl]
  exact hn

/-- Targets that cover the same leaves lead to the same map. -/
theorem perform_same (hp : ∀ p ∈ ps, p ∈ r.privileges) (hq : ∀ p ∈ qs, p ∈ r.privileges)
    (hcov : ∀ k, ps.any (·.covers k) = qs.any (·.covers k)) (op : Operation) (m : DecisionMap) :
    SameResult (m.perform op ps) (m.perform op qs) := by
  obtain ⟨n, hn, hget⟩ := exists_perform_actIf hp op m
  obtain ⟨n', hn', hget'⟩ := exists_perform_actIf hq op m
  refine ⟨n, n', hn, hn', same_iff.2 fun k => ?_⟩
  rw [hget, hget', hcov]
  exact .refl _

/-- Privileges cover the same leaves at once and one after the other. -/
theorem perform_append_same (hp : ∀ p ∈ ps, p ∈ r.privileges) (hq : ∀ p ∈ qs, p ∈ r.privileges)
    (op : Operation) (m : DecisionMap) :
    SameResult (m.perform op (ps ++ qs)) (m.perform op ps >>= fun n => n.perform op qs) := by
  obtain ⟨n, hn, hget⟩ := exists_perform_actIf (List.forall_mem_append.2 ⟨hp, hq⟩) op m
  obtain ⟨n', hn', hget'⟩ := exists_perform_perform hp hq op op m
  refine ⟨n, n', hn, hn', same_iff.2 fun k => ?_⟩
  rw [hget, hget', List.any_append]
  exact op.actIf_or _ _ _

/-- Operations on targets without a common leaf can be performed in either order. -/
theorem perform_comm_same (hp : ∀ p ∈ ps, p ∈ r.privileges) (hq : ∀ p ∈ qs, p ∈ r.privileges)
    (hpq : ∀ p ∈ ps, ∀ q ∈ qs, ∀ leaf, p.covers leaf = true → q.covers leaf = false)
    (op op' : Operation) (m : DecisionMap) :
    SameResult (m.perform op ps >>= fun n => n.perform op' qs)
      (m.perform op' qs >>= fun n => n.perform op ps) := by
  obtain ⟨n, hn, hget⟩ := exists_perform_perform hp hq op op' m
  obtain ⟨n', hn', hget'⟩ := exists_perform_perform hq hp op' op m
  refine ⟨n, n', hn, hn', same_iff.2 fun k => ?_⟩
  have hapart : ps.any (·.covers k) = true → qs.any (·.covers k) = false := by
    simp only [List.any_eq_true, List.any_eq_false, Bool.not_eq_true]
    rintro ⟨p, hpk, hk⟩ q hqk
    exact hpq p hpk q hqk k hk
  rw [hget, hget', Operation.actIf_comm hapart]
  exact .refl _

/-! ## Main results -/

/-- What is called for an operation does one thing to each leaf of its targets. -/
structure LeafByLeaf (r : Registry) (act : Option Decision → Option Decision)
    (f : DecisionMap → List Privilege → Except Error DecisionMap) : Prop where
  /-- It leads to a result, in which what is said of the leaves of the targets is changed in
      one way, and all other rulings are those there were. -/
  acts : ∀ ps, (∀ p ∈ ps, p ∈ r.privileges) → ∀ m, ∃ n, f m ps = .ok n ∧
    (∀ leaf, (∃ p ∈ ps, p.covers leaf = true) → n.get? leaf = act (m.get? leaf)) ∧
      ∀ a : Ruling, (∀ p ∈ ps, p.covers a.id = false) → (a ∈ n.rulings ↔ a ∈ m.rulings)
  /-- The order of the targets makes no difference, nor does it how often they are given. -/
  members : ∀ ps qs, (∀ p ∈ ps, p ∈ r.privileges) → SameMembers ps qs →
    ∀ m, SameResult (f m ps) (f m qs)
  /-- The leaves can be given in place of the targets. -/
  leaves : ∀ ps, (∀ p ∈ ps, p ∈ r.privileges) → ∃ ls, Privilege.expand ps = .ok ls ∧
    ∀ m, SameResult (f m ps) (f m (ls.map Privilege.atomic))
  /-- The targets can be given in two parts, whatever these have in common. -/
  parts : ∀ ps qs, (∀ p ∈ ps, p ∈ r.privileges) → (∀ p ∈ qs, p ∈ r.privileges) →
    ∀ m, SameResult (f m (ps ++ qs)) (f m ps >>= fun n => f n qs)

/-- What is called on targets without a common leaf can be called in either order. -/
def CommuteApart (r : Registry) (f g : DecisionMap → List Privilege → Except Error DecisionMap) :
    Prop :=
  ∀ ps qs, (∀ p ∈ ps, p ∈ r.privileges) → (∀ p ∈ qs, p ∈ r.privileges) →
    (∀ p ∈ ps, ∀ q ∈ qs, ∀ leaf, p.covers leaf = true → q.covers leaf = false) →
      ∀ m, SameResult (f m ps >>= fun n => g n qs) (g m qs >>= fun n => f n ps)

theorem leafByLeaf_perform (r : Registry) (op : Operation) :
    LeafByLeaf r op.act fun m ps => m.perform op ps where
  acts ps hp m := by
    obtain ⟨n, hn, hget⟩ := exists_perform_actIf hp op m
    refine ⟨n, hn, fun leaf hleaf => ?_, fun a ha => mem_perform hp hn ?_⟩
    · rw [hget, List.any_eq_true.2 hleaf]
      rfl
    · simpa only [List.any_eq_false, Bool.not_eq_true] using ha
  members ps qs hp h m := by
    refine perform_same hp (fun q hq => hp q ((h q).2 hq)) (fun k => ?_) op m
    rw [Bool.eq_iff_iff, List.any_eq_true, List.any_eq_true]
    exact exists_congr fun p => and_congr_left' (h p)
  leaves ps hp := by
    obtain ⟨ls, hls, _, hmem⟩ := Registry.expand_eq hp
    have hatomic : ∀ q ∈ ls.map Privilege.atomic, q ∈ r.privileges := by
      intro q hq
      obtain ⟨l, hl, rfl⟩ := List.mem_map.1 hq
      obtain ⟨p, hpk, hcov⟩ := (hmem l).1 hl
      exact Registry.atomic_mem_of_covers (hp p hpk) hcov
    refine ⟨ls, hls, perform_same hp hatomic (fun k => ?_) op⟩
    rw [Bool.eq_iff_iff, List.any_eq_true, List.any_eq_true, ← hmem]
    simp only [List.mem_map, exists_exists_and_eq_and, Privilege.covers_iff_of_atomic,
      exists_eq_right']
  parts _ _ hp hq m := perform_append_same hp hq op m

/-- What is called for an operation acts leaf by leaf, and commutes with what is called for
    another one on targets that have no leaf in common with its own. -/
theorem leafByLeaf (r : Registry) (hf : op.Called f) :
    LeafByLeaf r op.act f ∧ ∀ op' g, Operation.Called op' g → CommuteApart r f g := by
  obtain rfl := hf.eq_perform
  refine ⟨leafByLeaf_perform r op, fun op' g hg ps qs hp hq hpq m => ?_⟩
  obtain rfl := hg.eq_perform
  exact perform_comm_same hp hq hpq op op' m

/-- Two aggregates of the diamond share a leaf, which is denied under a restriction. To
    remove the restriction from both is to remove it from one and then from the other. -/
theorem leafByLeaf_diamond :
    Operation.Called (.unrestrict .deny [some RestrictionName.glob])
        (fun m targets => m.unrestrict .deny (.list [.text RestrictionName.glob]) targets) ∧
      ∃ view edit, Registry.diamond.get? "doc:view" = some view ∧
        Registry.diamond.get? "doc:edit" = some edit ∧
        view.covers "doc:share" = true ∧ edit.covers "doc:share" = true ∧
        let unrestrict (m : DecisionMap) (targets : List Privilege) :=
          m.unrestrict .deny (.list [.text RestrictionName.glob]) targets
        SameResult (unrestrict guarded [view, edit])
          (unrestrict guarded [view] >>= fun n => unrestrict n [edit]) := by
  have hcalled : Operation.Called (.unrestrict .deny [some RestrictionName.glob]) fun m targets =>
      m.unrestrict .deny (.list [.text RestrictionName.glob]) targets := .unrestrict .deny rfl
  have hview : (Registry.diamond.get? "doc:view").any (·.covers "doc:share") = true := by
    decide +kernel
  have hedit : (Registry.diamond.get? "doc:edit").any (·.covers "doc:share") = true := by
    decide +kernel
  obtain ⟨hv, hview⟩ := (Option.any_eq_true_iff_get _ _).1 hview
  obtain ⟨he, hedit⟩ := (Option.any_eq_true_iff_get _ _).1 hedit
  have hv := (Option.some_get hv).symm
  have he := (Option.some_get he).symm
  refine ⟨hcalled, _, _, hv, he, hview, hedit, ?_⟩
  exact (leafByLeaf Registry.diamond hcalled).1.parts [_] [_]
    (List.forall_mem_singleton.2 (Catalogue.mem_of_get? hv))
    (List.forall_mem_singleton.2 (Catalogue.mem_of_get? he)) guarded

end DecisionMap

end AccessControl
