import AccessControl.Proofs.Agreement
import AccessControl.Proofs.Privilege.Depth
import AccessControl.Proofs.Sorting

/-!
# Registries with the same privileges

Registries are alike if they have privileges of the same names, made of privileges of
the same names, below roots of the same name. In which order a registry lists its
privileges, and an aggregate its children, makes no difference to what is asked of
them: whatever a path from parent to child leads to in the one registry, a path with
the same names leads to in the other one.

* `Registry.Matches`: the same privilege in registries that are alike;
* `Registry.Alike.covers_eq`: privileges have the same leaves;
* `Registry.Alike.depths_eq`: the depths are the same;
* `Registry.Alike.mem_immediateChildren_iff`, `Registry.Alike.map_id_aggregatesByDepth`:
  what is folded, and in which order.
-/

namespace AccessControl

/-- Privileges of the same name that are made of privileges of the same names. -/
structure Privilege.Resembles (p q : Privilege) : Prop where
  id : p.id = q.id
  isAggregate : p.isAggregate = q.isAggregate
  children : SameMembers p.children q.children

/-- Catalogues with privileges that resemble each other. -/
abbrev Catalogue.Alike (c c' : Catalogue) : Prop :=
  Corresponds Privilege.Resembles c.privileges c'.privileges

namespace Privilege.Resembles

variable {p q : Privilege}

theorem refl (p : Privilege) : p.Resembles p := ⟨rfl, rfl, fun _ => Iff.rfl⟩

theorem symm (h : p.Resembles q) : q.Resembles p :=
  ⟨h.id.symm, h.isAggregate.symm, h.children.symm⟩

end Privilege.Resembles

/-- Privileges of the same name resemble each other. -/
theorem Catalogue.Alike.resembles {c c' : Catalogue} (h : c.Alike c') {p q : Privilege}
    (hp : p ∈ c.privileges) (hq : q ∈ c'.privileges) (hid : p.id = q.id) : p.Resembles q := by
  obtain ⟨q', hq', hpq⟩ := h.forth p hp
  rwa [Catalogue.eq_of_nodup_map c'.nodup hq hq' (hid.symm.trans hpq.id)]

namespace Registry

/-- Registries that differ at most in the order of what they list. -/
structure Alike (r r' : Registry) : Prop where
  /-- They have the same privileges. -/
  catalogue : r.catalogue.Alike r'.catalogue
  /-- The same one of them is the root. -/
  root : r.root.id = r'.root.id

/-- The bundles of a name in two registries. -/
structure Matches (r r' : Registry) (a b : Bundle) : Prop where
  left : r.Holds a
  right : r'.Holds b
  id : a.id = b.id

variable {r r' : Registry} {a b c : Bundle} {p q : Privilege}

namespace Alike

theorem refl (r : Registry) : r.Alike r where
  catalogue := ⟨fun p hp => ⟨p, hp, .refl p⟩, fun p hp => ⟨p, hp, .refl p⟩⟩
  root := rfl

theorem symm (h : r.Alike r') : r'.Alike r where
  catalogue := by
    refine ⟨fun q hq => ?_, fun p hp => ?_⟩
    · obtain ⟨p, hp, hpq⟩ := h.catalogue.back q hq
      exact ⟨p, hp, hpq.symm⟩
    · obtain ⟨q, hq, hpq⟩ := h.catalogue.forth p hp
      exact ⟨q, hq, hpq.symm⟩
  root := h.root.symm

theorem resembles (h : r.Alike r') (hp : p ∈ r.privileges) (hq : q ∈ r'.privileges)
    (hid : p.id = q.id) : p.Resembles q :=
  h.catalogue.resembles hp hq hid

theorem exists_get? (h : r.Alike r') {k : String} (hp : r.get? k = some p) :
    ∃ q, r'.get? k = some q ∧ p.Resembles q := by
  obtain ⟨hmem, rfl⟩ := get?_eq_some_iff.1 hp
  obtain ⟨q, hq, hpq⟩ := h.catalogue.forth p hmem
  exact ⟨q, get?_eq_some_iff.2 ⟨hq, hpq.id.symm⟩, hpq⟩

/-! ## Ways down -/

/-- A child in the one registry is a child in the other one. -/
theorem exists_parent (h : r.Alike r') (hab : r.Matches r' a b) (hac : a.Parent c) :
    ∃ d, b.Parent d ∧ r.Matches r' c d := by
  obtain ⟨⟨p, hp, rfl⟩, ⟨q, hq, rfl⟩, hid⟩ := hab
  have hmem : c.id ∈ q.children :=
    ((h.resembles hp hq hid).children c.id).1 (List.mem_map_of_mem hac)
  obtain ⟨d, hqd, hd⟩ := List.mem_map.1 hmem
  exact ⟨d, hqd, Holds.parent ⟨p, hp, rfl⟩ hac, Holds.parent ⟨q, hq, rfl⟩ hqd, hd.symm⟩

theorem exists_above (h : r.Alike r') (hab : r.Matches r' a b) (hac : a.Above c) :
    ∃ d, b.Above d ∧ r.Matches r' c d := by
  induction hac with
  | single hac =>
    obtain ⟨d, hbd, hcd⟩ := h.exists_parent hab hac
    exact ⟨d, .single hbd, hcd⟩
  | tail _ hcx ih =>
    obtain ⟨d, hbd, hcd⟩ := ih
    obtain ⟨y, hdy, hxy⟩ := h.exists_parent hcd hcx
    exact ⟨y, hbd.tail hdy, hxy⟩

theorem exists_path (h : r.Alike r') (hab : r.Matches r' a b) {n : Nat} (hac : a.Path n c) :
    ∃ d, b.Path n d ∧ r.Matches r' c d := by
  induction hac with
  | refl => exact ⟨b, .refl, hab⟩
  | tail _ hcx ih =>
    obtain ⟨d, hbd, hcd⟩ := ih
    obtain ⟨y, hdy, hxy⟩ := h.exists_parent hcd hcx
    exact ⟨y, hbd.tail hdy, hxy⟩

/-! ## Leaves -/

/-- A leaf in the one registry is a leaf in the other one, as it is a leaf of a child. -/
theorem covers_of_matches (h : r.Alike r') (hab : r.Matches r' a b) {l : String}
    (hl : a.covers l = true) : b.covers l = true := by
  induction a using Bundle.descent generalizing b with
  | step a ih =>
    obtain ⟨⟨p, hp, rfl⟩, ⟨q, hq, rfl⟩, hid⟩ := hab
    have hagg := (h.resembles hp hq hid).isAggregate
    cases hpa : p.isAggregate with
    | false =>
      rw [hpa] at hagg
      have hpq : p = q := (eq_atomic hp hpa).trans ((congrArg _ hid).trans
        (eq_atomic hq hagg.symm).symm)
      rwa [← hpq]
    | true =>
      rw [hpa] at hagg
      obtain ⟨c, hpc, hcl⟩ := (Bundle.covers_iff_of_children (leaves?_isSome hp) hpa).1 hl
      obtain ⟨d, hqd, hcd⟩ := h.exists_parent ⟨⟨p, hp, rfl⟩, ⟨q, hq, rfl⟩, hid⟩ hpc
      exact (Bundle.covers_iff_of_children (leaves?_isSome hq) hagg.symm).2
        ⟨d, hqd, ih c hpc hcd hcl⟩

/-- The privileges of a name have the same leaves. -/
theorem covers_eq (h : r.Alike r') (k l : String) : r.covers k l = r'.covers k l := by
  have himp {r r' : Registry} (h : r.Alike r') (hk : r.covers k l = true) :
      r'.covers k l = true := by
    rw [Registry.covers, Option.any_eq_true] at hk
    obtain ⟨p, hp, hl⟩ := hk
    obtain ⟨q, hq, hpq⟩ := h.exists_get? hp
    rw [Registry.covers, hq, Option.any_some, Privilege.covers_eq]
    rw [Privilege.covers_eq] at hl
    exact h.covers_of_matches ⟨⟨p, (get?_eq_some_iff.1 hp).1, rfl⟩,
      ⟨q, (get?_eq_some_iff.1 hq).1, rfl⟩, hpq.id⟩ hl
  exact Bool.eq_iff_iff.2 ⟨himp h, himp h.symm⟩

/-! ## Depths -/

theorem matches_root (h : r.Alike r') : r.Matches r' r.root.bundle r'.root.bundle :=
  ⟨⟨_, r.root_mem, rfl⟩, ⟨_, r'.root_mem, rfl⟩, h.root⟩

/-- As there are the same paths, the longest ones are as long. -/
theorem depths_eq (h : r.Alike r') : r.depths = r'.depths := by
  have hpath {r r' : Registry} (h : r.Alike r') (n : Nat) (k : String) :
      (∃ b, r.root.bundle.Path n b ∧ b.id = k) → ∃ b, r'.root.bundle.Path n b ∧ b.id = k := by
    rintro ⟨b, hb, rfl⟩
    obtain ⟨d, hd, hbd⟩ := h.exists_path h.matches_root hb
    exact ⟨d, hd, hbd.id.symm⟩
  have hsome {r r' : Registry} (h : r.Alike r') (k : String) (i : Int)
      (hi : r.depths[k]? = some i) : r'.depths[k]? = some i := by
    obtain ⟨n, hn, hb, hmax⟩ := (depths_eq_some_iff r.root_mem).1 hi
    refine (depths_eq_some_iff r'.root_mem).2 ⟨n, hn, hpath h n k hb, fun n' b hb hid => ?_⟩
    obtain ⟨b', hb', hid'⟩ := hpath h.symm n' k ⟨b, hb, hid⟩
    exact hmax n' b' hb' hid'
  refine Std.ExtTreeMap.ext_getElem? fun {k} => Option.ext fun i => ?_
  exact ⟨hsome h k i, hsome h.symm k i⟩

/-! ## Folding -/

/-- Whether a child is below another child is the same. -/
theorem mem_immediateChildren_iff (h : r.Alike r') (hp : p ∈ r.privileges)
    (hq : q ∈ r'.privileges) (hid : p.id = q.id) (k : String) :
    k ∈ r.immediateChildren p.id ↔ k ∈ r'.immediateChildren q.id := by
  have himp {r r' : Registry} (h : r.Alike r') {p q : Privilege} (hp : p ∈ r.privileges)
      (hq : q ∈ r'.privileges) (hid : p.id = q.id) (hk : k ∈ r.immediateChildren p.id) :
      k ∈ r'.immediateChildren q.id := by
    rw [mem_immediateChildren hp] at hk
    rw [mem_immediateChildren hq]
    refine ⟨((h.resembles hp hq hid).children k).1 hk.1, fun b hb d hd hdk => ?_⟩
    obtain ⟨a, ha, hba⟩ := h.symm.exists_parent ⟨⟨q, hq, rfl⟩, ⟨p, hp, rfl⟩, hid.symm⟩ hb
    obtain ⟨c, hc, hdc⟩ := h.symm.exists_above hba hd
    exact hk.2 a ha c hc (hdc.id.symm.trans hdk)
  exact ⟨himp h hp hq hid, himp h.symm hq hp hid.symm⟩

/-- If privileges that resemble each other meet a condition alike, those that meet it have
    the same names. -/
theorem perm_filter_ids (h : r.Alike r') {f : Privilege → Bool}
    (hf : ∀ p q : Privilege, p.Resembles q → f p = f q) :
    ((r.privileges.filter f).map Privilege.id).Perm
      ((r'.privileges.filter f).map Privilege.id) := by
  have hnodup (r : Registry) : ((r.privileges.filter f).map Privilege.id).Nodup :=
    r.catalogue.nodup.sublist (List.filter_sublist.map Privilege.id)
  have himp {r r' : Registry} (h : r.Alike r') (k : String)
      (hk : k ∈ (r.privileges.filter f).map Privilege.id) :
      k ∈ (r'.privileges.filter f).map Privilege.id := by
    obtain ⟨p, hp, rfl⟩ := List.mem_map.1 hk
    obtain ⟨hp, hfp⟩ := List.mem_filter.1 hp
    obtain ⟨q, hq, hpq⟩ := h.catalogue.forth p hp
    exact List.mem_map.2 ⟨q, List.mem_filter.2 ⟨hq, hf p q hpq ▸ hfp⟩, hpq.id.symm⟩
  exact (List.perm_ext_iff_of_nodup (hnodup r) (hnodup r')).2 fun k => ⟨himp h k, himp h.symm k⟩

theorem size_eq (h : r.Alike r') : r.size = r'.size := by
  have hperm := h.perm_filter_ids (f := fun _ => true) fun _ _ _ => rfl
  rw [List.filter_true, List.filter_true] at hperm
  rw [size, size, ← List.length_map (f := Privilege.id), hperm.length_eq, List.length_map]

/-- The aggregates are folded in the same order. -/
theorem map_id_aggregatesByDepth (h : r.Alike r') (d : DepthIndex) :
    (r.aggregatesByDepth d).map Privilege.id = (r'.aggregatesByDepth d).map Privilege.id := by
  let cmp : String → String → Ordering := compareLex (compareOn fun k => -d.rank k) (compareOn id)
  have hids (r : Registry) : (r.aggregatesByDepth d).map Privilege.id =
      ((r.privileges.filter fun p => d.contains p.id && p.isAggregate).map
        Privilege.id).mergeSort fun a b => (cmp a b).isLE := by
    rw [aggregatesByDepth, aggregates, List.filter_filter]
    exact List.map_mergeSort fun _ _ _ _ => rfl
  rw [hids, hids]
  refine mergeSort_eq_of_perm (fun _ _ _ => Std.TransCmp.isLE_trans) isLE_total
    (fun a b hab hba => ?_) (h.perm_filter_ids fun p q hpq => by rw [hpq.id, hpq.isAggregate])
  -- No two names are at the same place of the order.
  have heq := Std.OrientedCmp.isLE_antisymm hab hba
  rw [compareLex_eq_eq] at heq
  exact Std.LawfulEqOrd.eq_of_compare heq.2

end Alike

end Registry

end AccessControl
