import AccessControl.Privilege.Registry
import Mathlib.Logic.Relation
import Mathlib.Tactic.Push

/-!
# The graph of privileges

The privileges of a registry form a graph, with an edge from every aggregate to
each of its children. As a bundle is written out with everything below it, the
graph has no cycles, and as a registry is complete downwards, all of it is in the
registry.

* `Bundle.covers_iff_of_children`: an aggregate covers what its children cover;
* `Bundle.mem_descendants`: the privileges below a bundle are those that a path
  leads to;
* `Registry.atomic_mem_of_covers`: what is covered is an atomic privilege of the
  registry;
* `Registry.mem_immediateChildren`: an immediate child is a child that no path
  leads to from another child;
* `Registry.covers_iff_immediateChildren`: immediate children cover as much as all
  children do.
-/

namespace AccessControl

namespace Bundle

/-! ## Paths -/

/-- `b` is a child of `a`. -/
def Parent (a b : Bundle) : Prop := b ∈ a.children

/-- `b` is strictly below `a`: a path of one or more edges leads from `a` to `b`. -/
abbrev Above (a b : Bundle) : Prop := Relation.TransGen Parent a b

theorem sizeOf_lt_of_parent {a b : Bundle} (h : a.Parent b) : sizeOf b < sizeOf a := by
  cases a with
  | atomic id => simp [Parent, children] at h
  | nominal id => simp [Parent, children] at h
  | aggregate id bs =>
    have : sizeOf b < sizeOf bs := List.sizeOf_lt_of_mem h
    rw [aggregate.sizeOf_spec]
    omega

theorem sizeOf_lt_of_above {a b : Bundle} (h : a.Above b) : sizeOf b < sizeOf a := by
  induction h with
  | single h => exact sizeOf_lt_of_parent h
  | tail _ h ih => exact Nat.lt_trans (sizeOf_lt_of_parent h) ih

/-- What passes from all children to their parent holds of every bundle. -/
theorem descent {P : Bundle → Prop} (step : ∀ a : Bundle, (∀ b, a.Parent b → P b) → P a)
    (a : Bundle) : P a :=
  step a fun b _ => descent step b
termination_by sizeOf a
decreasing_by exact sizeOf_lt_of_parent ‹_›

/-! ## Leaves -/

/-- Whether an atomic privilege is among the leaves of a bundle. -/
def covers (b : Bundle) (leaf : String) : Bool := b.leaves?.any (·.contains leaf)

theorem covers_iff {b : Bundle} {ls : List String} (h : b.leaves? = some ls) {leaf : String} :
    b.covers leaf = true ↔ leaf ∈ ls := by
  simp [covers, h]

theorem covers_iff_of_atomic {id leaf : String} :
    (atomic id).covers leaf = true ↔ leaf = id := by
  simp [covers, leaves?]

theorem leaves?_isSome_of_leavesOfAll? {bs : List Bundle} {ls : List String}
    (h : leavesOfAll? bs = some ls) : ∀ b ∈ bs, b.leaves?.isSome := by
  induction bs generalizing ls with
  | nil => simp
  | cons b bs ih =>
    rw [leavesOfAll?, Option.bind_eq_some_iff] at h
    obtain ⟨ms, hms, h⟩ := h
    obtain ⟨ns, hns, _⟩ := Option.map_eq_some_iff.1 h
    intro c hc
    rcases List.mem_cons.1 hc with rfl | hc
    · rw [hms, Option.isSome_some]
    · exact ih hns c hc

theorem mem_leavesOfAll? {bs : List Bundle} {ls : List String} (h : leavesOfAll? bs = some ls)
    (leaf : String) : leaf ∈ ls ↔ ∃ b ∈ bs, b.covers leaf = true := by
  induction bs generalizing ls with
  | nil =>
    rw [leavesOfAll?, Option.some.injEq] at h
    simp [← h]
  | cons b bs ih =>
    rw [leavesOfAll?, Option.bind_eq_some_iff] at h
    obtain ⟨ms, hms, h⟩ := h
    obtain ⟨ns, hns, rfl⟩ := Option.map_eq_some_iff.1 h
    rw [List.mem_append, ih hns, ← covers_iff hms]
    simp

/-- If a bundle can be resolved, so can its children. -/
theorem leaves?_isSome_of_parent {a b : Bundle} (ha : a.leaves?.isSome) (h : a.Parent b) :
    b.leaves?.isSome := by
  cases a with
  | atomic id => simp [Parent, children] at h
  | nominal id => simp [Parent, children] at h
  | aggregate id bs =>
    rw [leaves?, Option.isSome_map] at ha
    obtain ⟨ls, hls⟩ := Option.isSome_iff_exists.1 ha
    exact leaves?_isSome_of_leavesOfAll? hls b h

theorem leaves?_isSome_of_above {a b : Bundle} (ha : a.leaves?.isSome) (h : a.Above b) :
    b.leaves?.isSome := by
  induction h with
  | single h => exact leaves?_isSome_of_parent ha h
  | tail _ h ih => exact leaves?_isSome_of_parent ih h

/-- An aggregate covers what one of its children covers, and nothing else. -/
theorem covers_iff_of_children {a : Bundle} (ha : a.leaves?.isSome) (hagg : a.isAggregate = true)
    {leaf : String} : a.covers leaf = true ↔ ∃ b, a.Parent b ∧ b.covers leaf = true := by
  cases a with
  | atomic id => simp [isAggregate] at hagg
  | nominal id => simp [isAggregate] at hagg
  | aggregate id bs =>
    rw [leaves?, Option.isSome_map] at ha
    obtain ⟨ls, hls⟩ := Option.isSome_iff_exists.1 ha
    have hleaves : (aggregate id bs).leaves? = some ls.eraseDups := by
      rw [leaves?, hls, Option.map_some]
    rw [covers_iff hleaves, List.mem_eraseDups, mem_leavesOfAll? hls]
    rfl

theorem isAggregate_of_parent {a b : Bundle} (h : a.Parent b) : a.isAggregate = true := by
  cases a with
  | atomic id => simp [Parent, children] at h
  | nominal id => simp [Parent, children] at h
  | aggregate id bs => rfl

/-- What is covered further down is covered further up. -/
theorem covers_of_above {a b : Bundle} (ha : a.leaves?.isSome) (h : a.Above b) {leaf : String}
    (hb : b.covers leaf = true) : a.covers leaf = true := by
  induction h with
  | single h => exact (covers_iff_of_children ha (isAggregate_of_parent h)).2 ⟨_, h, hb⟩
  | tail hab h ih =>
    exact ih ((covers_iff_of_children (leaves?_isSome_of_above ha hab)
      (isAggregate_of_parent h)).2 ⟨_, h, hb⟩)

/-- A leaf of a bundle is the bundle itself or below it. -/
theorem eq_or_above_of_covers {a : Bundle} {leaf : String} (h : a.covers leaf = true) :
    a = atomic leaf ∨ a.Above (atomic leaf) := by
  induction a using descent with
  | step a ih =>
    cases a with
    | atomic id => exact .inl (by rw [covers_iff_of_atomic.1 h])
    | nominal id => simp [covers, leaves?] at h
    | aggregate id bs =>
      have ha : (aggregate id bs).leaves?.isSome := by
        cases hl : (aggregate id bs).leaves? with
        | none => simp [covers, hl] at h
        | some ls => rfl
      obtain ⟨b, hb, hcov⟩ := (covers_iff_of_children ha rfl).1 h
      rcases ih b hb hcov with rfl | hbelow
      · exact .inr (.single hb)
      · exact .inr (.head hb hbelow)

/-! ## Descendants -/

theorem mem_descendantsOfAll {bs : List Bundle} {id : String} :
    id ∈ descendantsOfAll bs ↔ ∃ b ∈ bs, b.id = id ∨ id ∈ b.descendants := by
  induction bs with
  | nil => simp [descendantsOfAll]
  | cons b bs ih =>
    rw [descendantsOfAll, Std.ExtTreeSet.mem_union_iff, Std.ExtTreeSet.mem_insert, ih,
      Std.LawfulEqOrd.compare_eq_iff_eq]
    simp

/-- The names below a bundle are those of the bundles that a path leads to. -/
theorem mem_descendants {a : Bundle} {id : String} :
    id ∈ a.descendants ↔ ∃ b, a.Above b ∧ b.id = id := by
  induction a using descent with
  | step a ih =>
    have hstep : id ∈ a.descendants ↔ ∃ b, a.Parent b ∧ (b.id = id ∨ id ∈ b.descendants) := by
      cases a with
      | atomic id => simp [descendants, Parent, children]
      | nominal id => simp [descendants, Parent, children]
      | aggregate id bs => rw [descendants, mem_descendantsOfAll]; rfl
    rw [hstep]
    constructor
    · rintro ⟨b, hb, rfl | hbelow⟩
      · exact ⟨b, .single hb, rfl⟩
      · obtain ⟨c, hc, rfl⟩ := (ih b hb).1 hbelow
        exact ⟨c, .head hb hc, rfl⟩
    · rintro ⟨c, hc, rfl⟩
      obtain ⟨b, hb, hbc⟩ := Relation.TransGen.head'_iff.1 hc
      rcases Relation.reflTransGen_iff_eq_or_transGen.1 hbc with rfl | hbc
      · exact ⟨c, hb, .inl rfl⟩
      · exact ⟨b, hb, .inr ((ih b hb).2 ⟨c, hbc, rfl⟩)⟩

end Bundle

/-! ## Privileges of a registry -/

namespace Privilege

/-- Whether an atomic privilege is among the leaves of a privilege. -/
def covers (p : Privilege) (leaf : String) : Bool := p.leaves?.any (·.contains leaf)

theorem covers_eq (p : Privilege) (leaf : String) : p.covers leaf = p.bundle.covers leaf := by
  rw [covers, Bundle.covers, p.leaves?_eq]

/-- A privilege is known by its bundle. -/
theorem eq_of_bundle_eq {p q : Privilege} (h : p.bundle = q.bundle) : p = q := by
  obtain ⟨a, ls, ds, hls, hds⟩ := p
  obtain ⟨b, ms, es, hms, hes⟩ := q
  subst hls hds hms hes
  cases h
  rfl

theorem covers_iff_of_atomic {id leaf : String} :
    (atomic id).covers leaf = true ↔ leaf = id := by
  rw [covers_eq]
  exact Bundle.covers_iff_of_atomic

/-- An atomic privilege is its own leaf. -/
theorem covers_atomic (id : String) : (atomic id).covers id = true := covers_iff_of_atomic.2 rfl

/-- The leaves of several privileges are those of one after the other, each once. -/
theorem expand_of_leavesOfAll? {ps : List Privilege} {ls : List String}
    (h : leavesOfAll? ps = some ls) : expand ps = .ok ls.eraseDups := by
  have hmap : ∃ lss, ps.mapM leaves = .ok lss ∧ lss.flatten = ls := by
    induction ps generalizing ls with
    | nil => exact ⟨[], rfl, Option.some.inj h⟩
    | cons p ps ih =>
      obtain ⟨ms, hms, h⟩ := Option.bind_eq_some_iff.1 h
      obtain ⟨ns, hns, rfl⟩ := Option.map_eq_some_iff.1 h
      obtain ⟨lss, hlss, rfl⟩ := ih hns
      refine ⟨ms :: lss, ?_, rfl⟩
      rw [List.mapM_cons, leaves, hms, hlss]
      rfl
  obtain ⟨lss, hlss, rfl⟩ := hmap
  rw [expand, hlss]
  rfl

end Privilege

namespace Registry

variable {r : Registry} {p q : Privilege}

theorem eq_of_id_eq (hp : p ∈ r.privileges) (hq : q ∈ r.privileges) (h : p.id = q.id) : p = q :=
  Catalogue.eq_of_nodup_map r.catalogue.nodup hp hq h

theorem get?_eq_some_iff {id : String} : r.get? id = some p ↔ p ∈ r.privileges ∧ p.id = id := by
  refine ⟨fun h => ⟨Catalogue.mem_of_get? h, Catalogue.id_of_get? h⟩, ?_⟩
  rintro ⟨hp, rfl⟩
  exact Catalogue.get?_eq_some_of_mem hp

/-- A name is that of a privilege of the registry, if it is known. -/
theorem privilege_eq_ok_iff {name : Scalar} :
    r.privilege name = .ok p ↔ p ∈ r.privileges ∧ name = .text p.id := by
  constructor
  · intro h
    rw [privilege.eq_def] at h
    split at h
    · split at h
      next s _ q hq =>
        cases h
        obtain ⟨hp, rfl⟩ := get?_eq_some_iff.1 hq
        exact ⟨hp, rfl⟩
      next => cases h
    · cases h
  · rintro ⟨hp, rfl⟩
    rw [privilege, get?_eq_some_iff.2 ⟨hp, rfl⟩]

theorem privilege_of_get? {name : String} (h : r.get? name = some p) :
    r.privilege (.text name) = .ok p := by
  rw [privilege, h]

/-- Only a name that is not that of a privilege is refused. -/
theorem privilege_eq_error_iff {name : String} {e : Error} :
    r.privilege (.text name) = .error e ↔
      r.contains name = false ∧ e = .unknownPrivilege (.text name) := by
  rw [privilege, contains]
  cases r.get? name with
  | none => simp [eq_comm]
  | some p => simp

theorem leaves?_isSome (hp : p ∈ r.privileges) : p.bundle.leaves?.isSome := by
  rw [← p.leaves?_eq]
  exact r.catalogue.grounded p hp

/-- Everything below a privilege is in the registry. -/
theorem exists_of_above (hp : p ∈ r.privileges) {b : Bundle} (h : p.bundle.Above b) :
    ∃ q ∈ r.privileges, q.bundle = b := by
  induction h with
  | single h => exact r.catalogue.closed p hp _ h
  | tail _ h ih =>
    obtain ⟨q, hq, rfl⟩ := ih
    exact r.catalogue.closed q hq _ h

/-- Nothing below a privilege has its name. -/
theorem id_ne_of_above (hp : p ∈ r.privileges) {b : Bundle} (h : p.bundle.Above b) :
    b.id ≠ p.id := by
  intro hid
  -- By name it would be the privilege itself, and a tree is not below itself.
  obtain ⟨q, hq, rfl⟩ := exists_of_above hp h
  have : q = p := eq_of_id_eq hq hp hid
  exact absurd (this ▸ Bundle.sizeOf_lt_of_above h) (Nat.lt_irrefl _)

/-- A privilege that is no aggregate is atomic. -/
theorem eq_atomic (hp : p ∈ r.privileges) (h : p.isAggregate = false) : p = .atomic p.id := by
  apply Privilege.eq_of_bundle_eq
  have hleaves := leaves?_isSome hp
  rw [Privilege.isAggregate] at h
  rw [Privilege.id, Privilege.atomic]
  cases hb : p.bundle with
  | atomic id => rfl
  | nominal id => simp [hb, Bundle.leaves?] at hleaves
  | aggregate id bs => simp [hb, Bundle.isAggregate] at h

/-- What a privilege covers is an atomic privilege of the registry. -/
theorem atomic_mem_of_covers (hp : p ∈ r.privileges) {leaf : String} (h : p.covers leaf = true) :
    .atomic leaf ∈ r.privileges := by
  rw [Privilege.covers_eq] at h
  rcases Bundle.eq_or_above_of_covers h with hb | hb
  · have : p = .atomic leaf := Privilege.eq_of_bundle_eq hb
    exact this ▸ hp
  · obtain ⟨q, hq, hqb⟩ := exists_of_above hp hb
    have : q = .atomic leaf := Privilege.eq_of_bundle_eq hqb
    exact this ▸ hq

/-- A leaf of the root is found by its name. -/
theorem get?_leaf {leaf : String} (h : r.root.covers leaf = true) :
    r.get? leaf = some (.atomic leaf) :=
  get?_eq_some_iff.2 ⟨atomic_mem_of_covers r.root_mem h, rfl⟩

/-- Whether an atomic privilege is among the leaves of the privilege of a name. -/
def covers (r : Registry) (id leaf : String) : Bool := (r.get? id).any (·.covers leaf)

theorem covers_eq (hp : p ∈ r.privileges) (leaf : String) :
    r.covers p.id leaf = p.covers leaf := by
  rw [covers, get?_eq_some_iff.2 ⟨hp, rfl⟩, Option.any_some]

theorem covers_eq_any (r : Registry) (id leaf : String) :
    r.covers id leaf = ((r.get? id).bind (·.leaves?)).any (·.contains leaf) := by
  rw [covers]
  cases r.get? id <;> rfl

/-! ## Immediate children -/

theorem mem_reached {names : List String} {id : String} :
    id ∈ r.reached names ↔ ∃ name ∈ names, ∃ p, r.get? name = some p ∧ id ∈ p.descendants := by
  -- The fold starts from any set: only then does the induction go through.
  have hfold (s : Std.ExtTreeSet String) : id ∈ names.foldl
        (fun s name => ((r.get? name).map Privilege.descendants).getD ∅ ∪ s) s ↔
      (∃ name ∈ names, ∃ p, r.get? name = some p ∧ id ∈ p.descendants) ∨ id ∈ s := by
    induction names generalizing s with
    | nil => simp
    | cons name names ih =>
      rw [List.foldl_cons, ih, Std.ExtTreeSet.mem_union_iff]
      cases h : r.get? name <;> simp [h, or_assoc, or_left_comm]
  rw [reached, hfold]
  simp

/-- An immediate child is a child that is not below another child. -/
theorem mem_immediateChildren (hp : p ∈ r.privileges) {c : String} :
    c ∈ r.immediateChildren p.id ↔
      c ∈ p.children ∧ ∀ a, p.bundle.Parent a → ∀ b, a.Above b → b.id ≠ c := by
  rw [immediateChildren, get?_eq_some_iff.2 ⟨hp, rfl⟩]
  simp only [List.mem_filter, Bool.not_eq_true', ← Bool.not_eq_true,
    Std.ExtTreeSet.contains_iff_mem, mem_reached]
  refine and_congr_right fun _ => ⟨?_, ?_⟩
  · intro h a ha b hb hid
    obtain ⟨q, hq, rfl⟩ := r.catalogue.closed p hp a ha
    refine h ⟨q.id, List.mem_map_of_mem ha, q, get?_eq_some_iff.2 ⟨hq, rfl⟩, ?_⟩
    rw [q.descendants_eq]
    exact Bundle.mem_descendants.2 ⟨b, hb, hid⟩
  · rintro h ⟨name, hname, q, hq, hc⟩
    obtain ⟨a, ha, rfl⟩ := List.mem_map.1 hname
    obtain ⟨q', hq', rfl⟩ := r.catalogue.closed p hp a ha
    -- The child of that name is `q` itself.
    obtain ⟨hq, hid⟩ := get?_eq_some_iff.1 hq
    obtain rfl := eq_of_id_eq hq hq' hid
    rw [q.descendants_eq] at hc
    obtain ⟨b, hb, hbc⟩ := Bundle.mem_descendants.1 hc
    exact h q.bundle ha b hb hbc

theorem exists_of_mem_immediateChildren (hp : p ∈ r.privileges) {c : String}
    (h : c ∈ r.immediateChildren p.id) :
    ∃ q ∈ r.privileges, q.id = c ∧ p.bundle.Parent q.bundle := by
  obtain ⟨b, hb, rfl⟩ := List.mem_map.1 ((mem_immediateChildren hp).1 h).1
  obtain ⟨q, hq, rfl⟩ := r.catalogue.closed p hp b hb
  exact ⟨q, hq, rfl, hb⟩

/-- Every leaf that a child covers is covered by a child that is not below another
    one: the largest child that covers it. -/
theorem exists_immediateChild (hp : p ∈ r.privileges) {a : Bundle} (ha : p.bundle.Parent a)
    {leaf : String} (h : a.covers leaf = true) :
    ∃ c ∈ r.immediateChildren p.id, r.covers c leaf = true := by
  -- By induction on how much smaller the child is than its parent.
  induction hn : sizeOf p.bundle - sizeOf a using Nat.strongRecOn generalizing a with
  | ind n ih =>
    by_cases hc : a.id ∈ r.immediateChildren p.id
    · obtain ⟨q, hq, rfl⟩ := r.catalogue.closed p hp a ha
      refine ⟨q.id, hc, ?_⟩
      rw [covers_eq hq, Privilege.covers_eq]
      exact h
    · -- A child that is below another one is smaller than that one, which covers more.
      rw [mem_immediateChildren hp] at hc
      push Not at hc
      obtain ⟨b, hb, c, hbc, hid⟩ := hc (List.mem_map_of_mem ha)
      obtain ⟨q, hq, rfl⟩ := r.catalogue.closed p hp b hb
      obtain ⟨q', hq', rfl⟩ := r.catalogue.closed p hp a ha
      obtain ⟨q'', hq'', rfl⟩ := exists_of_above hq hbc
      obtain rfl := eq_of_id_eq hq'' hq' hid
      have hsize := Bundle.sizeOf_lt_of_above hbc
      have hlt := Bundle.sizeOf_lt_of_parent hb
      exact ih _ (by omega) hb (Bundle.covers_of_above (leaves?_isSome hq) hbc h) rfl

/-- An aggregate covers what one of its immediate children covers, and nothing
    else. -/
theorem covers_iff_immediateChildren (hp : p ∈ r.privileges) (ha : p.isAggregate = true)
    {leaf : String} :
    r.covers p.id leaf = true ↔ ∃ c ∈ r.immediateChildren p.id, r.covers c leaf = true := by
  rw [covers_eq hp, Privilege.covers_eq, Bundle.covers_iff_of_children (leaves?_isSome hp) ha]
  constructor
  · rintro ⟨a, hpa, h⟩
    exact exists_immediateChild hp hpa h
  · rintro ⟨c, hc, h⟩
    obtain ⟨q, hq, rfl, hpq⟩ := exists_of_mem_immediateChildren hp hc
    rw [covers_eq hq, Privilege.covers_eq] at h
    exact ⟨q.bundle, hpq, h⟩

/-- No aggregate is among its own immediate children. -/
theorem not_mem_immediateChildren (hp : p ∈ r.privileges) : p.id ∉ r.immediateChildren p.id := by
  intro h
  obtain ⟨q, _, hid, hpq⟩ := exists_of_mem_immediateChildren hp h
  exact id_ne_of_above hp (.single hpq) hid

/-! ## A diamond -/

/-- Two aggregates with a leaf in common, below a root that declares everything. -/
def diamond? : Except Error Registry :=
  ofDeclarations [("doc:read", []), ("doc:share", []), ("doc:write", []),
    ("doc:view", [.text "doc:read", .text "doc:share"]),
    ("doc:edit", [.text "doc:write", .text "doc:share"]),
    ("doc:all", [.text "doc:view", .text "doc:edit", .text "doc:read", .text "doc:share",
      .text "doc:write"])] (.text "doc:all")

theorem diamond?_isOk : diamond?.toOption.isSome = true := by decide +kernel

/-- The registry of a diamond. -/
def diamond : Registry := diamond?.toOption.get diamond?_isOk

example : diamond.immediateChildren "doc:all" = ["doc:view", "doc:edit"] := by decide +kernel

end Registry

end AccessControl
