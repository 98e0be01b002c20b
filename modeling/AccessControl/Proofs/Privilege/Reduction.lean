import AccessControl.Proofs.Privilege.Acceptance
import AccessControl.Proofs.Privilege.Paths

/-!
# Immediate children

The immediate children of an aggregate are the ends of the edges that no longer path bypasses.
An edge on a longest path is such an edge, as a path that bypassed it would be longer still. So
what is below an aggregate is reached through immediate children as well, one after the other,
and nothing is lost when decisions are folded along these edges only.

* `Registry.immediateChildren_eq_filter`: a child is immediate if no longer path leads to it;
* `Registry.immediate_of_isGreatest`: the edges of a longest path are immediate;
* `Registry.transGen_immediate_iff`: immediate children lead to all that is below;
* `Registry.reduced_immediateChildren`: what immediate children are, and what they cover.
-/

namespace AccessControl

namespace Registry

open Relation

variable {r : Registry} {p : Privilege} {a b c k : String} {m n : Nat}

/-! ## Paths that are put together -/

theorem Path.trans (h : r.Path a m b) (h' : r.Path b n c) : r.Path a (m + n) c := by
  induction h' with
  | refl => exact h
  | tail _ hedge ih => exact ih.tail hedge

theorem exists_path_succ_iff : (∃ n, r.Path a (n + 1) k) ↔ TransGen r.Edge a k := by
  constructor
  · rintro ⟨n, h⟩
    cases h with
    | tail h hedge => exact .tail' (exists_path_iff.1 ⟨n, h⟩) hedge
  · intro h
    obtain ⟨b, hb, hedge⟩ := TransGen.tail'_iff.1 h
    obtain ⟨n, hn⟩ := exists_path_iff.2 hb
    exact ⟨n, hn.tail hedge⟩

/-- A path of two edges or more goes through another child. -/
theorem exists_path_two_iff :
    (∃ n, r.Path a (n + 2) k) ↔ ∃ b, r.Edge a b ∧ TransGen r.Edge b k := by
  constructor
  · rintro ⟨n, h⟩
    cases h with
    | tail h hedge =>
      obtain ⟨b, hb, hbelow⟩ := TransGen.head'_iff.1 (exists_path_succ_iff.1 ⟨n, h⟩)
      exact ⟨b, hb, .tail' hbelow hedge⟩
  · rintro ⟨b, hb, hbelow⟩
    obtain ⟨n, hn⟩ := exists_path_succ_iff.2 hbelow
    have h : r.Path a (0 + 1 + (n + 1)) k := (Path.refl.tail hb).trans hn
    exact ⟨n, by rwa [Nat.zero_add, Nat.add_comm] at h⟩

/-- What is below the bundle of a privilege, by name. -/
theorem Holds.transGen_iff {b : Bundle} (hb : r.Holds b) :
    TransGen r.Edge b.id k ↔ ∃ c, b.Above c ∧ c.id = k := by
  rw [← exists_path_succ_iff]
  simp only [hb.path_iff]
  constructor
  · rintro ⟨n, c, hc, rfl⟩
    exact ⟨c, hc.above, rfl⟩
  · rintro ⟨c, hc, rfl⟩
    obtain ⟨d, hd, hedge⟩ := TransGen.tail'_iff.1 hc
    obtain ⟨n, hn⟩ := Bundle.exists_path_iff.2 hd
    exact ⟨n, c, hn.tail hedge, rfl⟩

/-- The privileges below a privilege are those that a path of one or more edges leads to. -/
theorem mem_descendants_iff (hp : p ∈ r.privileges) :
    k ∈ p.descendants ↔ TransGen r.Edge p.id k := by
  rw [p.descendants_eq, Bundle.mem_descendants]
  exact (Holds.transGen_iff (b := p.bundle) ⟨p, hp, rfl⟩).symm

/-- No path leads back. -/
theorem not_transGen_edge_self (hp : p ∈ r.privileges) : ¬ TransGen r.Edge p.id p.id := by
  intro h
  obtain ⟨b, hb, hid⟩ := (Holds.transGen_iff (b := p.bundle) ⟨p, hp, rfl⟩).1 h
  exact id_ne_of_above hp hb hid

/-! ## Edges that no path bypasses -/

/-- The first name is that of an aggregate, the second that of an immediate child. -/
def Immediate (r : Registry) (a c : String) : Prop := c ∈ r.immediateChildren a

theorem mem_immediateChildren_iff_path (hp : p ∈ r.privileges) :
    k ∈ r.immediateChildren p.id ↔ k ∈ p.children ∧ ¬ ∃ n, r.Path p.id (n + 2) k := by
  have hbelow : (∃ n, r.Path p.id (n + 2) k) ↔
      ∃ a, p.bundle.Parent a ∧ ∃ b, a.Above b ∧ b.id = k := by
    have hholds : r.Holds p.bundle := ⟨p, hp, rfl⟩
    rw [exists_path_two_iff]
    constructor
    · rintro ⟨_, hedge, hbelow⟩
      obtain ⟨a, ha, rfl⟩ := hholds.edge_iff.1 hedge
      exact ⟨a, ha, (hholds.parent ha).transGen_iff.1 hbelow⟩
    · rintro ⟨a, ha, hbelow⟩
      exact ⟨a.id, hholds.edge_iff.2 ⟨a, ha, rfl⟩, (hholds.parent ha).transGen_iff.2 hbelow⟩
  rw [mem_immediateChildren hp, hbelow]
  push Not
  rfl

open Classical in
/-- The immediate children are the children that no longer path leads to, in their order. -/
theorem immediateChildren_eq_filter (hp : p ∈ r.privileges) :
    r.immediateChildren p.id = p.children.filter fun k => ¬ ∃ n, r.Path p.id (n + 2) k := by
  obtain ⟨f, hf⟩ : ∃ f, r.immediateChildren p.id = p.children.filter f := by
    rw [immediateChildren, get?_eq_some_iff.2 ⟨hp, rfl⟩]
    exact ⟨_, rfl⟩
  rw [hf]
  refine List.filter_congr fun k hk => ?_
  have hmem := mem_immediateChildren_iff_path hp (k := k)
  rw [hf, List.mem_filter, and_congr_right_iff] at hmem
  rw [Bool.eq_iff_iff, decide_eq_true_iff]
  exact hmem hk

theorem edge_of_immediate (h : r.Immediate a b) : r.Edge a b := by
  rw [Immediate, immediateChildren.eq_def] at h
  split at h
  next p hp => exact ⟨p, hp, (List.mem_filter.1 h).1⟩
  next => cases h

/-- The edges of a longest path are immediate. -/
theorem immediate_of_isGreatest (hmax : IsGreatest {n | r.Path a n k} (n + 1))
    (hpath : r.Path a n b) (hedge : r.Edge b k) : r.Immediate b k := by
  obtain ⟨q, hget, hk⟩ := hedge
  obtain ⟨hq, rfl⟩ := get?_eq_some_iff.1 hget
  refine (mem_immediateChildren_iff_path hq).2 ⟨hk, ?_⟩
  rintro ⟨m, hm⟩
  have hle : n + (m + 2) ≤ n + 1 := hmax.2 (hpath.trans hm)
  omega

/-- What a path leads to from a privilege is reached through immediate children as well: by a
    longest path. -/
theorem reflTransGen_immediate (hp : p ∈ r.privileges) (h : ReflTransGen r.Edge p.id k) :
    ReflTransGen r.Immediate p.id k := by
  have hlongest (n : Nat) (k : String) (hmax : IsGreatest {n | r.Path p.id n k} n) :
      ReflTransGen r.Immediate p.id k := by
    induction n generalizing k with
    | zero =>
      cases hmax.1 with
      | refl => exact .refl
    | succ n ih =>
      obtain ⟨hpath, hbound⟩ := hmax
      cases hpath with
      | @tail _ b _ hpath hedge =>
        -- The path to the name before the last one is a longest one, too.
        have hmax' : IsGreatest {n | r.Path p.id n b} n :=
          ⟨hpath, fun m hm => Nat.le_of_succ_le_succ (hbound (hm.tail hedge))⟩
        exact (ih b hmax').tail (immediate_of_isGreatest ⟨hpath.tail hedge, hbound⟩ hpath hedge)
  obtain ⟨i, hi⟩ := DepthIndex.mem_iff_exists_getElem?.1 ((mem_depths_iff_reflTransGen hp).2 h)
  obtain ⟨n, _, hmax⟩ := (depths_eq_some_iff_isGreatest hp).1 hi
  exact hlongest n k hmax

/-- Immediate children lead to all that is below a privilege, and to nothing else. -/
theorem transGen_immediate_iff (hp : p ∈ r.privileges) :
    TransGen r.Immediate p.id k ↔ TransGen r.Edge p.id k := by
  refine ⟨fun h => TransGen.mono (fun _ _ => edge_of_immediate) _ _ h, fun h => ?_⟩
  rcases reflTransGen_iff_eq_or_transGen.1 (reflTransGen_immediate hp h.to_reflTransGen) with
    rfl | himm
  · exact absurd h (not_transGen_edge_self hp)
  · exact himm

/-! ## Main results -/

/-- A privilege of a registry has leaves. -/
theorem exists_leaves (hp : p ∈ r.privileges) :
    ∃ ls, p.leaves = .ok ls ∧ ∀ leaf, leaf ∈ ls ↔ r.covers p.id leaf = true := by
  obtain ⟨ls, hls⟩ := Option.isSome_iff_exists.1 (r.catalogue.grounded p hp)
  refine ⟨ls, by rw [Privilege.leaves, hls], fun leaf => ?_⟩
  rw [covers_eq hp, Privilege.covers, hls, Option.any_some, List.contains_iff_mem]

open Classical in
/-- Names are what the graph below an aggregate can be reduced to. -/
structure Reduced (r : Registry) (p : Privilege) (names : List String) : Prop where
  /-- They are the children that no path of two edges or more leads to, in the order in which
      they are declared. -/
  eq_filter : names = p.children.filter fun k => ¬ ∃ n, r.Path p.id (n + 2) k
  /-- There are some. -/
  ne_nil : names ≠ []
  /-- None of them is below another one. -/
  apart : ∀ a ∈ names, ∀ b ∈ names, ¬ TransGen r.Edge a b
  /-- Immediate children lead to all that is below the aggregate. -/
  reaches : ∀ k, TransGen r.Edge p.id k ↔ TransGen r.Immediate p.id k
  /-- The leaves of the aggregate are theirs, taken together. -/
  leaves : ∃ ls, p.leaves = .ok ls ∧ ∀ leaf, leaf ∈ ls ↔
    ∃ a ∈ names, ∃ q ms, r.get? a = some q ∧ q.leaves = .ok ms ∧ leaf ∈ ms

/-- The graph of an accepted registry is reduced to immediate children. -/
theorem reduced_immediateChildren (hr : r.Accepted) (hp : p ∈ r.privileges)
    (hagg : p.isAggregate = true) : Reduced r p (r.immediateChildren p.id) where
  eq_filter := immediateChildren_eq_filter hp
  ne_nil := by
    obtain ⟨c, hc⟩ := List.exists_mem_of_ne_nil _ (hr.children_ne_nil hp hagg)
    have hbelow : TransGen r.Edge p.id c := .single ⟨p, get?_eq_some_iff.2 ⟨hp, rfl⟩, hc⟩
    obtain ⟨a, ha, _⟩ := TransGen.head'_iff.1 ((transGen_immediate_iff hp).2 hbelow)
    exact List.ne_nil_of_mem ha
  apart a ha b hb hbelow :=
    ((mem_immediateChildren_iff_path hp).1 hb).2
      (exists_path_two_iff.2 ⟨a, edge_of_immediate ha, hbelow⟩)
  reaches _ := (transGen_immediate_iff hp).symm
  leaves := by
    obtain ⟨ls, hls, hmem⟩ := exists_leaves hp
    refine ⟨ls, hls, fun leaf => ?_⟩
    rw [hmem, covers_iff_immediateChildren hp hagg]
    refine exists_congr fun a => and_congr_right fun ha => ?_
    obtain ⟨q, hq, rfl, _⟩ := exists_of_mem_immediateChildren hp ha
    obtain ⟨ms, hms, hmem⟩ := exists_leaves hq
    rw [← hmem]
    constructor
    · exact fun h => ⟨q, ms, get?_eq_some_iff.2 ⟨hq, rfl⟩, hms, h⟩
    · rintro ⟨q', ms', hq', hms', h⟩
      obtain rfl := Option.some.inj ((get?_eq_some_iff.2 ⟨hq, rfl⟩).symm.trans hq')
      cases hms.symm.trans hms'
      exact h

/-- The root of a diamond declares everything, and is reduced to the two aggregates below it. -/
theorem reduced_immediateChildren_diamond :
    (diamond.Accepted ∧ diamond.root ∈ diamond.privileges ∧ diamond.root.isAggregate = true) ∧
      diamond.root.children = ["doc:view", "doc:edit", "doc:read", "doc:share", "doc:write"] ∧
      Reduced diamond diamond.root ["doc:view", "doc:edit"] := by
  have hchildren : diamond.immediateChildren diamond.root.id = ["doc:view", "doc:edit"] := by
    decide +kernel
  refine ⟨⟨accepted_diamond, diamond.root_mem, diamond.root_isAggregate⟩, by decide +kernel, ?_⟩
  rw [← hchildren]
  exact reduced_immediateChildren accepted_diamond diamond.root_mem diamond.root_isAggregate

end Registry

end AccessControl
