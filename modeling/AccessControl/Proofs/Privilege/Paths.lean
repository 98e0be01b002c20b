import AccessControl.Proofs.Privilege.Depth
import Mathlib.Data.List.Nodup
import Mathlib.Data.List.Perm.Subperm
import Mathlib.Order.Bounds.Basic

/-!
# Paths of declared children

The children that privileges declare are the edges of a graph of names, and a depth index is
worked out by going down in this graph. A name is visited again whenever it turns out to be
deeper than it was known to be, so nothing in the graph itself says that this ever comes to an
end (`Registry.Explores`). It does, as the graph has no cycles, and what is left in the end are
the lengths of the longest paths.

* `Registry.Path`: a path with a number of edges, from name to name;
* `Registry.explores_iff`: going down comes to an end in the depth index, and nowhere else;
* `Registry.lt_size_depths`: no depth is as large as the index;
* `Registry.longestPaths_depths`: depths are longest paths.
-/

namespace AccessControl

namespace Registry

open Relation

variable {r : Registry} {p : Privilege} {a k : String} {n : Nat}

/-! ## The graph of names -/

/-- The privilege of a name declares a child. -/
def Edge (r : Registry) (a b : String) : Prop := ∃ p, r.get? a = some p ∧ b ∈ p.children

/-- A path of `n` edges leads from `a` to a name. -/
inductive Path (r : Registry) (a : String) : Nat → String → Prop
  | refl : Path r a 0 a
  | tail {n : Nat} {b c : String} : Path r a n b → r.Edge b c → Path r a (n + 1) c

theorem exists_path_iff : (∃ n, r.Path a n k) ↔ ReflTransGen r.Edge a k := by
  constructor
  · rintro ⟨n, h⟩
    induction h with
    | refl => exact .refl
    | tail _ hedge ih => exact ih.tail hedge
  · intro h
    induction h with
    | refl => exact ⟨0, .refl⟩
    | tail _ hedge ih =>
      obtain ⟨n, hn⟩ := ih
      exact ⟨n + 1, hn.tail hedge⟩

namespace Holds

variable {b : Bundle}

/-- An edge leads to the name of each child. -/
theorem edge_iff (hb : r.Holds b) : r.Edge b.id k ↔ ∃ c, b.Parent c ∧ c.id = k := by
  obtain ⟨p, hp, rfl⟩ := hb
  constructor
  · rintro ⟨q, hq, hk⟩
    obtain rfl := Option.some.inj ((get?_eq_some_iff.2 ⟨hp, rfl⟩).symm.trans hq)
    exact List.mem_map.1 hk
  · rintro ⟨c, hc, rfl⟩
    exact ⟨p, get?_eq_some_iff.2 ⟨hp, rfl⟩, List.mem_map_of_mem hc⟩

theorem path_iff (hb : r.Holds b) : r.Path b.id n k ↔ ∃ c, b.Path n c ∧ c.id = k := by
  constructor
  · intro h
    induction h with
    | refl => exact ⟨b, .refl, rfl⟩
    | tail _ hedge ih =>
      obtain ⟨c, hc, rfl⟩ := ih
      obtain ⟨d, hd, rfl⟩ := (hb.path hc).edge_iff.1 hedge
      exact ⟨d, hc.tail hd, rfl⟩
  · rintro ⟨c, hc, rfl⟩
    induction hc with
    | refl => exact .refl
    | tail hc hd ih => exact ih.tail ((hb.path hc).edge_iff.2 ⟨_, hd, rfl⟩)

end Holds

/-! ## Going down -/

/-- Going down to names that are to be entered at a depth, one after the other. A name that is
    not known to be as deep is entered, and the way leads on to its children, before it is the
    turn of the next name. -/
inductive Explores (r : Registry) : Int → List String → DepthIndex → DepthIndex → Prop
  | done {depth : Int} {d : DepthIndex} : Explores r depth [] d d
  | enter {depth : Int} {k : String} {ks : List String} {p : Privilege}
      {found mid index : DepthIndex} : found[k]?.all (· < depth) = true → r.get? k = some p →
      Explores r (depth + 1) p.children (found.insert k depth) mid →
      Explores r depth ks mid index → Explores r depth (k :: ks) found index
  | pass {depth : Int} {k : String} {ks : List String} {found index : DepthIndex} :
      found[k]?.all (· < depth) = false → Explores r depth ks found index →
      Explores r depth (k :: ks) found index

/-- There is only one way to go down. -/
theorem Explores.unique {depth : Int} {ks : List String} {found index index' : DepthIndex}
    (h : r.Explores depth ks found index) (h' : r.Explores depth ks found index') :
    index = index' := by
  induction h generalizing index' with
  | done =>
    cases h'
    rfl
  | enter hless hp _ _ ihp ih =>
    cases h' with
    | enter _ hp' hmid hrest =>
      obtain rfl := Option.some.inj (hp.symm.trans hp')
      obtain rfl := ihp hmid
      exact ih hrest
    | pass hknown _ => cases hless.symm.trans hknown
  | pass hknown _ ih =>
    cases h' with
    | enter hless _ _ _ => cases hless.symm.trans hknown
    | pass _ hrest => exact ih hrest

/-- If this is so below each of some bundles, going down to all of them comes to an end. -/
theorem explores_deepenAll {bs : List Bundle} {depth : Int} (hbs : ∀ b ∈ bs, r.Holds b)
    (ih : ∀ b ∈ bs, ∀ found : DepthIndex,
      r.Explores (depth + 1) (b.children.map Bundle.id) found (b.deepen found depth))
    (found : DepthIndex) :
    r.Explores depth (bs.map Bundle.id) found (Bundle.deepenAll found depth bs) := by
  induction bs generalizing found with
  | nil => exact .done
  | cons b bs ihs =>
    have hrest (found : DepthIndex) := ihs (fun c hc => hbs c (List.mem_cons_of_mem _ hc))
      (fun c hc => ih c (List.mem_cons_of_mem _ hc)) found
    rw [List.map_cons, Bundle.deepenAll]
    split
    next hless =>
      obtain ⟨p, hp, rfl⟩ := hbs b List.mem_cons_self
      exact .enter hless (get?_eq_some_iff.2 ⟨hp, rfl⟩) (ih _ List.mem_cons_self _) (hrest _)
    next hknown => exact .pass (Bool.eq_false_iff.2 hknown) (hrest found)

theorem explores_deepen {b : Bundle} (hb : r.Holds b) (found : DepthIndex) (depth : Int) :
    r.Explores (depth + 1) (b.children.map Bundle.id) found (b.deepen found depth) := by
  induction b using Bundle.descent generalizing found depth with
  | step b ih =>
    cases b with
    | atomic id => exact .done
    | nominal id => exact .done
    | aggregate id bs =>
      rw [Bundle.deepen]
      exact explores_deepenAll (fun c hc => hb.parent hc)
        (fun c hc found => ih c hc (hb.parent hc) found (depth + 1)) found

/-- Going down from a privilege comes to an end, which is its depth index. -/
theorem explores_iff (hp : p ∈ r.privileges) {index : DepthIndex} :
    r.Explores 1 p.children ((∅ : DepthIndex).insert p.id 0) index ↔ index = p.depths := by
  have hends : r.Explores 1 p.children ((∅ : DepthIndex).insert p.id 0) p.depths :=
    explores_deepen ⟨p, hp, rfl⟩ _ 0
  constructor
  · exact fun h => h.unique hends
  · rintro rfl
    exact hends

/-! ## Depths -/

/-- The depth of a name is the length of the longest path that leads to it. -/
theorem depths_eq_some_iff_isGreatest (hp : p ∈ r.privileges) {i : Int} :
    p.depths[k]? = some i ↔ ∃ n : Nat, i = n ∧ IsGreatest {n | r.Path p.id n k} n := by
  have hpath (n : Nat) : r.Path p.id n k ↔ ∃ b, p.bundle.Path n b ∧ b.id = k :=
    Holds.path_iff ⟨p, hp, rfl⟩
  rw [depths_eq_some_iff hp]
  refine exists_congr fun n => and_congr_right fun _ => and_congr (hpath n).symm ?_
  constructor
  · intro h n' hn'
    obtain ⟨b, hb, hid⟩ := (hpath n').1 hn'
    exact h n' b hb hid
  · exact fun h n' b hb hid => h ((hpath n').2 ⟨b, hb, hid⟩)

theorem mem_depths_iff_reflTransGen (hp : p ∈ r.privileges) :
    k ∈ p.depths ↔ ReflTransGen r.Edge p.id k := by
  rw [mem_depths_iff hp, ← exists_path_iff]
  exact exists_congr fun n => (Holds.path_iff ⟨p, hp, rfl⟩).symm

theorem depths_self (hp : p ∈ r.privileges) : p.depths[p.id]? = some (0 : Int) := by
  refine (depths_eq_some_iff hp).2 ⟨0, rfl, ⟨p.bundle, .refl, rfl⟩, fun n b hb hid => ?_⟩
  cases n with
  | zero => exact le_rfl
  | succ n => exact absurd hid (id_ne_of_above hp hb.above)

/-- An edge leads further down. -/
theorem exists_lt_depths_of_edge (hp : p ∈ r.privileges) {b c : String} (hb : b ∈ p.depths)
    (hedge : r.Edge b c) : ∃ i j, p.depths[b]? = some i ∧ p.depths[c]? = some j ∧ i < j := by
  obtain ⟨i, hi⟩ := DepthIndex.mem_iff_exists_getElem?.1 hb
  obtain ⟨q, hq, hc⟩ := hedge
  obtain ⟨hmem, rfl⟩ := get?_eq_some_iff.1 hq
  obtain ⟨c, hchild, rfl⟩ := List.mem_map.1 hc
  obtain ⟨j, hj, hlt⟩ := settled_depths hp ⟨q, hmem, rfl⟩ i hi c hchild
  exact ⟨i, j, hi, hj, hlt⟩

/-- The names on a path are in the index, and differ, as each of them is deeper than those
    before it. -/
theorem exists_names_of_path (hp : p ∈ r.privileges) (h : r.Path p.id n k) :
    ∃ names : List String, names.length = n + 1 ∧ names.Nodup ∧
      ∀ a ∈ names, ∃ i j, p.depths[a]? = some i ∧ p.depths[k]? = some j ∧ i ≤ j := by
  induction h with
  | refl =>
    exact ⟨[p.id], rfl, List.nodup_singleton _,
      List.forall_mem_singleton.2 ⟨0, 0, depths_self hp, depths_self hp, le_rfl⟩⟩
  | @tail n b c hpath hedge ih =>
    obtain ⟨names, hlength, hnodup, hnames⟩ := ih
    have hb : b ∈ p.depths := (mem_depths_iff_reflTransGen hp).2 (exists_path_iff.1 ⟨n, hpath⟩)
    obtain ⟨i, j, hi, hj, hlt⟩ := exists_lt_depths_of_edge hp hb hedge
    have hbefore : ∀ a ∈ names, ∃ l, p.depths[a]? = some l ∧ l < j := by
      intro a ha
      obtain ⟨l, i', hl, hi', hle⟩ := hnames a ha
      obtain rfl := Option.some.inj (hi.symm.trans hi')
      exact ⟨l, hl, lt_of_le_of_lt hle hlt⟩
    have hnew : c ∉ names := by
      intro hc
      obtain ⟨l, hl, hlj⟩ := hbefore c hc
      obtain rfl := Option.some.inj (hl.symm.trans hj)
      exact lt_irrefl _ hlj
    refine ⟨c :: names, congrArg (· + 1) hlength, List.nodup_cons.2 ⟨hnew, hnodup⟩,
      List.forall_mem_cons.2 ⟨⟨j, j, hj, hj, le_rfl⟩, fun a ha => ?_⟩⟩
    obtain ⟨l, hl, hlj⟩ := hbefore a ha
    exact ⟨l, j, hl, hj, hlj.le⟩

/-- No depth is as large as the index: on a longest path there are more names than edges, and
    all of them are in the index. -/
theorem lt_size_depths (hp : p ∈ r.privileges) {i : Int} (h : p.depths[k]? = some i) :
    i < p.depths.size := by
  obtain ⟨n, rfl, hpath, _⟩ := (depths_eq_some_iff_isGreatest hp).1 h
  obtain ⟨names, hlength, hnodup, hnames⟩ := exists_names_of_path hp hpath
  have hsub : names ⊆ p.depths.keys := by
    intro a ha
    obtain ⟨i, _, hi, _⟩ := hnames a ha
    exact Std.ExtTreeMap.mem_keys.2 (DepthIndex.mem_iff_exists_getElem?.2 ⟨i, hi⟩)
  have hle := hnodup.length_le_of_subset hsub
  rw [Std.ExtTreeMap.length_keys, hlength] at hle
  exact Int.ofNat_lt.2 hle

/-! ## Main results -/

/-- An index has the lengths of the longest paths from a name. -/
structure LongestPaths (r : Registry) (a : String) (d : DepthIndex) : Prop where
  /-- It has the name itself and what paths lead to. -/
  mem_iff : ∀ k, k ∈ d ↔ ReflTransGen r.Edge a k
  /-- It has the largest number of edges of a path. -/
  depth_iff : ∀ k (i : Int), d[k]? = some i ↔ ∃ n : Nat, i = n ∧ IsGreatest {n | r.Path a n k} n
  /-- The name itself is not below anything. -/
  origin : d[a]? = some (0 : Int)
  /-- Every edge leads to a name that is in the index as well, and deeper. -/
  descends : ∀ b c, b ∈ d → r.Edge b c → ∃ i j : Int, d[b]? = some i ∧ d[c]? = some j ∧ i < j

/-- Going down from a privilege comes to an end, and what it leads to are the lengths of the
    longest paths from the privilege. -/
theorem longestPaths_depths (hp : p ∈ r.privileges) :
    (∀ index, r.Explores 1 p.children ((∅ : DepthIndex).insert p.id 0) index ↔
      index = p.depths) ∧ LongestPaths r p.id p.depths where
  left _ := explores_iff hp
  right.mem_iff _ := mem_depths_iff_reflTransGen hp
  right.depth_iff _ _ := depths_eq_some_iff_isGreatest hp
  right.origin := depths_self hp
  right.descends _ _ := exists_lt_depths_of_edge hp

/-- A root that declares a leaf first, and then the longer way to it. -/
def detour? : Except Error Registry :=
  ofDeclarations [("doc:read", []), ("doc:view", [.text "doc:read"]),
    ("doc:all", [.text "doc:read", .text "doc:view"])] (.text "doc:all")

theorem detour?_isOk : detour?.toOption.isSome = true := by decide +kernel

/-- The registry of a detour. -/
def detour : Registry := detour?.toOption.get detour?_isOk

/-- The leaf is found twice, and it is the longer way that counts. -/
theorem longestPaths_depths_detour :
    detour.root ∈ detour.privileges ∧
      detour.Explores 1 detour.root.children ((∅ : DepthIndex).insert detour.root.id 0)
        detour.root.depths ∧
      LongestPaths detour detour.root.id detour.root.depths ∧
      detour.root.children = ["doc:read", "doc:view"] ∧
      detour.root.depths["doc:read"]? = some 2 := by
  obtain ⟨hends, hlongest⟩ := longestPaths_depths detour.root_mem
  exact ⟨detour.root_mem, (hends _).2 rfl, hlongest, by decide +kernel⟩

end Registry

end AccessControl
