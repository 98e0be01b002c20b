import AccessControl.Proofs.Privilege.Graph

/-!
# Depths are longest paths

The depth index of a privilege is worked out by going down from it and entering
whatever turns out to be deeper than it was known to be. What is as deep already
is left alone, with everything below it: this is no loss, since all but the
privileges on the way down are *settled* at any time, that is, what is right below
them is known to be deeper than they are.

* `Bundle.Path`: a path with a number of edges;
* `DepthIndex.Enters`: what going down from a privilege does to an index;
* `Registry.depths_eq_some_iff`: the depth of a privilege is the length of the
  longest path to it;
* `Registry.mem_depths_iff`, `Registry.id_mem_depths_iff`: the index has what a path
  leads to, that is, the privileges that are reached.
-/

namespace AccessControl

namespace Bundle

/-- A path of `n` edges leads from `a` to a bundle. -/
inductive Path (a : Bundle) : Nat → Bundle → Prop
  | refl : Path a 0 a
  | tail {n : Nat} {b c : Bundle} : Path a n b → b.Parent c → Path a (n + 1) c

namespace Path

variable {a b c : Bundle} {n : Nat}

theorem head (h : a.Parent b) (hp : b.Path n c) : a.Path (n + 1) c := by
  induction hp with
  | refl => exact .tail .refl h
  | tail _ hc ih => exact .tail ih hc

theorem above (hp : a.Path (n + 1) c) : a.Above c := by
  induction n generalizing c with
  | zero =>
    cases hp with
    | tail hp hc =>
      cases hp
      exact .single hc
  | succ n ih =>
    cases hp with
    | tail hp hc => exact .tail (ih hp) hc

end Path

/-- A path of some number of edges is a chain of children. -/
theorem exists_path_iff {a b : Bundle} :
    (∃ n, a.Path n b) ↔ Relation.ReflTransGen Parent a b := by
  constructor
  · rintro ⟨n, h⟩
    induction h with
    | refl => exact .refl
    | tail _ hc ih => exact ih.tail hc
  · intro h
    induction h with
    | refl => exact ⟨0, .refl⟩
    | tail _ hc ih =>
      obtain ⟨n, hn⟩ := ih
      exact ⟨n + 1, hn.tail hc⟩

end Bundle

/-- A privilege is another one or leads to it, from parent to child. -/
def Privilege.Reaches (p q : Privilege) : Prop :=
  Relation.ReflTransGen Bundle.Parent p.bundle q.bundle

/-- A bundle is that of a privilege of the registry. -/
def Registry.Holds (r : Registry) (b : Bundle) : Prop := ∃ p ∈ r.privileges, p.bundle = b

namespace Registry.Holds

variable {r : Registry} {a b : Bundle}

theorem parent (ha : r.Holds a) (h : a.Parent b) : r.Holds b := by
  obtain ⟨p, hp, rfl⟩ := ha
  exact r.catalogue.closed p hp b h

theorem path (ha : r.Holds a) {n : Nat} (h : a.Path n b) : r.Holds b := by
  induction h with
  | refl => exact ha
  | tail _ hc ih => exact ih.parent hc

theorem eq_of_id_eq (ha : r.Holds a) (hb : r.Holds b) (h : a.id = b.id) : a = b := by
  obtain ⟨p, hp, rfl⟩ := ha
  obtain ⟨q, hq, rfl⟩ := hb
  rw [Registry.eq_of_id_eq hp hq h]

theorem id_ne_of_above (ha : r.Holds a) (h : a.Above b) : b.id ≠ a.id := by
  obtain ⟨p, hp, rfl⟩ := ha
  exact Registry.id_ne_of_above hp h

end Registry.Holds

namespace DepthIndex

variable {r : Registry} {d found mid index : DepthIndex} {a b : Bundle} {depth : Int}

theorem mem_iff_exists_getElem? {k : String} : k ∈ d ↔ ∃ i, d[k]? = some i := by
  rw [Std.ExtTreeMap.mem_iff_isSome_getElem?, Option.isSome_iff_exists]

theorem rank_eq_of_getElem? {k : String} {i : Int} (h : d[k]? = some i) : d.rank k = i := by
  rw [rank, h, Option.getD_some]

/-- What is right below a bundle is deeper than the bundle, if that is in the index. -/
def Settled (d : DepthIndex) (a : Bundle) : Prop :=
  ∀ i : Int, d[a.id]? = some i → ∀ b, a.Parent b → ∃ j, d[b.id]? = some j ∧ i < j

/-- An index grows by bundles that are entered at given depths. -/
structure Enters (r : Registry) (new : Int → Bundle → Prop) (found index : DepthIndex) : Prop where
  /-- Nothing is less deep than it was. -/
  mono : ∀ (k : String) (i : Int), found[k]? = some i → ∃ j, index[k]? = some j ∧ i ≤ j
  /-- What is not as it was has been entered. -/
  sound : ∀ (k : String) (i : Int), index[k]? = some i →
    found[k]? = some i ∨ ∃ b, new i b ∧ b.id = k
  /-- What was settled still is. -/
  settled : ∀ b, r.Holds b → found.Settled b → index.Settled b

namespace Enters

variable {new new' : Int → Bundle → Prop}

theorem refl (r : Registry) (new : Int → Bundle → Prop) (d : DepthIndex) : Enters r new d d :=
  ⟨fun _ i h => ⟨i, h, Int.le_refl i⟩, fun _ _ => .inl, fun _ _ => id⟩

theorem trans (h : Enters r new found mid) (h' : Enters r new mid index) :
    Enters r new found index where
  mono k i hi := by
    obtain ⟨j, hj, hij⟩ := h.mono k i hi
    obtain ⟨l, hl, hjl⟩ := h'.mono k j hj
    exact ⟨l, hl, Int.le_trans hij hjl⟩
  sound k i hi := (h'.sound k i hi).elim (h.sound k i) .inr
  settled b hb hs := h'.settled b hb (h.settled b hb hs)

theorem imp (h : Enters r new found index) (himp : ∀ i b, new i b → new' i b) :
    Enters r new' found index where
  mono := h.mono
  sound k i hi := (h.sound k i hi).imp_right fun ⟨b, hb, hid⟩ => ⟨b, himp i b hb, hid⟩
  settled := h.settled

/-- The depth of what is not entered stays the same. -/
theorem getElem?_eq (h : Enters r new found index) {k : String}
    (hk : ∀ i b, new i b → b.id ≠ k) : index[k]? = found[k]? := by
  cases hi : index[k]? with
  | none =>
    cases hj : found[k]? with
    | none => rfl
    | some j =>
      obtain ⟨i, hi', _⟩ := h.mono k j hj
      cases hi.symm.trans hi'
  | some i =>
    rcases h.sound k i hi with hi | ⟨b, hb, hid⟩
    · exact hi.symm
    · exact absurd hid (hk i b hb)

end Enters

/-- What a path with an edge or more leads to, at the depths that it makes. -/
def Below (a : Bundle) (depth : Int) (i : Int) (b : Bundle) : Prop :=
  ∃ n : Nat, a.Path (n + 1) b ∧ i = depth + (n + 1)

/-- What a path leads to from one of the given bundles. -/
def From (bs : List Bundle) (depth : Int) (i : Int) (b : Bundle) : Prop :=
  ∃ a ∈ bs, ∃ n : Nat, a.Path n b ∧ i = depth + n

theorem getElem?_insert (d : DepthIndex) (a k : String) (i : Int) :
    (d.insert a i)[k]? = if a = k then some i else d[k]? := by
  rw [Std.ExtTreeMap.getElem?_insert]
  simp only [Std.LawfulEqOrd.compare_eq_iff_eq]

/-! ## Entering a bundle at a greater depth -/

theorem mono_insert (h : found[a.id]?.all (· < depth) = true) (k : String) (i : Int)
    (hi : found[k]? = some i) : ∃ j, (found.insert a.id depth)[k]? = some j ∧ i ≤ j := by
  rw [getElem?_insert]
  split
  next hk =>
    subst hk
    rw [hi, Option.all_some, decide_eq_true_iff] at h
    exact ⟨depth, rfl, Int.le_of_lt h⟩
  next => exact ⟨i, hi, Int.le_refl i⟩

theorem settled_insert (h : found[a.id]?.all (· < depth) = true) (hb : b.id ≠ a.id)
    (hs : found.Settled b) : Settled (found.insert a.id depth) b := by
  intro i hi c hc
  rw [getElem?_insert, if_neg (Ne.symm hb)] at hi
  obtain ⟨j, hj, hij⟩ := hs i hi c hc
  obtain ⟨l, hl, hjl⟩ := mono_insert h _ _ hj
  exact ⟨l, hl, Int.lt_of_lt_of_le hij hjl⟩

theorem exists_of_not_less (h : ¬ found[a.id]?.all (· < depth) = true) :
    ∃ i, found[a.id]? = some i ∧ depth ≤ i := by
  cases hi : found[a.id]? with
  | none => simp [hi] at h
  | some i => exact ⟨i, rfl, by simpa [hi] using h⟩

/-! ## Going down -/

/-- Going down from a bundle that is in the index enters what is below it, and settles
    the bundle. -/
structure Deepens (r : Registry) (a : Bundle) (depth : Int) (found index : DepthIndex) : Prop where
  enters : Enters r (Below a depth) found index
  settled : index.Settled a

/-- Entering a bundle and going down from it enters the bundle and what is below it. -/
theorem Deepens.enters_insert {bs : List Bundle} (hb : r.Holds b)
    (hless : found[b.id]?.all (· < depth) = true)
    (h : Deepens r b depth (found.insert b.id depth) index) :
    Enters r (From (b :: bs) depth) found index where
  mono k i hi := by
    obtain ⟨j, hj, hij⟩ := mono_insert hless k i hi
    obtain ⟨l, hl, hjl⟩ := h.enters.mono k j hj
    exact ⟨l, hl, Int.le_trans hij hjl⟩
  sound k i hi := by
    rcases h.enters.sound k i hi with hi | ⟨c, ⟨n, hn, rfl⟩, rfl⟩
    · rw [getElem?_insert] at hi
      split at hi
      next hk => exact .inr ⟨b, ⟨b, List.mem_cons_self, 0, .refl, by simp_all⟩, hk⟩
      next => exact .inl hi
    · exact .inr ⟨c, ⟨b, List.mem_cons_self, n + 1, hn, by simp⟩, rfl⟩
  settled c hc hs := by
    by_cases hcb : c.id = b.id
    · rw [hc.eq_of_id_eq hb hcb]
      exact h.settled
    · exact h.enters.settled c hc (settled_insert hless hcb hs)

/-- If this is true of the children of a bundle, going down from them in turn enters
    each at its depth or deeper. -/
theorem enters_deepenAll {bs : List Bundle} (hbs : ∀ b ∈ bs, r.Holds b)
    (ih : ∀ b ∈ bs, ∀ found : DepthIndex, found[b.id]? = some depth →
      Deepens r b depth found (b.deepen found depth)) (found : DepthIndex) :
    Enters r (From bs depth) found (Bundle.deepenAll found depth bs) ∧
      ∀ b ∈ bs, ∃ j : Int, (Bundle.deepenAll found depth bs)[b.id]? = some j ∧ depth ≤ j := by
  induction bs generalizing found with
  | nil => exact ⟨.refl r _ found, nofun⟩
  | cons b bs ihs =>
    have hrest (found : DepthIndex) := ihs (fun c hc => hbs c (List.mem_cons_of_mem _ hc))
      (fun c hc => ih c (List.mem_cons_of_mem _ hc)) found
    have hfrom (i : Int) (c : Bundle) (h : From bs depth i c) : From (b :: bs) depth i c := by
      obtain ⟨a, ha, h⟩ := h
      exact ⟨a, List.mem_cons_of_mem _ ha, h⟩
    rw [Bundle.deepenAll]
    split
    next hless =>
      -- The bundle is entered at its depth, and what is below it after it.
      have hb : (found.insert b.id depth)[b.id]? = some depth :=
        Std.ExtTreeMap.getElem?_insert_self
      have hfirst := ih b List.mem_cons_self _ hb
      obtain ⟨hall, hin⟩ := hrest (b.deepen (found.insert b.id depth) depth)
      refine ⟨(hfirst.enters_insert (hbs b List.mem_cons_self) hless).trans (hall.imp hfrom),
        fun c hc => ?_⟩
      rcases List.mem_cons.1 hc with rfl | hc
      · obtain ⟨i, hi, hle⟩ := hfirst.enters.mono _ _ hb
        obtain ⟨j, hj, hle'⟩ := hall.mono _ _ hi
        exact ⟨j, hj, Int.le_trans hle hle'⟩
      · exact hin c hc
    next hless =>
      obtain ⟨hall, hin⟩ := hrest found
      refine ⟨hall.imp hfrom, fun c hc => ?_⟩
      rcases List.mem_cons.1 hc with rfl | hc
      · obtain ⟨i, hi, hle⟩ := exists_of_not_less hless
        obtain ⟨j, hj, hle'⟩ := hall.mono _ _ hi
        exact ⟨j, hj, Int.le_trans hle hle'⟩
      · exact hin c hc

/-- Going down from a bundle that is in the index enters and settles what is below it. -/
theorem deepens (ha : r.Holds a) (hdepth : found[a.id]? = some depth) :
    Deepens r a depth found (a.deepen found depth) := by
  induction a using Bundle.descent generalizing found depth with
  | step a ih =>
    cases a with
    | atomic id => exact ⟨.refl r _ found, fun _ _ _ => nofun⟩
    | nominal id => exact ⟨.refl r _ found, fun _ _ _ => nofun⟩
    | aggregate id bs =>
      have hchildren : ∀ b ∈ bs, ∀ found : DepthIndex, found[b.id]? = some (depth + 1) →
          Deepens r b (depth + 1) found (b.deepen found (depth + 1)) :=
        fun b hb _ hfound => ih b hb (ha.parent hb) hfound
      obtain ⟨hall, hin⟩ := enters_deepenAll (fun b hb => ha.parent hb) hchildren found
      have henters : Enters r (Below (.aggregate id bs) depth) found
          (Bundle.deepenAll found (depth + 1) bs) := by
        refine hall.imp ?_
        rintro i b ⟨c, hc, n, hn, rfl⟩
        exact ⟨n, hn.head hc, by omega⟩
      rw [Bundle.deepen]
      refine ⟨henters, fun i hi b hb => ?_⟩
      -- The depth of the bundle itself has not changed, as it is not below itself.
      have hsame := henters.getElem?_eq (k := id) fun i b ⟨n, hn, _⟩ => ha.id_ne_of_above hn.above
      obtain rfl := Option.some.inj ((hsame.trans hdepth).symm.trans hi)
      obtain ⟨j, hj, hle⟩ := hin b hb
      exact ⟨j, hj, by omega⟩

end DepthIndex

namespace Registry

open DepthIndex

variable {r : Registry} {p q : Privilege} {b : Bundle}

/-- The index of a privilege has the depths of paths from it. -/
theorem exists_path_of_depths (hp : p ∈ r.privileges) {k : String} {i : Int}
    (h : p.depths[k]? = some i) : ∃ n : Nat, i = n ∧ ∃ b, p.bundle.Path n b ∧ b.id = k := by
  have hroot : ((∅ : DepthIndex).insert p.id 0)[p.bundle.id]? = some 0 :=
    Std.ExtTreeMap.getElem?_insert_self
  have hdeep := deepens (r := r) ⟨p, hp, rfl⟩ hroot
  rcases hdeep.enters.sound k i h with hi | ⟨b, ⟨n, hn, rfl⟩, hid⟩
  · rw [getElem?_insert] at hi
    split at hi
    next hk => exact ⟨0, (Option.some.inj hi).symm, p.bundle, .refl, hk⟩
    next => cases Std.ExtTreeMap.getElem?_empty.symm.trans hi
  · exact ⟨n + 1, by simp, b, hn, hid⟩

/-- In the index of a privilege a child is deeper than its parent. -/
theorem settled_depths (hp : p ∈ r.privileges) (hb : r.Holds b) : p.depths.Settled b := by
  have hroot : ((∅ : DepthIndex).insert p.id 0)[p.bundle.id]? = some 0 :=
    Std.ExtTreeMap.getElem?_insert_self
  have hholds : r.Holds p.bundle := ⟨p, hp, rfl⟩
  have hdeep := deepens hholds hroot
  -- At first only the root is in the index, and in the end it is settled as well.
  by_cases hbp : b.id = p.id
  · rw [hb.eq_of_id_eq hholds hbp]
    exact hdeep.settled
  · refine hdeep.enters.settled b hb fun i hi => ?_
    rw [getElem?_insert, if_neg (Ne.symm hbp)] at hi
    cases Std.ExtTreeMap.getElem?_empty.symm.trans hi

/-- What a path leads to is at least as deep as the path is long. -/
theorem le_depths_of_path (hp : p ∈ r.privileges) {n : Nat} (h : p.bundle.Path n b) :
    ∃ i, p.depths[b.id]? = some i ∧ (n : Int) ≤ i := by
  have hroot : ((∅ : DepthIndex).insert p.id 0)[p.bundle.id]? = some 0 :=
    Std.ExtTreeMap.getElem?_insert_self
  have hholds : r.Holds p.bundle := ⟨p, hp, rfl⟩
  induction h with
  | refl => exact (deepens hholds hroot).enters.mono _ _ hroot
  | tail hpath hc ih =>
    obtain ⟨i, hi, hle⟩ := ih
    obtain ⟨j, hj, hlt⟩ := settled_depths hp (hholds.path hpath) i hi _ hc
    exact ⟨j, hj, by omega⟩

/-- The depth of a privilege is the length of the longest path that leads to it. -/
theorem depths_eq_some_iff (hp : p ∈ r.privileges) {k : String} {i : Int} :
    p.depths[k]? = some i ↔ ∃ n : Nat, i = n ∧ (∃ b, p.bundle.Path n b ∧ b.id = k) ∧
      ∀ n' b, p.bundle.Path n' b → b.id = k → n' ≤ n := by
  constructor
  · intro h
    obtain ⟨n, rfl, hpath⟩ := exists_path_of_depths hp h
    refine ⟨n, rfl, hpath, ?_⟩
    rintro n' b hb rfl
    obtain ⟨j, hj, hle⟩ := le_depths_of_path hp hb
    obtain rfl := Option.some.inj (h.symm.trans hj)
    exact Int.ofNat_le.1 hle
  · rintro ⟨n, rfl, ⟨b, hb, rfl⟩, hmax⟩
    obtain ⟨i, hi, hle⟩ := le_depths_of_path hp hb
    obtain ⟨n', rfl, b', hb', hid⟩ := exists_path_of_depths hp hi
    rw [hi, Nat.le_antisymm (hmax n' b' hb' hid) (Int.ofNat_le.1 hle)]

/-- The index has what a path leads to, and nothing else. -/
theorem mem_depths_iff (hp : p ∈ r.privileges) {k : String} :
    k ∈ p.depths ↔ ∃ n b, p.bundle.Path n b ∧ b.id = k := by
  rw [DepthIndex.mem_iff_exists_getElem?]
  constructor
  · rintro ⟨i, hi⟩
    obtain ⟨n, _, hpath⟩ := exists_path_of_depths hp hi
    exact ⟨n, hpath⟩
  · rintro ⟨n, b, hb, rfl⟩
    obtain ⟨i, hi, _⟩ := le_depths_of_path hp hb
    exact ⟨i, hi⟩

/-- The index has the names of the privileges that are reached. -/
theorem id_mem_depths_iff (hp : p ∈ r.privileges) (hq : q ∈ r.privileges) :
    q.id ∈ p.depths ↔ p.Reaches q := by
  have hholds : r.Holds p.bundle := ⟨p, hp, rfl⟩
  rw [mem_depths_iff hp, Privilege.Reaches, ← Bundle.exists_path_iff]
  refine exists_congr fun n => ⟨?_, fun h => ⟨q.bundle, h, rfl⟩⟩
  rintro ⟨b, hb, hid⟩
  rwa [← (hholds.path hb).eq_of_id_eq ⟨q, hq, rfl⟩ hid]

end Registry

end AccessControl
