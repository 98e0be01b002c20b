import AccessControl.Proofs.Privilege.Graph
import AccessControl.Proofs.Success
import Mathlib.Data.List.Chain
import Mathlib.Data.List.Nodup
import Mathlib.Data.List.Perm.Subperm

/-!
# What definitions build

From definitions all of whose declared children are defined, a catalogue is built
if and only if following the children never leads back, and then it has just the
privileges that are defined, each with the children that it declares.

* `Definitions.Follows`: a catalogue that has privileges as they are defined;
* `Definitions.exists_visit`: without a cycle the construction does not fail;
* `Definitions.exists_walk_of_visit_eq_error`: if it fails, it has come to a closed walk;
* `Definitions.catalogue_cases`: it fails if there is a cycle, and for no other reason.
-/

namespace AccessControl

/-! ## Growing a catalogue -/

namespace Catalogue

variable {c : Catalogue} {id k : String} {names : List String}

theorem contains_iff : c.contains k = true ↔ ∃ p ∈ c.privileges, p.id = k := by
  rw [contains, Option.isSome_iff_exists]
  constructor
  · rintro ⟨p, hp⟩
    exact ⟨p, mem_of_get? hp, id_of_get? hp⟩
  · rintro ⟨p, hp, rfl⟩
    exact ⟨p, get?_eq_some_of_mem hp⟩

/-- A definition adds nothing but a privilege of its name. -/
theorem mem_define {p : Privilege} (h : p ∈ (c.define id names).privileges) :
    p ∈ c.privileges ∨ p = compose id (c.pick names) := by
  rw [define] at h
  split at h
  · exact (List.mem_append.1 h).imp_right List.mem_singleton.1
  · exact .inl h

theorem contains_define :
    (c.define id names).contains k = true ↔ c.contains k = true ∨ k = id := by
  rw [define]
  split
  next hnone =>
    rw [contains_iff, contains_iff]
    constructor
    · rintro ⟨p, hp, rfl⟩
      refine (List.mem_append.1 hp).imp (fun hp => ⟨p, hp, rfl⟩) fun hp => ?_
      rw [List.mem_singleton.1 hp, id_compose]
    · rintro (⟨p, hp, rfl⟩ | rfl)
      · exact ⟨p, List.mem_append_left _ hp, rfl⟩
      · exact ⟨_, List.mem_append_right _ (List.mem_singleton.2 rfl), id_compose _ _⟩
  next hsome =>
    refine ⟨.inl, ?_⟩
    rintro (h | rfl)
    · exact h
    · rw [contains, Option.isSome_iff_ne_none]
      exact hsome

/-- Names of a catalogue pick the privileges of these names. -/
theorem ids_pick (h : ∀ name ∈ names, c.contains name = true) :
    (c.pick names).map Privilege.id = names := by
  induction names with
  | nil => rfl
  | cons name names ih =>
    obtain ⟨p, hp⟩ := Option.isSome_iff_exists.1 (h name List.mem_cons_self)
    have ih := ih fun k hk => h k (List.mem_cons_of_mem _ hk)
    rw [pick] at ih ⊢
    rw [List.filterMap_cons_some hp, List.map_cons, ih, id_of_get? hp]

theorem mem_arrange {p : Privilege} :
    p ∈ (c.arrange names).privileges ↔ p ∈ c.privileges := by
  rw [arrange, List.mem_append]
  constructor
  · rintro (hp | hp)
    · exact mem_of_mem_pick hp
    · exact (List.mem_filter.1 hp).1
  · intro hp
    by_cases hn : p.id ∈ names
    · exact .inl (List.mem_filterMap.2
        ⟨p.id, List.mem_eraseDups.2 hn, get?_eq_some_of_mem hp⟩)
    · exact .inr (List.mem_filter.2 ⟨hp, by simpa using hn⟩)

end Catalogue

namespace Definitions

open Relation

variable {ds : Definitions} {c c' : Catalogue} {name : String}

/-- A name is declared to be a child of another one. -/
def Child (ds : Definitions) (a b : String) : Prop := b ∈ ds.childrenOf a

/-- All children that are declared are defined. -/
def Complete (ds : Definitions) : Prop := ∀ a b, ds.Child a b → b ∈ ds.names

/-- Following the declared children never leads back to where it started. -/
def Acyclic (ds : Definitions) : Prop := ∀ a, ¬ TransGen ds.Child a a

/-- A catalogue has privileges as they are defined. -/
structure Follows (ds : Definitions) (c : Catalogue) : Prop where
  /-- They are defined. -/
  defined : ∀ p ∈ c.privileges, p.id ∈ ds.names
  /-- They have the children that they declare. -/
  children : ∀ p ∈ c.privileges, p.children = ds.childrenOf p.id
  /-- Those without children are atomic. -/
  isAggregate : ∀ p ∈ c.privileges, p.isAggregate = !p.children.isEmpty

theorem follows_empty (ds : Definitions) : ds.Follows .empty where
  defined _ hp := absurd hp List.not_mem_nil
  children _ hp := absurd hp List.not_mem_nil
  isAggregate _ hp := absurd hp List.not_mem_nil

theorem isAggregate_compose (id : String) (ps : List Privilege) :
    (Catalogue.compose id ps).isAggregate = !(Catalogue.compose id ps).children.isEmpty := by
  rw [Privilege.children, Catalogue.children_compose]
  cases ps with
  | nil => rfl
  | cons p ps => rfl

/-- A name may be defined once its children are. -/
theorem Follows.define (h : ds.Follows c) (hname : name ∈ ds.names)
    (hchildren : ∀ b ∈ ds.childrenOf name, c.contains b = true) :
    ds.Follows (c.define name (ds.childrenOf name)) where
  defined p hp := by
    rcases Catalogue.mem_define hp with hp | rfl
    · exact h.defined p hp
    · rwa [Catalogue.id_compose]
  children p hp := by
    rcases Catalogue.mem_define hp with hp | rfl
    · exact h.children p hp
    · rw [Catalogue.id_compose, Privilege.children, Catalogue.children_compose, List.map_map]
      exact Catalogue.ids_pick hchildren
  isAggregate p hp := by
    rcases Catalogue.mem_define hp with hp | rfl
    · exact h.isAggregate p hp
    · exact isAggregate_compose _ _

theorem Follows.arrange (h : ds.Follows c) (names : List String) :
    ds.Follows (c.arrange names) where
  defined p hp := h.defined p (Catalogue.mem_arrange.1 hp)
  children p hp := h.children p (Catalogue.mem_arrange.1 hp)
  isAggregate p hp := h.isAggregate p (Catalogue.mem_arrange.1 hp)

/-! ## Success -/

/-- What a construction that succeeds makes of a catalogue. -/
structure Grows (ds : Definitions) (names : List String) (c c' : Catalogue) : Prop where
  follows : ds.Follows c'
  keeps : ∀ k, c.contains k = true → c'.contains k = true
  contains : ∀ name ∈ names, c'.contains name = true

theorem grows_foldlM {f : Catalogue → String → Except Error Catalogue} {names : List String}
    (hf : ∀ name ∈ names, ∀ c c', ds.Follows c → f c name = .ok c' → ds.Grows [name] c c')
    (hc : ds.Follows c) (h : names.foldlM f c = .ok c') : ds.Grows names c c' := by
  induction names generalizing c with
  | nil =>
    cases h
    exact ⟨hc, fun _ => id, nofun⟩
  | cons name names ih =>
    rw [List.foldlM_cons] at h
    obtain ⟨mid, hmid, h⟩ := exists_of_bind_eq_ok h
    have hfirst := hf name List.mem_cons_self c mid hc hmid
    have hrest := ih (fun n hn => hf n (List.mem_cons_of_mem _ hn)) hfirst.follows h
    refine ⟨hrest.follows, fun k hk => hrest.keeps k (hfirst.keeps k hk), fun n hn => ?_⟩
    rcases List.mem_cons.1 hn with rfl | hn
    · exact hrest.keeps n (hfirst.contains n (List.mem_singleton.2 rfl))
    · exact hrest.contains n hn

/-- A visit that succeeds defines the name, and all that is below it before. -/
theorem grows_visit (hds : ds.Complete) {fuel : Nat} {path : List String} (hc : ds.Follows c)
    (hname : name ∈ ds.names) (h : visit ds fuel path c name = .ok c') :
    ds.Grows [name] c c' := by
  have hknown {c : Catalogue} (hc : ds.Follows c) (h : c.contains name = true) :
      ds.Grows [name] c c := ⟨hc, fun _ => id, List.forall_mem_singleton.2 h⟩
  induction fuel generalizing path c name c' with
  | zero =>
    rw [visit] at h
    split at h
    next hin =>
      cases h
      exact hknown hc hin
    next => cases h
  | succ fuel ih =>
    rw [visit] at h
    split at h
    next hin =>
      cases h
      exact hknown hc hin
    next =>
      split at h
      next => cases h
      next =>
        obtain ⟨mid, hmid, h⟩ := exists_of_bind_eq_ok h
        cases h
        have hchildren : ds.Grows (ds.childrenOf name) c mid :=
          grows_foldlM (fun b hb c c' hc h => ih hc (hds name b hb) h
            fun hc h => ⟨hc, fun _ => id, List.forall_mem_singleton.2 h⟩) hc hmid
        refine ⟨hchildren.follows.define hname hchildren.contains, fun k hk => ?_,
          List.forall_mem_singleton.2 (Catalogue.contains_define.2 (.inr rfl))⟩
        exact Catalogue.contains_define.2 (.inl (hchildren.keeps k hk))

/-- Without a cycle a visit succeeds, provided that what is being defined is above the
    name. As names on the way down do not repeat, there are not more of them than
    definitions. -/
theorem exists_visit (hds : ds.Complete) (hacyclic : ds.Acyclic) {fuel : Nat}
    {path : List String} (c : Catalogue) (hname : name ∈ ds.names) (hnodup : path.Nodup)
    (hpath : path ⊆ ds.names) (habove : ∀ a ∈ path, TransGen ds.Child a name)
    (hfuel : ds.names.length ≤ path.length + fuel) : ∃ c', visit ds fuel path c name = .ok c' := by
  have hnot : name ∉ path := fun h => hacyclic name (habove name h)
  induction fuel generalizing path c name with
  | zero =>
    have hperm := (List.subperm_of_subset hnodup hpath).perm_of_length_le hfuel
    exact absurd (hperm.mem_iff.2 hname) hnot
  | succ fuel ih =>
    rw [visit]
    split
    · exact ⟨c, rfl⟩
    · rw [if_neg (by simpa using hnot)]
      have hchild (b : String) (hb : b ∈ ds.childrenOf name) (c : Catalogue) :
          ∃ c', visit ds fuel (path ++ [name]) c b = .ok c' := by
        have habove' : ∀ a ∈ path ++ [name], TransGen ds.Child a b := by
          intro a ha
          rcases List.mem_append.1 ha with ha | ha
          · exact (habove a ha).tail hb
          · exact List.mem_singleton.1 ha ▸ .single hb
        refine ih c (hds name b hb) ?_ ?_ habove' ?_ fun h => hacyclic b (habove' b h)
        · exact List.nodup_append.2 ⟨hnodup, List.nodup_singleton _,
            fun a ha b hb hab => hnot (List.mem_singleton.1 hb ▸ hab ▸ ha)⟩
        · exact List.append_subset.2 ⟨hpath, List.cons_subset.2 ⟨hname, List.nil_subset _⟩⟩
        · rw [List.length_append, List.length_singleton]
          omega
      obtain ⟨mid, hmid⟩ := exists_foldlM hchild c
      refine ⟨mid.define name (ds.childrenOf name), ?_⟩
      dsimp only
      rw [hmid]
      rfl

/-! ## Cycles -/

/-- A walk along declared children that leads back to where it started. -/
structure ClosedWalk (ds : Definitions) (walk : List String) : Prop where
  /-- It goes from parent to child. -/
  chain : walk.IsChain ds.Child
  /-- It ends where it started. -/
  closed : walk.head? = walk.getLast?
  /-- It goes somewhere. -/
  moves : 2 ≤ walk.length

/-- When the way down comes to a name that is on it, the way from there on is a closed walk. -/
theorem closedWalk_dropWhile {path : List String} (hmem : name ∈ path)
    (hchain : (path ++ [name]).IsChain ds.Child) :
    ds.ClosedWalk (path.dropWhile (· != name) ++ [name]) := by
  obtain ⟨front, rest, rfl, hfront⟩ := List.eq_append_cons_of_mem hmem
  have hdrop : (front ++ name :: rest).dropWhile (· != name) = name :: rest := by
    have hne : ∀ a ∈ front, (a != name) = true := by
      rintro a ha
      exact bne_iff_ne.2 fun h => hfront (h ▸ ha)
    rw [List.dropWhile_append_of_pos hne, List.dropWhile_cons_of_neg (by simp)]
  rw [hdrop]
  rw [List.append_assoc] at hchain
  exact ⟨hchain.right_of_append, by rw [List.getLast?_concat]; rfl, by simp⟩

/-- What stops a visit is a closed walk, provided that what is being defined is a way down to
    the name. As the names on it do not repeat, there are not more of them than definitions. -/
theorem exists_walk_of_visit_eq_error (hds : ds.Complete) {fuel : Nat} {path : List String}
    {e : Error} (hname : name ∈ ds.names) (hnodup : path.Nodup) (hpath : path ⊆ ds.names)
    (hchain : (path ++ [name]).IsChain ds.Child) (hfuel : ds.names.length ≤ path.length + fuel)
    (h : visit ds fuel path c name = .error e) :
    ∃ walk, e = .cycle walk ∧ ds.ClosedWalk walk := by
  induction fuel generalizing path c name with
  | zero =>
    rw [visit] at h
    split at h
    · cases h
    · cases h
      have hperm := (List.subperm_of_subset hnodup hpath).perm_of_length_le hfuel
      exact ⟨_, rfl, closedWalk_dropWhile (hperm.mem_iff.2 hname) hchain⟩
  | succ fuel ih =>
    rw [visit] at h
    split at h
    · cases h
    · split at h
      next hmem =>
        cases h
        exact ⟨_, rfl, closedWalk_dropWhile (by simpa using hmem) hchain⟩
      next hnot =>
        have hnot : name ∉ path := by simpa using hnot
        cases hmid : (ds.childrenOf name).foldlM (visit ds fuel (path ++ [name])) c with
        | ok mid =>
          dsimp only at h
          rw [hmid] at h
          cases h
        | error e' =>
          dsimp only at h
          rw [hmid] at h
          cases h
          obtain ⟨b, hb, c, hvisit⟩ := exists_of_foldlM_eq_error hmid
          refine ih (hds name b hb) (List.concat_eq_append ▸ hnodup.concat hnot) ?_ ?_ ?_ hvisit
          · exact List.append_subset.2 ⟨hpath, List.cons_subset.2 ⟨hname, List.nil_subset _⟩⟩
          · rw [List.append_assoc]
            exact List.isChain_append_cons_cons.2 ⟨hchain, hb, .singleton b⟩
          · rw [List.length_append, List.length_singleton]
            omega

/-! ## The catalogue of definitions -/

/-- A path along declared children is a way down in a catalogue that follows the
    definitions. -/
theorem Follows.exists_above (h : ds.Follows c) {a b : String} (hab : TransGen ds.Child a b)
    {p : Privilege} (hp : p ∈ c.privileges) (hid : p.id = a) :
    ∃ q ∈ c.privileges, q.id = b ∧ p.bundle.Above q.bundle := by
  have hstep {p : Privilege} (hp : p ∈ c.privileges) {b : String} (hb : ds.Child p.id b) :
      ∃ q ∈ c.privileges, q.id = b ∧ p.bundle.Parent q.bundle := by
    rw [Child, ← h.children p hp] at hb
    obtain ⟨x, hx, rfl⟩ := List.mem_map.1 hb
    obtain ⟨q, hq, rfl⟩ := c.closed p hp x hx
    exact ⟨q, hq, rfl, hx⟩
  subst hid
  induction hab with
  | single hb =>
    obtain ⟨q, hq, hid, hpq⟩ := hstep hp hb
    exact ⟨q, hq, hid, .single hpq⟩
  | tail _ hb ih =>
    obtain ⟨q, hq, rfl, hpq⟩ := ih
    obtain ⟨q', hq', hid, hqq'⟩ := hstep hq hb
    exact ⟨q', hq', hid, hpq.tail hqq'⟩

/-- Definitions that a catalogue follows and has all of have no cycle. -/
theorem Follows.acyclic (h : ds.Follows c) (hall : ∀ name ∈ ds.names, c.contains name = true) :
    ds.Acyclic := by
  intro a ha
  -- A name with a child is defined.
  have hname : a ∈ ds.names := by
    obtain ⟨b, hb, _⟩ := TransGen.head'_iff.1 ha
    rw [Child, childrenOf] at hb
    cases hl : ds.lookup a with
    | none => simp [hl] at hb
    | some bs =>
      obtain ⟨_, _, rfl, _⟩ := List.lookup_eq_some_iff.1 hl
      simp [names]
  obtain ⟨p, hp, hid⟩ := Catalogue.contains_iff.1 (hall a hname)
  obtain ⟨q, hq, hid', hpq⟩ := h.exists_above ha hp hid
  have : q = p := Catalogue.eq_of_nodup_map c.nodup hq hp (hid'.trans hid.symm)
  exact absurd (this ▸ Bundle.sizeOf_lt_of_above hpq) (Nat.lt_irrefl _)

/-- The catalogue of definitions has just the privileges that are defined, as they are
    defined. -/
theorem follows_catalogue (hds : ds.Complete) (h : ds.catalogue = .ok c) :
    ds.Follows c ∧ ∀ name, c.contains name = true ↔ name ∈ ds.names := by
  obtain ⟨built, hbuilt, h⟩ := exists_of_bind_eq_ok h
  cases h
  have hgrows : ds.Grows ds.names .empty built :=
    grows_foldlM (fun name hname c c' hc h => grows_visit hds hc hname h) (follows_empty ds) hbuilt
  refine ⟨hgrows.follows.arrange _, fun name => ?_⟩
  rw [Catalogue.contains_iff]
  simp only [Catalogue.mem_arrange]
  constructor
  · rintro ⟨p, hp, rfl⟩
    exact hgrows.follows.defined p hp
  · exact fun hname => Catalogue.contains_iff.1 (hgrows.contains name hname)

/-- A catalogue is built if there is no cycle. Otherwise the construction meets one. -/
theorem catalogue_cases (hds : ds.Complete) :
    (ds.Acyclic ∧ ∃ c, ds.catalogue = .ok c) ∨
      (¬ ds.Acyclic ∧ ∃ walk, ds.catalogue = .error (.cycle walk) ∧ ds.ClosedWalk walk) := by
  cases h : ds.catalogue with
  | ok c =>
    obtain ⟨hfollows, hall⟩ := follows_catalogue hds h
    exact .inl ⟨hfollows.acyclic fun name => (hall name).2, c, rfl⟩
  | error e =>
    rw [catalogue] at h
    cases hbuilt : ds.names.foldlM (visit ds ds.length []) .empty with
    | ok c =>
      rw [hbuilt] at h
      cases h
    | error e' =>
      rw [hbuilt] at h
      cases h
      obtain ⟨name, hname, c, hvisit⟩ := exists_of_foldlM_eq_error hbuilt
      obtain ⟨walk, rfl, hwalk⟩ := exists_walk_of_visit_eq_error hds hname List.nodup_nil
        (List.nil_subset _) (.singleton name) (by simp [names]) hvisit
      refine .inr ⟨fun hacyclic => ?_, walk, rfl, hwalk⟩
      have hvisit (name : String) (hname : name ∈ ds.names) (c : Catalogue) :
          ∃ c', visit ds ds.length [] c name = .ok c' :=
        exists_visit hds hacyclic c hname List.nodup_nil (List.nil_subset _) nofun
          (by simp [names])
      obtain ⟨c', hc'⟩ := exists_foldlM hvisit .empty
      cases hbuilt.symm.trans hc'

end Definitions

end AccessControl
