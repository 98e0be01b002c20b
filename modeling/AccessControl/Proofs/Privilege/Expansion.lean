import AccessControl.Proofs.Distinct
import AccessControl.Proofs.Privilege.Reduction

/-!
# Leaves in the order of a walk

Whoever goes down from left to right, from every name to its children first, meets a name as
often as there are ways to it. The leaves of an aggregate are put together from those of its
children instead, and every aggregate drops what its children have in common. In the end nothing
can be told of this: leaves are the atomic privileges in the order in which the walk meets them
for the first time.

* `Registry.Walks`: going down from left to right;
* `Registry.Walks.mem_iff`: what is met on the way is what paths lead to;
* `Registry.exists_walks`: leaves and the walk agree in what they meet first;
* `Registry.expand_firstMet`: privileges resolve into the leaves that the walk meets.
-/

namespace AccessControl

namespace Registry

open Relation

variable {r : Registry} {p : Privilege} {ps : List Privilege} {k : String}
  {ks met : List String}

/-! ## The walk -/

/-- A walk from left to right, which goes down from every name to its children before it goes on
    to the next name. It lists the names as they are met, and as often as they are met. -/
inductive Walks (r : Registry) : List String → List String → Prop
  /-- There is no further name. -/
  | done : Walks r [] []
  /-- A name is met, then what is below it, and then what comes after it. -/
  | meet {k : String} {ks : List String} {p : Privilege} {below rest : List String} :
      r.get? k = some p → Walks r p.children below → Walks r ks rest →
      Walks r (k :: ks) (k :: (below ++ rest))

namespace Walks

/-- There is only one way to walk. -/
theorem unique {met' : List String} (h : r.Walks ks met) (h' : r.Walks ks met') : met = met' := by
  induction h generalizing met' with
  | done =>
    cases h'
    rfl
  | meet hp _ _ ihbelow ihrest =>
    cases h' with
    | meet hp' hbelow hrest =>
      obtain rfl := Option.some.inj (hp.symm.trans hp')
      rw [ihbelow hbelow, ihrest hrest]

/-- What is met is what paths lead to. -/
theorem mem_iff (h : r.Walks ks met) : k ∈ met ↔ ∃ a ∈ ks, ReflTransGen r.Edge a k := by
  induction h with
  | done => simp
  | @meet a ks p below rest hp _ _ ihbelow ihrest =>
    have hbelow : (∃ c ∈ p.children, ReflTransGen r.Edge c k) ↔
        ∃ c, r.Edge a c ∧ ReflTransGen r.Edge c k := by
      refine exists_congr fun c => and_congr_left fun _ => ⟨fun hc => ⟨p, hp, hc⟩, ?_⟩
      rintro ⟨q, hq, hc⟩
      obtain rfl := Option.some.inj (hp.symm.trans hq)
      exact hc
    rw [List.mem_cons, List.mem_append, ihbelow, ihrest, hbelow, List.exists_mem_cons_iff,
      ReflTransGen.cases_head_iff, or_assoc, eq_comm]

end Walks

/-! ## Leaves on the way -/

/-- Whether a name is that of an atomic privilege. -/
def isAtomic (r : Registry) (k : String) : Bool := (r.get? k).any fun p => !p.isAggregate

theorem Holds.isAtomic_eq {b : Bundle} (hb : r.Holds b) : r.isAtomic b.id = !b.isAggregate := by
  obtain ⟨p, hp, rfl⟩ := hb
  have hget : r.get? p.bundle.id = some p := get?_eq_some_iff.2 ⟨hp, rfl⟩
  rw [isAtomic, hget, Option.any_some, Privilege.isAggregate]

theorem isAtomic_iff : r.isAtomic k = true ↔ ∃ p, r.get? k = some p ∧ p.isAggregate = false := by
  rw [isAtomic, Option.any_eq_true]
  simp

/-- If this is so below each of some bundles, walking along all of them meets their leaves. -/
theorem exists_walks_of_children {bs : List Bundle} (hbs : ∀ b ∈ bs, r.Holds b)
    (ih : ∀ b ∈ bs, ∃ below ls, r.Walks (b.children.map Bundle.id) below ∧
      b.leaves? = some ls ∧
      ls.eraseDups = ((b.id :: below).filter r.isAtomic).eraseDups) :
    ∃ met ls, r.Walks (bs.map Bundle.id) met ∧ Bundle.leavesOfAll? bs = some ls ∧
      ls.eraseDups = (met.filter r.isAtomic).eraseDups := by
  induction bs with
  | nil => exact ⟨[], [], .done, rfl, rfl⟩
  | cons b bs ihbs =>
    obtain ⟨below, ls, hbelow, hls, hfirst⟩ := ih b List.mem_cons_self
    obtain ⟨rest, ms, hrest, hms, hfirst'⟩ := ihbs (fun c hc => hbs c (List.mem_cons_of_mem _ hc))
      fun c hc => ih c (List.mem_cons_of_mem _ hc)
    obtain ⟨p, hp, rfl⟩ := hbs b List.mem_cons_self
    refine ⟨p.id :: (below ++ rest), ls ++ ms,
      .meet (get?_eq_some_iff.2 ⟨hp, rfl⟩) hbelow hrest, ?_, ?_⟩
    · rw [Bundle.leavesOfAll?, hls, hms]
      rfl
    · rw [← List.cons_append, List.filter_append]
      exact eraseDups_append_congr hfirst hfirst'

/-- Below a bundle, its leaves and the walk agree in what they meet first. -/
theorem exists_walks_below {b : Bundle} (hb : r.Holds b) :
    ∃ below ls, r.Walks (b.children.map Bundle.id) below ∧ b.leaves? = some ls ∧
      ls.eraseDups = ((b.id :: below).filter r.isAtomic).eraseDups := by
  induction b using Bundle.descent with
  | step b ih =>
    have hatomic := hb.isAtomic_eq
    cases b with
    | atomic id =>
      refine ⟨[], [id], .done, by rw [Bundle.leaves?], ?_⟩
      rw [List.filter_cons_of_pos (by rw [hatomic]; rfl), List.filter_nil]
      rfl
    | nominal id =>
      obtain ⟨p, hp, hbundle⟩ := hb
      have hleaves := leaves?_isSome hp
      rw [hbundle, Bundle.leaves?] at hleaves
      cases hleaves
    | aggregate id bs =>
      obtain ⟨below, ls, hbelow, hls, hfirst⟩ :=
        exists_walks_of_children (fun c hc => hb.parent hc) fun c hc => ih c hc (hb.parent hc)
      have hleaves : (Bundle.aggregate id bs).leaves? = some ls.eraseDups := by
        rw [Bundle.leaves?]
        exact congrArg (Option.map List.eraseDups) hls
      refine ⟨below, ls.eraseDups, hbelow, hleaves, ?_⟩
      -- The aggregate itself is no leaf, and what is kept once is kept when it is looked at again.
      rw [List.filter_cons_of_neg (by simp [hatomic, Bundle.isAggregate]), ← hfirst]
      exact eraseDups_of_nodup (Catalogue.nodup_eraseDups ls)

/-- Privileges of a registry have leaves, and these agree with the walk in what they meet first. -/
theorem exists_walks (hps : ∀ p ∈ ps, p ∈ r.privileges) :
    ∃ met, r.Walks (ps.map (·.id)) met ∧
      Privilege.expand ps = .ok (met.filter r.isAtomic).eraseDups := by
  have hholds : ∀ b ∈ ps.map Privilege.bundle, r.Holds b := by
    intro b hb
    obtain ⟨p, hp, rfl⟩ := List.mem_map.1 hb
    exact ⟨p, hps p hp, rfl⟩
  obtain ⟨met, ls, hmet, hls, hfirst⟩ :=
    exists_walks_of_children hholds fun b hb => exists_walks_below (hholds b hb)
  rw [List.map_map] at hmet
  rw [← Privilege.leavesOfAll?_eq] at hls
  exact ⟨met, hmet, hfirst ▸ Privilege.expand_of_leavesOfAll? hls⟩

/-! ## Main result -/

/-- Names are the leaves of some privileges in the order in which they are met first. -/
structure FirstMet (r : Registry) (ps : List Privilege) (ls : List String) : Prop where
  /-- They are the names of the atomic privileges that a path of any number of edges leads to. -/
  mem_iff : ∀ k, k ∈ ls ↔ (∃ q, r.get? k = some q ∧ q.isAggregate = false) ∧
    ∃ p ∈ ps, ReflTransGen r.Edge p.id k
  /-- None of them is repeated. -/
  nodup : ls.Nodup
  /-- A walk along the privileges comes to an end, and what is met first comes first. -/
  order : ∃ met, (∀ met', r.Walks (ps.map (·.id)) met' ↔ met' = met) ∧
    ls.Pairwise fun a b => met.idxOf a < met.idxOf b

/-- The privileges of a registry resolve into leaves in the order in which they are met first,
    and below each of them are the privileges that a path of one or more edges leads to. -/
theorem expand_firstMet (hps : ∀ p ∈ ps, p ∈ r.privileges) :
    (∃ ls, Privilege.expand ps = .ok ls ∧ r.FirstMet ps ls) ∧
      ∀ p ∈ r.privileges, ∀ k, k ∈ p.descendants ↔ TransGen r.Edge p.id k := by
  obtain ⟨met, hmet, hls⟩ := exists_walks hps
  refine ⟨⟨_, hls, ?_, Catalogue.nodup_eraseDups _, met, fun met' => ?_, ?_⟩,
    fun p hp k => mem_descendants_iff hp⟩
  · intro k
    rw [List.mem_eraseDups, List.mem_filter, isAtomic_iff, hmet.mem_iff, and_comm]
    simp
  · constructor
    · exact fun h => h.unique hmet
    · rintro rfl
      exact hmet
  · rw [eraseDups_filter]
    exact (pairwise_idxOf_eraseDups met).filter _

/-- The two aggregates of the diamond have a leaf in common, which the walk meets on its way
    through the first one. One of them is listed twice. -/
theorem expand_firstMet_diamond :
    let ps := ["doc:edit", "doc:view", "doc:edit"].filterMap diamond.get?
    (∀ p ∈ ps, p ∈ diamond.privileges) ∧
      (∃ ls, Privilege.expand ps = .ok ls ∧ diamond.FirstMet ps ls) ∧
      Privilege.expand ps = .ok ["doc:write", "doc:share", "doc:read"] := by
  intro ps
  have hps : ∀ p ∈ ps, p ∈ diamond.privileges := fun p hp => by
    obtain ⟨_, _, hget⟩ := List.mem_filterMap.1 hp
    exact Catalogue.mem_of_get? hget
  exact ⟨hps, (expand_firstMet hps).1, by decide +kernel⟩

end Registry

end AccessControl
