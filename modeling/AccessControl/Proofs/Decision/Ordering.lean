import AccessControl.Proofs.Decision.SingleSweep
import AccessControl.Proofs.Entry.Partition
import AccessControl.Proofs.Privilege.Reduction

/-!
# From general to specific

An edge leads further down, so an order of privileges by their depths goes along with the graph:
what is above another privilege comes first. A name that is missing from a depth index is put at
the depth that is the size of the index. This is behind all that is not missing, as on a longest
path there are more names than edges.

Indexes are remembered once they are worked out, under the name of the privilege that they start
from, and within a registry it makes no difference whether they are.

* `DepthIndex.rank_lt_of_transGen`: what is below a name of the index is in it, and deeper;
* `DepthMemory.Recalls`: a memory of a registry, which asking it does not change;
* `Registry.LinearExtension`: an order that goes along with the graph;
* `Registry.linearExtension_consult`: the order of depths does so.
-/

namespace AccessControl

open Relation

/-! ## Names further down -/

namespace DepthIndex

variable {r : Registry} {d : DepthIndex} {p : Privilege} {a b c : String}

/-- Missing names are put at the same depth. -/
theorem rank_eq_size (h : a ∉ d) : d.rank a = d.size := by
  rw [rank, Std.ExtTreeMap.getElem?_eq_none h, Option.getD_none]

theorem rank_lt_size (hp : p ∈ r.privileges) (h : a ∈ p.depths) :
    p.depths.rank a < p.depths.size := by
  obtain ⟨i, hi⟩ := mem_iff_exists_getElem?.1 h
  rw [rank_eq_of_getElem? hi]
  exact Registry.lt_size_depths hp hi

theorem rank_lt_of_edge (hp : p ∈ r.privileges) (hb : b ∈ p.depths) (h : r.Edge b c) :
    c ∈ p.depths ∧ p.depths.rank b < p.depths.rank c := by
  obtain ⟨i, j, hi, hj, hlt⟩ := Registry.exists_lt_depths_of_edge hp hb h
  refine ⟨mem_iff_exists_getElem?.2 ⟨j, hj⟩, ?_⟩
  rwa [rank_eq_of_getElem? hi, rank_eq_of_getElem? hj]

/-- What is below a name of the index is in the index, too, and deeper. -/
theorem rank_lt_of_transGen (hp : p ∈ r.privileges) (ha : a ∈ p.depths)
    (h : TransGen r.Edge a c) : c ∈ p.depths ∧ p.depths.rank a < p.depths.rank c := by
  induction h with
  | single hedge => exact rank_lt_of_edge hp ha hedge
  | tail _ hedge ih =>
    obtain ⟨hb, hlt⟩ := ih
    obtain ⟨hc, hlt'⟩ := rank_lt_of_edge hp hb hedge
    exact ⟨hc, hlt.trans hlt'⟩

end DepthIndex

/-! ## Remembered indexes -/

/-- What a memory has of the privileges of a registry are their depth indexes. -/
def DepthMemory.Recalls (r : Registry) (m : DepthMemory) : Prop :=
  ∀ p ∈ r.privileges, ∀ d, m[p.id]? = some d → d = p.depths

namespace DepthMemory

variable {r : Registry} {m : DepthMemory} {p : Privilege} {ps : List Privilege}

/-- At first nothing is remembered. -/
theorem recalls_empty (r : Registry) : Recalls r ∅ := by
  intro p _ d hd
  cases Std.ExtTreeMap.getElem?_empty.symm.trans hd

theorem Recalls.insert (hm : m.Recalls r) (hp : p ∈ r.privileges) :
    Recalls r (m.insert p.id p.depths) := by
  intro q hq d hd
  rw [Std.ExtTreeMap.getElem?_insert] at hd
  split at hd
  next hid =>
    rw [Registry.eq_of_id_eq hq hp (Std.LawfulEqOrd.eq_of_compare hid).symm]
    exact (Option.some.inj hd).symm
  next => exact hm q hq d hd

/-- An index is the same whether it is remembered or not. -/
theorem Recalls.consult_fst (hm : m.Recalls r) (hp : p ∈ r.privileges) :
    (m.consult p).1 = p.depths := by
  rw [consult.eq_def]
  split
  next d hd => exact hm p hp d hd
  next => rfl

/-- The memory that is left can be asked in turn. -/
theorem Recalls.consult_snd (hm : m.Recalls r) (hp : p ∈ r.privileges) :
    Recalls r (m.consult p).2 := by
  rw [consult.eq_def]
  split
  · exact hm
  · exact hm.insert hp

/-- The memory of all privileges of a registry. -/
theorem recalls_ofPrivileges (hps : ∀ p ∈ ps, p ∈ r.privileges) : Recalls r (ofPrivileges ps) := by
  have hfold : ∀ m : DepthMemory, m.Recalls r →
      Recalls r (ps.foldl (fun m p => m.insert p.id p.depths) m) := by
    induction ps with
    | nil => exact fun _ hm => hm
    | cons p ps ih =>
      intro m hm
      exact ih (fun q hq => hps q (List.mem_cons_of_mem _ hq)) _
        (hm.insert (hps p List.mem_cons_self))
  exact hfold ∅ (recalls_empty r)

end DepthMemory

/-! ## Privileges in order -/

/-- Of two places of a list where a relation holds, the first comes before the second. -/
def PutsFirst (R : Privilege → Privilege → Prop) (ps : List Privilege) : Prop :=
  ∀ (i j : Nat) (p q : Privilege), ps[i]? = some p → ps[j]? = some q → R p q → i < j

/-- A list puts first what is smaller, if it is in the order of some numbers. -/
theorem putsFirst_of_pairwise {R : Privilege → Privilege → Prop} {f : Privilege → Int}
    {ps : List Privilege} (hps : ps.Pairwise fun p q => f p ≤ f q)
    (hR : ∀ p ∈ ps, ∀ q ∈ ps, R p q → f p < f q) : PutsFirst R ps := by
  intro i j p q hi hj hpq
  have hlt := hR p (List.mem_of_getElem? hi) q (List.mem_of_getElem? hj) hpq
  obtain ⟨hilt, rfl⟩ := List.getElem?_eq_some_iff.1 hi
  obtain ⟨hjlt, rfl⟩ := List.getElem?_eq_some_iff.1 hj
  rcases Nat.lt_trichotomy i j with hij | rfl | hji
  · exact hij
  · exact absurd hlt (lt_irrefl _)
  · exact absurd (List.pairwise_iff_getElem.1 hps j i hjlt hilt hji) (not_le.2 hlt)

namespace Registry

variable {r : Registry} {d : DepthIndex} {m : DepthMemory} {p q : Privilege}
  {ps : List Privilege}

theorem mem_aggregatesByDepth_iff :
    q ∈ r.aggregatesByDepth d ↔ q ∈ r.privileges ∧ q.isAggregate = true ∧ q.id ∈ d := by
  rw [aggregatesByDepth, List.mem_mergeSort, List.mem_filter, aggregates, List.mem_filter,
    Std.ExtTreeMap.contains_iff_mem, and_assoc]

theorem nodup_aggregatesByDepth (r : Registry) (d : DepthIndex) :
    (r.aggregatesByDepth d).Nodup :=
  (List.mergeSort_perm _ _).nodup_iff.2
    (((List.Nodup.of_map _ r.catalogue.nodup).filter _).filter _)

/-! ## Main result -/

/-- The order of an index goes along with the graph, and what is missing comes last. -/
structure LinearExtension (r : Registry) (d : DepthIndex) : Prop where
  /-- A depth is smaller than the number of names. -/
  depth_lt : ∀ (k : String) (i : Int), d[k]? = some i → 0 ≤ i ∧ i < d.size
  /-- Sorting neither adds nor loses a privilege. -/
  perm : ∀ ps, (d.sort ps).Perm ps
  /-- What is in the index comes before what is not. -/
  missing_last : ∀ ps, PutsFirst (fun p q => p.id ∈ d ∧ q.id ∉ d) (d.sort ps)
  /-- In the index, what is above comes before what is below. -/
  above_first : ∀ ps,
    PutsFirst (fun p q => p.id ∈ d ∧ q.id ∈ d ∧ TransGen r.Edge p.id q.id) (d.sort ps)
  /-- The aggregates in the index are listed, … -/
  mem_aggregates : ∀ q, q ∈ r.aggregatesByDepth d ↔
    q ∈ r.privileges ∧ q.isAggregate = true ∧ q.id ∈ d
  /-- … once each, … -/
  nodup_aggregates : (r.aggregatesByDepth d).Nodup
  /-- … and what is below comes before what is above. -/
  below_first : PutsFirst (fun p q => TransGen r.Edge q.id p.id) (r.aggregatesByDepth d)

theorem linearExtension_depths (hp : p ∈ r.privileges) : LinearExtension r p.depths where
  depth_lt k i h := by
    obtain ⟨n, rfl, _⟩ := (depths_eq_some_iff_isGreatest hp).1 h
    exact ⟨Int.natCast_nonneg n, lt_size_depths hp h⟩
  perm ps := List.mergeSort_perm ps _
  missing_last ps := by
    refine putsFirst_of_pairwise (p.depths.pairwise_rank_sort ps) fun a _ b _ ⟨ha, hb⟩ => ?_
    rw [DepthIndex.rank_eq_size hb]
    exact DepthIndex.rank_lt_size hp ha
  above_first ps :=
    putsFirst_of_pairwise (p.depths.pairwise_rank_sort ps) fun _ _ _ _ ⟨ha, _, hab⟩ =>
      (DepthIndex.rank_lt_of_transGen hp ha hab).2
  mem_aggregates _ := mem_aggregatesByDepth_iff
  nodup_aggregates := nodup_aggregatesByDepth r _
  below_first := by
    -- Deepest first is the order of the depths with the sign changed.
    have hdesc := (r.pairwise_aggregatesByDepth p.depths).imp fun {_ _} h => Int.neg_le_neg h
    refine putsFirst_of_pairwise hdesc fun a _ b hb hba => ?_
    exact Int.neg_lt_neg
      (DepthIndex.rank_lt_of_transGen hp (mem_aggregatesByDepth_iff.1 hb).2.2 hba).2

/-- The depth index of a privilege, remembered or not, orders privileges along the graph, with
    those that are missing from it last; and it is the same when it is asked for again. -/
theorem linearExtension_consult (hm : m.Recalls r) (hp : p ∈ r.privileges) :
    LinearExtension r (m.consult p).1 ∧ (m.consult p).2.Recalls r := by
  refine ⟨?_, hm.consult_snd hp⟩
  rw [hm.consult_fst hp]
  exact linearExtension_depths hp

/-- Below an aggregate of the diamond there are two leaves, which come after it. What is beside
    the aggregate or above it is missing from the index, and comes last. -/
theorem linearExtension_consult_diamond :
    let memory := DepthMemory.ofPrivileges diamond.privileges
    (memory.Recalls diamond ∧ DecisionMap.viewPrivilege ∈ diamond.privileges) ∧
      LinearExtension diamond (memory.consult DecisionMap.viewPrivilege).1 ∧
      ((memory.consult DecisionMap.viewPrivilege).1.sort diamond.privileges).map (·.id) =
        ["doc:view", "doc:read", "doc:share", "doc:all", "doc:edit", "doc:write"] := by
  intro memory
  have hmemory : memory.Recalls diamond := DepthMemory.recalls_ofPrivileges fun _ hp => hp
  have hmem : DecisionMap.viewPrivilege ∈ diamond.privileges :=
    Catalogue.mem_of_get? (Option.some_get _).symm
  refine ⟨⟨hmemory, hmem⟩, (linearExtension_consult hmemory hmem).1, ?_⟩
  rw [DepthIndex.sort_eq]
  decide +kernel

end Registry

end AccessControl
