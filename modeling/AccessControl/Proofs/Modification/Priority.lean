import AccessControl.Proofs.Decision.Granting
import AccessControl.Proofs.Decision.Ordering
import AccessControl.Proofs.Modification.Asking

/-!
# The most specific privilege wins

A request goes through the privileges that it mentions from general to specific, and through
the values of each from the weakest to the strongest one. So what becomes of a leaf is told by
the privileges that cover it, and the last value of the most specific one of them is in force
in the end. Of what is not covered nothing changes. Nor does anything change in the result if
the parameters, or the values in their lists, come in another order or are repeated.

* `PrivilegeValue.holdsIn_act`: a value brings about what it says;
* `Registry.sublist_mentioned`: a privilege comes before what is below it;
* `Edit.replay_askedEdits`: a request, seen from a leaf;
* `Registry.LeadsTo`: what a request makes of decisions;
* `Registry.SpecificWins`, `Registry.exists_specificWins`: the most specific privilege wins.
-/

namespace AccessControl

/-! ## Values in force -/

namespace PrivilegeValue

/-- What a value says is in force: a side of the decision, or no decision. -/
def HoldsIn (v : PrivilegeValue) (o : Option Decision) : Prop :=
  match v with
  | allow | granted => ∃ d, o = some d ∧ d.allow.active = true
  | none => o = Option.none
  | denied | deny => ∃ d, o = some d ∧ d.deny.active = true

theorem holdsIn_act (v : PrivilegeValue) (rs : RestrictionSet) (o : Option Decision) :
    v.HoldsIn ((v.operation rs).act o) := by
  cases v with
  | allow | granted => exact ⟨_, rfl, Decision.active_grant _ .allow rs⟩
  | none => rfl
  | denied | deny => exact ⟨_, rfl, Decision.active_grant _ .deny rs⟩

end PrivilegeValue

namespace Amendment

variable {rs : RestrictionSet} {vs ws : List PrivilegeValue} {o : Option Decision}

/-- The last one of several values is in force after them. -/
theorem holdsIn_replay {v : PrivilegeValue} (h : vs.getLast? = some v) :
    v.HoldsIn (replay rs vs o) := by
  obtain ⟨ws, rfl⟩ := List.getLast?_eq_some_iff.1 h
  rw [replay_append]
  exact v.holdsIn_act rs _

/-- Values for several privileges, one privilege after the other. -/
theorem foldl_replay (f : Privilege → List PrivilegeValue) (ps : List Privilege) :
    ps.foldl (fun o p => replay rs (f p) o) o = replay rs (ps.flatMap f) o := by
  induction ps generalizing o with
  | nil => rfl
  | cons p ps ih => rw [List.foldl_cons, ih, List.flatMap_cons, replay_append]

end Amendment

/-! ## From general to specific -/

/-- In a list in order, what does not come after something else comes before it. -/
theorem pair_sublist_of_pairwise {α : Type} {R : α → α → Prop} {l : List α} (hl : l.Pairwise R)
    {a b : α} (ha : a ∈ l) (hb : b ∈ l) (hne : a ≠ b) (hba : ¬ R b a) : [a, b].Sublist l := by
  induction l with
  | nil => cases ha
  | cons c l ih =>
    rw [List.pairwise_cons] at hl
    rcases List.mem_cons.1 ha with rfl | ha'
    · have hb' : b ∈ l := (List.mem_cons.1 hb).resolve_left (Ne.symm hne)
      exact .cons_cons a (List.singleton_sublist.2 hb')
    · rcases List.mem_cons.1 hb with rfl | hb'
      · exact absurd (hl.1 a ha') hba
      · exact .cons c (ih hl.2 ha' hb')

namespace Registry

variable {r : Registry} {d : DepthIndex} {parameters : List (String × Datum)}
  {p q : Privilege} {leaf : String}

/-- A privilege comes before what is below it. -/
theorem sublist_mentioned (hp : p ∈ r.mentioned r.depths parameters)
    (hq : q ∈ r.mentioned r.depths parameters) (hdepth : p.id ∈ r.depths)
    (h : q.id ∈ p.descendants) : [p, q].Sublist (r.mentioned r.depths parameters) := by
  have hbelow := (mem_descendants_iff (mem_mentioned_iff.1 hp).1).1 h
  have hlt := (DepthIndex.rank_lt_of_transGen r.root_mem hdepth hbelow).2
  refine pair_sublist_of_pairwise (DepthIndex.pairwise_sort _ _) hp hq ?_
    (DepthIndex.not_precedes_of_rank_lt _ hlt)
  rintro rfl
  exact lt_irrefl _ hlt

/-- The privileges that parameters mention and that cover a leaf, general ones first. -/
def concerned (r : Registry) (d : DepthIndex) (parameters : List (String × Datum))
    (leaf : String) : List Privilege := (r.mentioned d parameters).filter (·.covers leaf)

theorem mem_concerned_iff : p ∈ r.concerned d parameters leaf ↔
    p ∈ r.privileges ∧ Parameter.mentions parameters p.id = true ∧ p.covers leaf = true := by
  rw [concerned, List.mem_filter, mem_mentioned_iff, and_assoc]

/-- They are listed once each. -/
theorem pairwise_concerned (r : Registry) (d : DepthIndex) (parameters : List (String × Datum))
    (leaf : String) :
    (r.concerned d parameters leaf).Pairwise fun p q => d.order p.id q.id = .lt := by
  have hnodup : (r.mentioned d parameters).Nodup :=
    (List.mergeSort_perm _ _).nodup_iff.2 ((List.Nodup.of_map _ r.catalogue.nodup).filter _)
  refine .filter _ (((d.pairwise_sort _).and hnodup).imp_of_mem fun {p q} hp hq hpq => ?_)
  refine d.order_eq_lt hpq.1 fun hid => hpq.2 ?_
  exact eq_of_id_eq (mem_mentioned_iff.1 hp).1 (mem_mentioned_iff.1 hq).1 hid

end Registry

/-! ## A request, seen from a leaf -/

/-- One privilege after the other does with a leaf that it covers what its values say. -/
theorem Edit.replay_askedEdits (r : Registry) (d : DepthIndex)
    (parameters : List (String × Datum)) (leaf : String) (o : Option Decision) :
    replay ((r.askedEdits d parameters).filter (·.covers leaf)) o =
      (r.concerned d parameters leaf).foldl (fun o p =>
        Amendment.replay ∅ (Parameter.strongestLast parameters p.id) o) o := by
  rw [Registry.askedEdits, Registry.concerned]
  induction r.mentioned d parameters generalizing o with
  | nil => rfl
  | cons p ps ih =>
    have hp : ((Parameter.strongestLast parameters p.id).map fun v =>
        (⟨v.operation ∅, some p⟩ : Edit)).filter (·.covers leaf) = if p.covers leaf then
          (Parameter.strongestLast parameters p.id).map fun v => ⟨v.operation ∅, some p⟩
        else [] := by
      rw [List.filter_map]
      cases h : p.covers leaf <;> simp [Function.comp_def, covers, h]
    rw [List.flatMap_cons, List.filter_append, hp, replay, List.foldl_append, ← replay, ← replay,
      ih, List.filter_cons]
    split
    · rw [List.foldl_cons, replay, List.foldl_map, Amendment.replay]
    · rfl

/-! ## Main result -/

theorem DecisionMap.IsLeafMap.onAtoms {r : Registry} {m : DecisionMap} (hm : m.IsLeafMap r) :
    m.OnAtoms where
  atomic p hp := Registry.eq_atomic (hm.atomic p hp).1 (hm.atomic p hp).2
  sound := hm.sound

namespace Registry

variable {r : Registry} {known : Vocabulary} {parameters parameters' : List (String × Datum)}
  {m n : DecisionMap}

/-- What a request makes of decisions: its parameters are read, and what they ask for is
    planned and carried out to the end. -/
def LeadsTo (r : Registry) (known : Vocabulary) (parameters : List (String × Datum))
    (m n : DecisionMap) : Prop :=
  ∃ modifications, (Modifications.ofParameters parameters).result = .ok modifications ∧
    m.carryOut (modifications.plan r known r.depths) = (n, none)

/-- The decisions after a request, told leaf by leaf from those before it. -/
structure SpecificWins (r : Registry) (parameters : List (String × Datum))
    (m n : DecisionMap) : Prop where
  /-- The privileges that are mentioned and cover the leaf come one after the other, and each of
      them does with it what its different values say, from the weakest to the strongest. -/
  replayed : ∀ leaf, n.get? leaf = (r.concerned r.depths parameters leaf).foldl (fun o p =>
    Amendment.replay ∅ (Parameter.strongestLast parameters p.id) o) (m.get? leaf)
  /-- These are all such privileges. -/
  concerned_iff : ∀ leaf p, p ∈ r.concerned r.depths parameters leaf ↔
    p ∈ r.privileges ∧ Parameter.mentions parameters p.id = true ∧ p.covers leaf = true
  /-- They come in the order of their depths and names. -/
  ordered : ∀ leaf, (r.concerned r.depths parameters leaf).Pairwise fun p q =>
    r.depths.order p.id q.id = .lt
  /-- Of those in the depth index, what is below a privilege comes after it. -/
  later : ∀ leaf, ∀ p ∈ r.concerned r.depths parameters leaf,
    ∀ q ∈ r.concerned r.depths parameters leaf, p.id ∈ r.depths → q.id ∈ r.depths →
      q.id ∈ p.descendants → [p, q].Sublist (r.concerned r.depths parameters leaf)
  /-- The last value of the last privilege that has one is in force in the end. -/
  last : ∀ leaf before p after v, r.concerned r.depths parameters leaf = before ++ p :: after →
    (∀ q ∈ after, Parameter.strongestLast parameters q.id = []) →
      (Parameter.strongestLast parameters p.id).getLast? = some v → v.HoldsIn (n.get? leaf)
  /-- A leaf that no privilege covers which is mentioned is left alone. -/
  kept : ∀ leaf, (∀ p ∈ r.privileges, Parameter.mentions parameters p.id = true →
    p.covers leaf = false) → n.get? leaf = m.get? leaf

theorem specificWins_of_replayed
    (h : ∀ leaf, n.get? leaf = Edit.replay ((r.askedEdits r.depths parameters).filter
      (·.covers leaf)) (m.get? leaf)) : r.SpecificWins parameters m n := by
  have hreplay (leaf : String) := (h leaf).trans (Edit.replay_askedEdits r r.depths parameters
    leaf (m.get? leaf))
  refine ⟨hreplay, fun _ _ => mem_concerned_iff, pairwise_concerned r _ parameters,
    fun leaf p hp q hq hdepth _ hbelow => ?_, fun leaf before p after v hl hafter hv => ?_,
    fun leaf hnone => ?_⟩
  · obtain ⟨hp, hpcov⟩ := List.mem_filter.1 hp
    obtain ⟨hq, hqcov⟩ := List.mem_filter.1 hq
    have hsublist := (sublist_mentioned hp hq hdepth hbelow).filter (·.covers leaf)
    have hself : [p, q].filter (·.covers leaf) = [p, q] :=
      List.filter_eq_self.2 (by simp [hpcov, hqcov])
    rwa [hself] at hsublist
  · -- What comes after the privilege has no values, and leaves the decision as it is.
    have hrest (o : Option Decision) : after.foldl (fun o q =>
        Amendment.replay ∅ (Parameter.strongestLast parameters q.id) o) o = o := by
      rw [Amendment.foldl_replay (fun q => Parameter.strongestLast parameters q.id),
        List.flatMap_eq_nil_iff.2 hafter]
      rfl
    rw [hreplay, hl, List.foldl_append, List.foldl_cons, hrest]
    exact Amendment.holdsIn_replay hv
  · have hnil : r.concerned r.depths parameters leaf = [] := by
      refine List.eq_nil_iff_forall_not_mem.2 fun p hp => ?_
      obtain ⟨hp, hmentions, hcovers⟩ := mem_concerned_iff.1 hp
      rw [hnone p hp hmentions] at hcovers
      cases hcovers
    rw [hreplay, hnil, List.foldl_nil]

/-- A request that only says what is done with privileges of a registry can be carried out, and
    the most specific privilege that covers a leaf wins. It leads to the same if the parameters,
    or the values in their lists, come in another order or are repeated. -/
theorem exists_specificWins (h : ∀ q ∈ parameters, Parameter.Decides r q) (known : Vocabulary)
    (hm : m.OnAtoms) : ∃ n, r.LeadsTo known parameters m n ∧ r.SpecificWins parameters m n ∧
      ∀ parameters', Corresponds Parameter.SaysSame parameters parameters' →
        r.LeadsTo known parameters' m n := by
  obtain ⟨modifications, hread, hplan⟩ := exists_plan h known r.depths
  obtain ⟨n, hn, hget⟩ := hm.exists_carryOut (r.within_askedEdits r.depths parameters)
  refine ⟨n, ⟨modifications, hread, hplan ▸ hn⟩, specificWins_of_replayed hget,
    fun parameters' hsame => ?_⟩
  have h' : ∀ q' ∈ parameters', Parameter.Decides r q' := by
    intro q' hq'
    obtain ⟨q, hq, hqq'⟩ := hsame.back q' hq'
    exact hqq'.decides (h q hq)
  obtain ⟨modifications', hread', hplan'⟩ := exists_plan h' known r.depths
  exact ⟨modifications', hread', by rw [hplan', ← askedEdits_congr hsame, hn]⟩

/-- All of the diamond is denied, reading and sharing are allowed, and what is said of sharing is
    taken back. -/
def layered : List (String × Datum) :=
  [("privilege@doc:share", .text "none"),
    ("privilege@doc:view", .list [.text "Allow", .text "denied", .text "read"]),
    ("privilege@doc:all", .text " deny ")]

theorem decides_layered : ∀ q ∈ layered, Parameter.Decides diamond q := by
  have hknown : ∀ name ∈ ["doc:share", "doc:view", "doc:all"], diamond.contains name = true := by
    decide +kernel
  intro q hq
  simp only [layered, List.mem_cons, List.not_mem_nil, or_false] at hq
  rcases hq with rfl | rfl | rfl
  · exact Parameter.decides_of_contains (Datum.legible_text _) (by decide +kernel)
      (hknown "doc:share" (by simp))
  · exact Parameter.decides_of_contains (Datum.legible_texts ["Allow", "denied", "read"])
      (by decide +kernel)
      (hknown "doc:view" (by simp))
  · exact Parameter.decides_of_contains (Datum.legible_text _) (by decide +kernel)
      (hknown "doc:all" (by simp))

/-- The parameters may as well come the other way round. -/
theorem exists_specificWins_layered :
    (∀ q ∈ layered, Parameter.Decides diamond q) ∧ DecisionMap.guarded.OnAtoms ∧
      ∃ n, diamond.LeadsTo .standard layered .guarded n ∧
        diamond.SpecificWins layered .guarded n ∧
        diamond.LeadsTo .standard layered.reverse .guarded n := by
  have hguarded := DecisionMap.reachable_guarded.isLeafMap.onAtoms
  obtain ⟨n, hn, hwins, hsame⟩ := exists_specificWins decides_layered .standard hguarded
  refine ⟨decides_layered, hguarded, n, hn, hwins, hsame _ ⟨fun q hq => ?_, fun q hq => ?_⟩⟩
  · exact ⟨q, List.mem_reverse.2 hq, .refl (decides_layered q hq).legible⟩
  · exact ⟨q, List.mem_reverse.1 hq, .refl (decides_layered q (List.mem_reverse.1 hq)).legible⟩

end Registry

end AccessControl
