import AccessControl.Restriction.Basic

/-!
# Sets of restrictions

The restrictions of one side of a decision, or of an entry. Two sets are the same
when they have the same members, even if a member is written differently, and
their members are listed in the order of restrictions. Where a set is formed of
restrictions that are the same, it holds the first of them.

* `same_iff`: sets are the same when membership in them is;
* `mem_merge`: what is in a set after others are merged into it;
* `mem_remove`: what is left after names are removed.
-/

namespace AccessControl

/-- A finite set of restrictions, no two of which are the same. -/
abbrev RestrictionSet := Std.ExtTreeSet Restriction

namespace RestrictionSet

/-- Whether two sets have the same members. -/
def same (rs ss : RestrictionSet) : Bool :=
  rs.toList.all ss.contains && ss.toList.all rs.contains

/-- The set of the given restrictions, all of which must have single values. -/
def ofDrafts (drafts : List RestrictionDraft) : Except Error RestrictionSet := do
  return Std.ExtTreeSet.ofList (← drafts.mapM RestrictionDraft.settle)

/-- The set that holds one restriction. -/
def single (r : Restriction) : RestrictionSet := Std.ExtTreeSet.ofList [r]

/-- Whether a set holds a restriction of a name. Restrictions without a name are
    never taken to be of the same name. -/
def names (rs : RestrictionSet) (name : Option String) : Bool :=
  name.isSome && rs.toList.any fun r => r.name == name

/-- A set with others added, which replace those of the same name. What is in
    both stays as it was. -/
def merge (existing added : RestrictionSet) : RestrictionSet :=
  added ∪ existing.filter fun r => !added.names r.name

/-- A set without the restrictions that have one of the given names. -/
def remove (existing : RestrictionSet) (names : List (Option String)) : RestrictionSet :=
  existing.filter fun r => !names.contains r.name

/-- The drafts of a list that are left when restrictions are merged into it,
    together with these, as a set. What is replaced may be of any kind. -/
def mergeDrafts (existing added : List RestrictionDraft) : Except Error RestrictionSet := do
  let added ← ofDrafts added
  return added ∪ (← ofDrafts (existing.filter fun r => !added.names r.name))

/-- The drafts of a list that have none of the given names, as a set. What is
    removed may be of any kind. -/
def removeDrafts (existing : List RestrictionDraft) (names : List (Option String)) :
    Except Error RestrictionSet :=
  ofDrafts (existing.filter fun r => !names.contains r.name)

/-- The descriptions of the restrictions of a set, in alphabetical order,
    between brackets. -/
def describe (rs : RestrictionSet) : String :=
  "[" ++ Datum.commaSeparated
    ((rs.toList.map fun r => r.draft.describe).mergeSort fun a b => decide (a ≤ b)) ++ "]"

/-! ## Membership -/

theorem mem_of_mem_toList {rs : RestrictionSet} {r : Restriction} (h : r ∈ rs.toList) :
    r ∈ rs := by
  rw [← Std.ExtTreeSet.contains_iff_mem, ← Std.ExtTreeSet.contains_toList]
  exact List.contains_iff_exists_mem_beq.mpr ⟨r, h, BEq.rfl⟩

theorem exists_mem_toList {rs : RestrictionSet} {r : Restriction} (h : r ∈ rs) :
    ∃ s ∈ rs.toList, compare r s = .eq := by
  rw [← Std.ExtTreeSet.contains_iff_mem, ← Std.ExtTreeSet.contains_toList] at h
  obtain ⟨s, hs, e⟩ := List.contains_iff_exists_mem_beq.mp h
  exact ⟨s, hs, Std.compare_eq_iff_beq.mpr e⟩

theorem forall_mem_toList {rs ss : RestrictionSet} :
    (∀ r ∈ rs.toList, r ∈ ss) ↔ ∀ r ∈ rs, r ∈ ss := by
  refine ⟨fun h r hr => ?_, fun h r hr => h r (mem_of_mem_toList hr)⟩
  obtain ⟨s, hs, e⟩ := exists_mem_toList hr
  exact (Std.ExtTreeSet.mem_congr e).mpr (h s hs)

theorem same_iff {rs ss : RestrictionSet} : rs.same ss = true ↔ ∀ r, r ∈ rs ↔ r ∈ ss := by
  simp only [same, Bool.and_eq_true, List.all_eq_true, Std.ExtTreeSet.contains_iff_mem,
    forall_mem_toList]
  exact ⟨fun h r => ⟨h.1 r, h.2 r⟩, fun h => ⟨fun r => (h r).mp, fun r => (h r).mpr⟩⟩

theorem names_iff {rs : RestrictionSet} {name : Option String} :
    rs.names name = true ↔ name ≠ none ∧ ∃ r ∈ rs, r.name = name := by
  simp only [names, Bool.and_eq_true, Option.isSome_iff_ne_none, List.any_eq_true, beq_iff_eq]
  refine and_congr_right fun _ => ⟨fun ⟨r, hr, e⟩ => ⟨r, mem_of_mem_toList hr, e⟩, ?_⟩
  intro ⟨r, hr, e⟩
  obtain ⟨s, hs, same⟩ := exists_mem_toList hr
  exact ⟨s, hs, (RestrictionOf.name_eq_of_compare same).symm.trans e⟩

theorem mem_filter_name {rs : RestrictionSet} (f : Option String → Bool) {r : Restriction} :
    r ∈ rs.filter (fun s => f s.name) ↔ r ∈ rs ∧ f r.name = true := by
  rw [Std.ExtTreeSet.mem_filter]
  have (h : r ∈ rs) : (rs.get r h).name = r.name :=
    RestrictionOf.name_eq_of_compare (Std.ExtTreeSet.compare_get_self h)
  simp only [this, exists_prop]

theorem mem_merge {existing added : RestrictionSet} {r : Restriction} :
    r ∈ existing.merge added ↔
      r ∈ added ∨ r ∈ existing ∧ (r.name = none ∨ ∀ s ∈ added, s.name ≠ r.name) := by
  rw [merge, Std.ExtTreeSet.mem_union_iff, mem_filter_name fun name => !added.names name]
  have : added.names r.name = true ↔ r.name ≠ none ∧ ∃ s ∈ added, s.name = r.name := names_iff
  grind

theorem mem_remove {existing : RestrictionSet} {names : List (Option String)} {r : Restriction} :
    r ∈ existing.remove names ↔ r ∈ existing ∧ r.name ∉ names := by
  rw [remove, mem_filter_name fun name => !names.contains name]
  simp

end RestrictionSet

end AccessControl
