import AccessControl.Restriction.Set

/-!
# Sameness of restriction sets

Sets of restrictions are compared by their members (`RestrictionSet.same`), which
is an equivalence. What is done with sets depends on their members only.

* `same_refl`, `same_symm`, `same_trans`: sameness is an equivalence;
* `same_congr`: sets that are the same are the same as the same sets;
* `merge_congr`, `remove_congr`: merging and removing respect it;
* `mem_ofList_iff`, `compare_of_mem_single`: the members of sets that are formed of lists;
* `merge_empty_same`, `same_merge_empty`: the empty set is neutral;
* `remove_remove_same`: removing names one after the other removes all of them.
-/

namespace AccessControl.RestrictionSet

variable {rs ss ts us : RestrictionSet}

@[simp] theorem same_refl (rs : RestrictionSet) : rs.same rs = true :=
  same_iff.2 fun _ => Iff.rfl

theorem same_symm (h : rs.same ss = true) : ss.same rs = true :=
  same_iff.2 fun r => (same_iff.1 h r).symm

theorem same_trans (h : rs.same ss = true) (h' : ss.same ts = true) : rs.same ts = true :=
  same_iff.2 fun r => (same_iff.1 h r).trans (same_iff.1 h' r)

theorem equivalence_same : Equivalence fun rs ss : RestrictionSet => rs.same ss = true :=
  ⟨same_refl, same_symm, same_trans⟩

theorem same_comm (rs ss : RestrictionSet) : rs.same ss = ss.same rs :=
  Bool.eq_iff_iff.2 ⟨same_symm, same_symm⟩

/-- Whether two sets are the same does not depend on how they are written. -/
theorem same_congr (h : rs.same ss = true) (h' : ts.same us = true) : rs.same ts = ss.same us :=
  Bool.eq_iff_iff.2 ⟨fun e => same_trans (same_symm h) (same_trans e h'),
    fun e => same_trans h (same_trans e (same_symm h'))⟩

/-- What a set holds that is formed of a list is the same as one of the list. -/
theorem mem_ofList_iff {l : List Restriction} {x : Restriction} :
    x ∈ (.ofList l : RestrictionSet) ↔ ∃ y ∈ l, compare x y = .eq := by
  rw [Std.ExtTreeSet.mem_ofList, List.contains_iff_exists_mem_beq]
  simp only [Std.compare_eq_iff_beq]

theorem compare_of_mem_single {x y : Restriction} (h : y ∈ single x) : compare y x = .eq := by
  obtain ⟨z, hz, hyz⟩ := mem_ofList_iff.1 h
  exact List.mem_singleton.1 hz ▸ hyz

/-- Whether there is a set of restrictions, and what it holds, is the same. -/
abbrev Alike (o o' : Option RestrictionSet) : Prop :=
  Option.Rel (fun rs ss : RestrictionSet => rs.same ss = true) o o'

namespace Alike

variable {o o' : Option RestrictionSet}

theorem isSome_eq (h : Alike o o') : o.isSome = o'.isSome := by
  cases h with
  | none => rfl
  | some _ => rfl

theorem symm (h : Alike o o') : Alike o' o := by
  cases h with
  | none => exact .none
  | some h => exact .some (same_symm h)

theorem exists_of_eq_some (h : Alike o o') (ho : o = some rs) :
    ∃ ss, o' = some ss ∧ rs.same ss = true := by
  subst ho
  cases h with
  | some h => exact ⟨_, rfl, h⟩

end Alike

theorem empty_same (rs : RestrictionSet) : RestrictionSet.same ∅ rs = rs.isEmpty := by
  rw [Bool.eq_iff_iff, same_iff, Std.ExtTreeSet.isEmpty_iff,
    Std.ExtTreeSet.eq_empty_iff_forall_not_mem]
  simp [Std.ExtTreeSet.not_mem_empty]

theorem isEmpty_single (restriction : Restriction) : (single restriction).isEmpty = false := by
  simp [single]

theorem merge_congr (h : rs.same ss = true) (h' : ts.same us = true) :
    (rs.merge ts).same (ss.merge us) = true := by
  refine same_iff.2 fun r => ?_
  simp only [mem_merge, same_iff.1 h, same_iff.1 h']

theorem remove_congr (h : rs.same ss = true) (names : List (Option String)) :
    (rs.remove names).same (ss.remove names) = true := by
  refine same_iff.2 fun r => ?_
  simp only [mem_remove, same_iff.1 h]

theorem merge_empty_same (rs : RestrictionSet) :
    (RestrictionSet.merge ∅ rs).same rs = true := by
  refine same_iff.2 fun r => ?_
  rw [mem_merge]
  simp [Std.ExtTreeSet.not_mem_empty]

theorem same_merge_empty (rs : RestrictionSet) : (rs.merge ∅).same rs = true := by
  refine same_iff.2 fun r => ?_
  rw [mem_merge]
  simp [Std.ExtTreeSet.not_mem_empty]

theorem remove_empty (names : List (Option String)) : RestrictionSet.remove ∅ names = ∅ := by
  rw [Std.ExtTreeSet.eq_empty_iff_forall_not_mem]
  intro r
  rw [mem_remove]
  simp [Std.ExtTreeSet.not_mem_empty]

theorem remove_nil_same (rs : RestrictionSet) : (rs.remove []).same rs = true := by
  refine same_iff.2 fun r => ?_
  rw [mem_remove]
  simp

theorem remove_remove_same (rs : RestrictionSet) (names names' : List (Option String)) :
    ((rs.remove names).remove names').same (rs.remove (names ++ names')) = true := by
  refine same_iff.2 fun r => ?_
  simp only [mem_remove, List.mem_append, not_or, and_assoc]

theorem remove_idem_same (rs : RestrictionSet) (names : List (Option String)) :
    ((rs.remove names).remove names).same (rs.remove names) = true := by
  refine same_iff.2 fun r => ?_
  simp only [mem_remove, and_assoc, and_self]

end AccessControl.RestrictionSet
