import AccessControl.Proofs.Restriction.Sameness
import AccessControl.Proofs.Success
import AccessControl.Restriction.Provider

/-!
# Merging and removing

A set of restrictions is changed by merging others into it, which replace all that has one of
their names, and by removing names. Restrictions without a name are apart: what is merged does
not replace them, nor do they replace anything, but they are removed like all others if that is
asked for.

Both changes are told restriction by restriction, and depend on no more than which names a set
has (`names_merge`, `names_remove`). So they obey the laws of overriding, up to sameness: sets
can be merged in any grouping, what is merged twice is merged once, and removing goes through
merging. In which order two sets are merged makes a difference for the names that are in both,
unless the sets have the same restrictions of these.

* `mem_merge_iff_names`: what is in a set after others are merged into it;
* `merge_assoc_same`, `merge_merge_same`, `remove_merge_same`: the laws of merging;
* `merge_comm_same_iff`: when two sets can be merged in either order;
* `exists_mergeDrafts`, `exists_removeDrafts`: restrictions that are listed as drafts;
* `laws_merge_remove`: the laws put together.
-/

namespace AccessControl

theorem RestrictionOf.settle_draft (r : Restriction) : r.draft.settle = .ok r := by
  have hvalues : Datum.singles (r.values.map .scalar) = .ok (r.values.map id) := by
    rw [Datum.singles, List.mapM_map]
    exact mapM_eq_ok_map fun _ _ => rfl
  rw [List.map_id] at hvalues
  rw [draft, RestrictionDraft.settle, hvalues]
  rfl

namespace RestrictionSet

variable {rs ss ts : RestrictionSet} {r : Restriction} {name : Option String}

/-! ## Names -/

theorem names_congr (h : rs.same ss = true) (name : Option String) :
    rs.names name = ss.names name := by
  rw [Bool.eq_iff_iff, names_iff, names_iff]
  simp only [same_iff.1 h]

@[simp] theorem names_empty (name : Option String) : RestrictionSet.names ∅ name = false := by
  rw [← Bool.not_eq_true, names_iff]
  rintro ⟨_, x, hx, _⟩
  exact Std.ExtTreeSet.not_mem_empty hx

@[simp] theorem names_none (rs : RestrictionSet) : rs.names none = false := rfl

/-- A set has no names but those of the restrictions that it is formed of. -/
theorem names_ofList {l : List Restriction} (h : ∀ x ∈ l, x.name ≠ name) :
    RestrictionSet.names (Std.ExtTreeSet.ofList l) name = false := by
  rw [← Bool.not_eq_true, names_iff]
  rintro ⟨_, x, hx, rfl⟩
  obtain ⟨y, hy, hsame⟩ := mem_ofList_iff.1 hx
  exact h y hy (RestrictionOf.name_eq_of_compare hsame).symm

theorem names_single {restriction : Restriction} (h : restriction.name ≠ name) :
    (single restriction).names name = false :=
  names_ofList (List.forall_mem_singleton.2 h)

/-- What is merged into a set replaces what has the same name, so no name is lost. -/
theorem names_merge (rs ss : RestrictionSet) (name : Option String) :
    (rs.merge ss).names name = (rs.names name || ss.names name) := by
  rw [Bool.eq_iff_iff, Bool.or_eq_true, names_iff, names_iff, names_iff, ← and_or_left]
  refine and_congr_right fun hname => ?_
  simp only [mem_merge]
  constructor
  · rintro ⟨x, hx | ⟨hx, _⟩, rfl⟩
    · exact .inr ⟨x, hx, rfl⟩
    · exact .inl ⟨x, hx, rfl⟩
  · rintro (⟨x, hx, rfl⟩ | ⟨x, hx, rfl⟩)
    · by_cases hreplaced : ∃ y ∈ ss, y.name = x.name
      · obtain ⟨y, hy, hyx⟩ := hreplaced
        exact ⟨y, .inl hy, hyx⟩
      · exact ⟨x, .inr ⟨hx, .inr fun y hy hyx => hreplaced ⟨y, hy, hyx⟩⟩, rfl⟩
    · exact ⟨x, .inl hx, rfl⟩

theorem names_remove (rs : RestrictionSet) (names : List (Option String))
    (name : Option String) : (rs.remove names).names name = (rs.names name && name ∉ names) := by
  rw [Bool.eq_iff_iff, Bool.and_eq_true, names_iff, names_iff, decide_eq_true_iff]
  simp only [mem_remove]
  grind

theorem name_of_mem_single {x r : Restriction} (h : r ∈ single x) : r.name = x.name :=
  RestrictionOf.name_eq_of_compare (compare_of_mem_single h)

/-! ## Laws -/

/-- A restriction stays if none of its name is merged into the set. -/
theorem mem_merge_iff_names : r ∈ rs.merge ss ↔ r ∈ ss ∨ r ∈ rs ∧ ss.names r.name = false := by
  have hkept : ss.names r.name = false ↔ r.name = none ∨ ∀ s ∈ ss, s.name ≠ r.name := by
    rw [← Bool.not_eq_true, names_iff, not_and_or, not_not]
    simp only [not_exists, not_and, ne_eq]
  rw [mem_merge, hkept]

/-- Sets are merged in any grouping: what the last one replaces may as well be replaced in the
    one before it, since its names count for what is there anyway. -/
theorem merge_assoc_same (rs ss ts : RestrictionSet) :
    ((rs.merge ss).merge ts).same (rs.merge (ss.merge ts)) = true := by
  refine same_iff.2 fun r => ?_
  simp only [mem_merge_iff_names, names_merge, Bool.or_eq_false_iff]
  tauto

theorem merge_merge_same (rs added : RestrictionSet) :
    ((rs.merge added).merge added).same (rs.merge added) = true := by
  refine same_iff.2 fun r => ?_
  simp only [mem_merge_iff_names]
  -- What was kept the first time has no name of what is added, so it is kept again.
  constructor
  · rintro (hadded | ⟨hmerged, _⟩)
    · exact .inl hadded
    · exact hmerged
  · rintro (hadded | ⟨hkept, hname⟩)
    · exact .inl hadded
    · exact .inr ⟨.inr ⟨hkept, hname⟩, hname⟩

/-- Names are removed from both sets: what was replaced has a name that is removed, or it is
    replaced still. -/
theorem remove_merge_same (rs ss : RestrictionSet) (names : List (Option String)) :
    ((rs.merge ss).remove names).same ((rs.remove names).merge (ss.remove names)) = true := by
  refine same_iff.2 fun r => ?_
  by_cases hr : r.name ∈ names
  · simp [mem_merge_iff_names, mem_remove, hr]
  · simp [mem_merge_iff_names, mem_remove, names_remove, hr]

/-- Only matters which names are removed, not in which order they are given, nor how often. -/
theorem remove_sameMembers {names names' : List (Option String)} (h : SameMembers names names')
    (rs : RestrictionSet) : (rs.remove names).same (rs.remove names') = true := by
  refine same_iff.2 fun r => ?_
  rw [mem_remove, mem_remove, h r.name]

/-! ## Order -/

/-- No name is in both sets. Restrictions without a name may be. -/
def NamesApart (rs ss : RestrictionSet) : Prop :=
  ∀ name, rs.names name = true → ss.names name = false

/-- The sets have the same restrictions of each name that is in both. -/
def AgreesOnShared (rs ss : RestrictionSet) : Prop :=
  ∀ r, rs.names r.name = true → ss.names r.name = true → (r ∈ rs ↔ r ∈ ss)

/-- This can be told from the list of the members. -/
theorem namesApart_iff_forall_mem_toList :
    rs.NamesApart ss ↔ ∀ x ∈ rs.toList, ss.names x.name = false := by
  constructor
  · intro h x hx
    by_cases hname : x.name = none
    · rw [hname, names_none]
    · exact h x.name (names_iff.2 ⟨hname, x, mem_of_mem_toList hx, rfl⟩)
  · intro h name hname
    obtain ⟨_, x, hx, rfl⟩ := names_iff.1 hname
    obtain ⟨y, hy, hxy⟩ := exists_mem_toList hx
    exact RestrictionOf.name_eq_of_compare hxy ▸ h y hy

instance : Decidable (rs.NamesApart ss) :=
  decidable_of_iff _ namesApart_iff_forall_mem_toList.symm

theorem NamesApart.agreesOnShared (h : rs.NamesApart ss) : rs.AgreesOnShared ss :=
  fun r hr hr' => absurd ((h r.name hr).symm.trans hr') Bool.false_ne_true

/-- Of a name that is in both sets, only what is merged last is left. -/
theorem mem_merge_merge_iff_of_shared (hs : ss.names r.name = true) (ht : ts.names r.name = true) :
    r ∈ (rs.merge ss).merge ts ↔ r ∈ ts := by
  simp [mem_merge_iff_names, hs, ht]

/-- Of any other name, and of no name, all that is merged is there. -/
theorem mem_merge_merge_iff_of_not_shared
    (h : ¬(ss.names r.name = true ∧ ts.names r.name = true)) :
    r ∈ (rs.merge ss).merge ts ↔
      r ∈ ss ∨ r ∈ ts ∨ r ∈ rs ∧ ss.names r.name = false ∧ ts.names r.name = false := by
  have hkept (hr : r ∈ ss) : ts.names r.name = false := by
    by_cases hname : r.name = none
    · rw [hname, names_none]
    · have hs : ss.names r.name = true := names_iff.2 ⟨hname, r, hr, rfl⟩
      exact Bool.eq_false_iff.2 fun ht => h ⟨hs, ht⟩
  simp only [mem_merge_iff_names]
  tauto

/-- Two sets can be merged in either order if and only if they agree where they have a name in
    common, whatever they are merged into. -/
theorem merge_comm_same_iff :
    ((rs.merge ss).merge ts).same ((rs.merge ts).merge ss) = true ↔ ss.AgreesOnShared ts := by
  rw [same_iff]
  constructor
  · intro h r hs ht
    have hr := h r
    rw [mem_merge_merge_iff_of_shared hs ht, mem_merge_merge_iff_of_shared ht hs] at hr
    exact hr.symm
  · intro h r
    by_cases hshared : ss.names r.name = true ∧ ts.names r.name = true
    · obtain ⟨hs, ht⟩ := hshared
      rw [mem_merge_merge_iff_of_shared hs ht, mem_merge_merge_iff_of_shared ht hs]
      exact (h r hs ht).symm
    · rw [mem_merge_merge_iff_of_not_shared hshared,
        mem_merge_merge_iff_of_not_shared (mt And.symm hshared), or_left_comm,
        and_comm (a := ss.names r.name = false)]

/-! ## Listed restrictions -/

theorem ofDrafts_map_draft (l : List Restriction) :
    ofDrafts (l.map (·.draft)) = .ok (Std.ExtTreeSet.ofList l) := by
  have hsettled : (l.map (·.draft)).mapM RestrictionDraft.settle = .ok (l.map id) := by
    rw [List.mapM_map]
    exact mapM_eq_ok_map fun r _ => r.settle_draft
  rw [ofDrafts, hsettled, List.map_id]
  rfl

/-- A set of the restrictions of a list whose names pass a test. -/
theorem mem_ofList_filter_name {l : List Restriction} (f : Option String → Bool) :
    r ∈ (.ofList (l.filter fun s => f s.name) : RestrictionSet) ↔
      r ∈ (.ofList l : RestrictionSet) ∧ f r.name = true := by
  simp only [mem_ofList_iff, List.mem_filter]
  constructor
  · rintro ⟨y, ⟨hy, hf⟩, hry⟩
    exact ⟨⟨y, hy, hry⟩, RestrictionOf.name_eq_of_compare hry ▸ hf⟩
  · rintro ⟨⟨y, hy, hry⟩, hf⟩
    exact ⟨y, ⟨hy, RestrictionOf.name_eq_of_compare hry ▸ hf⟩, hry⟩

/-- Drafts are merged as the sets of what they are drafts of. -/
theorem exists_mergeDrafts (l l' : List Restriction) :
    ∃ us, mergeDrafts (l.map (·.draft)) (l'.map (·.draft)) = .ok us ∧
      us.same (RestrictionSet.merge (.ofList l) (.ofList l')) = true := by
  let added : RestrictionSet := .ofList l'
  let kept : RestrictionSet := .ofList (l.filter fun r => !added.names r.name)
  have hkept : ofDrafts ((l.map (·.draft)).filter fun r => !added.names r.name) = .ok kept := by
    rw [List.filter_map]
    exact ofDrafts_map_draft _
  have hmerge : mergeDrafts (l.map (·.draft)) (l'.map (·.draft)) = .ok (added ∪ kept) := by
    rw [mergeDrafts, ofDrafts_map_draft]
    change (ofDrafts _ >>= fun us => pure (added ∪ us)) = _
    rw [hkept]
    rfl
  refine ⟨_, hmerge, same_iff.2 fun r => ?_⟩
  rw [Std.ExtTreeSet.mem_union_iff, mem_ofList_filter_name fun name => !added.names name,
    mem_merge_iff_names, Bool.not_eq_true']

theorem exists_removeDrafts (l : List Restriction) (names : List (Option String)) :
    ∃ us, removeDrafts (l.map (·.draft)) names = .ok us ∧
      us.same (RestrictionSet.remove (.ofList l) names) = true := by
  have hremove : removeDrafts (l.map (·.draft)) names =
      .ok (.ofList (l.filter fun r => !names.contains r.name)) := by
    rw [removeDrafts, List.filter_map]
    exact ofDrafts_map_draft _
  refine ⟨_, hremove, same_iff.2 fun r => ?_⟩
  rw [mem_ofList_filter_name fun name => !names.contains name, mem_remove,
    Bool.not_eq_true', List.contains_eq_mem, decide_eq_false_iff_not]

/-! ## Main result -/

/-- The laws of merging sets of restrictions into each other, and of removing names from them. -/
structure Laws (rs ss ts : RestrictionSet) (names names' : List (Option String)) : Prop where
  /-- What is merged is there, and so is what was there before and is not replaced. -/
  mem_merge : ∀ r, r ∈ rs.merge ss ↔
    r ∈ ss ∨ r ∈ rs ∧ (r.name = none ∨ ∀ s ∈ ss, s.name ≠ r.name)
  /-- What has none of the names that are removed is left. -/
  mem_remove : ∀ r, r ∈ rs.remove names ↔ r ∈ rs ∧ r.name ∉ names
  /-- Sets are merged in any grouping. -/
  assoc : ((rs.merge ss).merge ts).same (rs.merge (ss.merge ts)) = true
  /-- Nothing to merge leaves a set as it is, … -/
  merge_empty : (rs.merge ∅).same rs = true
  /-- … and what is merged into nothing is all there is. -/
  empty_merge : (RestrictionSet.merge ∅ rs).same rs = true
  /-- Merging again changes nothing. -/
  again : ((rs.merge ss).merge ss).same (rs.merge ss) = true
  /-- Names are removed from what is merged and from what it is merged into. -/
  remove_merge :
    ((rs.merge ss).remove names).same ((rs.remove names).merge (ss.remove names)) = true
  /-- Names that are removed one after the other are removed together. -/
  remove_remove : ((rs.remove names).remove names').same (rs.remove (names ∪ names')) = true
  /-- Sets that have no name in common are merged in either order, … -/
  comm : ss.NamesApart ts → ((rs.merge ss).merge ts).same ((rs.merge ts).merge ss) = true
  /-- … and so are those that agree on the names they have in common, but no others. -/
  comm_iff : ((rs.merge ss).merge ts).same ((rs.merge ts).merge ss) = true ↔ ss.AgreesOnShared ts
  /-- Listed restrictions are merged as the sets of them, … -/
  merge_drafts : ∀ l l' : List Restriction,
    ∃ us, mergeDrafts (l.map (·.draft)) (l'.map (·.draft)) = .ok us ∧
      us.same (RestrictionSet.merge (.ofList l) (.ofList l')) = true
  /-- … and names are removed from them as from the set. -/
  remove_drafts : ∀ l : List Restriction,
    ∃ us, removeDrafts (l.map (·.draft)) names = .ok us ∧
      us.same (RestrictionSet.remove (.ofList l) names) = true

/-- The laws hold of all sets, be there several restrictions of one name in them or some without
    a name, and for all names, be the lack of a name among them or not. -/
theorem laws_merge_remove (rs ss ts : RestrictionSet) (names names' : List (Option String)) :
    Laws rs ss ts names names' where
  mem_merge _ := RestrictionSet.mem_merge
  mem_remove _ := RestrictionSet.mem_remove
  assoc := merge_assoc_same rs ss ts
  merge_empty := same_merge_empty rs
  empty_merge := merge_empty_same rs
  again := merge_merge_same rs ss
  remove_merge := remove_merge_same rs ss names
  remove_remove := by
    have hunion : SameMembers (names ++ names') (names ∪ names') := fun name => by
      rw [List.mem_append, List.mem_union_iff]
    exact same_trans (remove_remove_same rs names names') (remove_sameMembers hunion rs)
  comm h := merge_comm_same_iff.2 h.agreesOnShared
  comm_iff := merge_comm_same_iff
  merge_drafts := exists_mergeDrafts
  remove_drafts l := exists_removeDrafts l names

/-- Two restrictions of one name are merged into a set, and one of another name, together with the
    same one without a name: all that had these names is replaced, in either order, and what had
    no name is there still. -/
theorem laws_merge_remove_crowded :
    let glob (s : String) : Restriction := ⟨some RestrictionName.glob, .bool false, [.text s]⟩
    let items (s : String) : Restriction := ⟨some RestrictionName.itemNames, .bool true, [.text s]⟩
    let unnamed (s : String) : Restriction := ⟨none, .bool false, [.text s]⟩
    let existing : RestrictionSet := .ofList [glob "/a", items "x", unnamed "/u"]
    let globs : RestrictionSet := .ofList [glob "/b", glob "/c", unnamed "/v"]
    let listed : RestrictionSet := .ofList [items "y", unnamed "/v"]
    globs.NamesApart listed ∧
      ((existing.merge globs).merge listed).same ((existing.merge listed).merge globs) = true ∧
      ((existing.merge globs).merge listed).same
        (.ofList [unnamed "/u", unnamed "/v", glob "/b", glob "/c", items "y"]) = true := by
  intro glob items unnamed existing globs listed
  have hapart : globs.NamesApart listed := by decide +kernel
  exact ⟨hapart, (laws_merge_remove existing globs listed [] []).comm hapart, by decide +kernel⟩

end RestrictionSet

end AccessControl
