import AccessControl.Proofs.Entry.Partition
import Mathlib.Data.List.Induction

/-!
# Gathering what is in force

The entries of an effect can be come by in another way as well. What is in force is gathered,
one ruling after the other in the order in which they were entered: a ruling joins those under
the same restrictions, or is the first one of a new group. Then the members of every group are
put in order, and the groups by their first members. The entries are the same, and their
restrictions are written alike.

* `EntryGroup.gather`: a ruling joins a group;
* `EntryGroup.ofRulings_eq`: the groups in which rulings are gathered;
* `DepthIndex.mergeSort_eq`: names that differ are sorted in one way only;
* `DecisionMap.entriesFor_eq_gathered`: the entries are what has been gathered, in order.
-/

namespace AccessControl

/-- Rulings under the same restrictions, of which an entry can be made. -/
structure EntryGroup where
  /-- The restrictions, as the first one of the rulings has them. -/
  restrictions : RestrictionSet
  /-- The rulings. -/
  members : List Ruling

namespace EntryGroup

open DecisionMap

variable {e : Effect} {b : Ruling} {rs : List Ruling} {sets : List RestrictionSet}

/-- A ruling joins the group under its restrictions, or opens one behind the others. -/
def gather (e : Effect) (b : Ruling) : List EntryGroup → List EntryGroup
  | [] => [⟨(b.decision.side e).restrictions, [b]⟩]
  | g :: gs =>
    if (b.decision.side e).restrictions.same g.restrictions then
      ⟨g.restrictions, g.members ++ [b]⟩ :: gs
    else g :: gather e b gs

/-- The groups of rulings that come one after the other. -/
def ofRulings (e : Effect) (rs : List Ruling) : List EntryGroup :=
  rs.foldl (fun gs b => gather e b gs) []

/-- The rulings under a set of restrictions. -/
def under (e : Effect) (rs : List Ruling) (set : RestrictionSet) : EntryGroup where
  restrictions := set
  members := rs.filter fun b => (b.decision.side e).restrictions.same set

/-! ## Gathering -/

theorem restrictionSets_concat (e : Effect) (rs : List Ruling) (b : Ruling) :
    restrictionSets e (rs ++ [b]) =
      if (restrictionSets e rs).any (b.decision.side e).restrictions.same then
        restrictionSets e rs
      else restrictionSets e rs ++ [(b.decision.side e).restrictions] := by
  rw [restrictionSets, List.map_append, List.map_singleton, eraseDupsBy_concat]
  rfl

theorem pairwise_restrictionSets (e : Effect) (rs : List Ruling) :
    (restrictionSets e rs).Pairwise fun s t => t.same s = false := pairwise_eraseDupsBy _

theorem exists_mem_restrictionSets {c : Ruling} (h : c ∈ rs) :
    ∃ set ∈ restrictionSets e rs, (c.decision.side e).restrictions.same set = true :=
  exists_mem_eraseDupsBy RestrictionSet.same_refl
    (List.mem_map_of_mem (f := fun b : Ruling => (b.decision.side e).restrictions) h)

theorem under_concat_of_same {set : RestrictionSet}
    (h : (b.decision.side e).restrictions.same set = true) :
    under e (rs ++ [b]) set = ⟨set, (under e rs set).members ++ [b]⟩ := by
  simp [under, h]

theorem under_concat_of_differs {set : RestrictionSet}
    (h : (b.decision.side e).restrictions.same set = false) :
    under e (rs ++ [b]) set = under e rs set := by
  simp [under, h]

/-- A ruling joins the group that it belongs to, if there is one. -/
theorem gather_map_under (hsets : sets.Pairwise fun s t => t.same s = false) :
    gather e b (sets.map (under e rs)) =
      if sets.any (b.decision.side e).restrictions.same then sets.map (under e (rs ++ [b]))
      else sets.map (under e (rs ++ [b])) ++ [⟨(b.decision.side e).restrictions, [b]⟩] := by
  induction sets with
  | nil => rfl
  | cons s sets ih =>
    rw [List.pairwise_cons] at hsets
    rw [List.map_cons, List.map_cons, gather, List.any_cons]
    cases hs : (b.decision.side e).restrictions.same s with
    | true =>
      -- The ruling is in no other group.
      have hrest : sets.map (under e (rs ++ [b])) = sets.map (under e rs) := by
        refine List.map_congr_left fun t ht => under_concat_of_differs ?_
        rw [RestrictionSet.same_congr hs (RestrictionSet.same_refl t), RestrictionSet.same_comm]
        exact hsets.1 t ht
      rw [hrest, under_concat_of_same hs]
      simp [under, hs]
    | false =>
      rw [under_concat_of_differs hs, ih hsets.2]
      simp only [under, hs, Bool.false_or, Bool.false_eq_true, if_false]
      split <;> rfl

/-- Rulings are gathered under the sets of restrictions that occur among them, in the order
    in which these occur. -/
theorem ofRulings_eq (e : Effect) (rs : List Ruling) :
    ofRulings e rs = (restrictionSets e rs).map (under e rs) := by
  induction rs using List.reverseRecOn with
  | nil => rfl
  | append_singleton rs b ih =>
    have hstep : ofRulings e (rs ++ [b]) = gather e b (ofRulings e rs) := List.foldl_append
    rw [hstep, ih, gather_map_under (pairwise_restrictionSets e rs), restrictionSets_concat]
    split
    · rfl
    next hnew =>
      -- Nothing that was gathered before belongs to the new group.
      have hnone : under e rs (b.decision.side e).restrictions =
          ⟨(b.decision.side e).restrictions, []⟩ := by
        refine congrArg (EntryGroup.mk _) (List.filter_eq_nil_iff.2 fun c hc hsame => hnew ?_)
        obtain ⟨set, hset, hcs⟩ := exists_mem_restrictionSets (e := e) hc
        refine List.any_eq_true.2 ⟨set, hset, ?_⟩
        exact RestrictionSet.same_trans (RestrictionSet.same_symm hsame) hcs
      rw [List.map_append, List.map_singleton,
        under_concat_of_same (RestrictionSet.same_refl _), hnone, List.nil_append]

/-! ## Putting in order -/

/-- The name by which a group is put in order, that of its first member. -/
def first (g : EntryGroup) : String := (g.members.head?.map Ruling.id).getD ""

/-- A group whose members are put in order. -/
def sort (d : DepthIndex) (g : EntryGroup) : EntryGroup :=
  { g with members := g.members.mergeSort fun a b => d.precedes a.id b.id }

end EntryGroup

theorem DepthIndex.ne_of_order_eq_lt (d : DepthIndex) {a b : String} (h : d.order a b = .lt) :
    a ≠ b := by
  rintro rfl
  have hself : d.order a a = .eq := Std.ReflCmp.compare_self
  cases hself.symm.trans h

/-- Things whose names differ are put in the order of their names in one way only. -/
theorem DepthIndex.mergeSort_eq {α : Type} (d : DepthIndex) (f : α → String) {l l' : List α}
    (h : l.Perm l') (hl' : l'.Pairwise fun a b => d.order (f a) (f b) = .lt) :
    l.mergeSort (fun a b => d.precedes (f a) (f b)) = l' := by
  have htrans (a b c : α) := d.precedes_trans (f a) (f b) (f c)
  have htotal (a b : α) := d.precedes_total (f a) (f b)
  have hnodup : (l'.map f).Nodup := by
    refine List.pairwise_map.2 (hl'.imp ?_)
    exact fun hab => d.ne_of_order_eq_lt hab
  have hle : l'.Pairwise fun a b => d.precedes (f a) (f b) = true := by
    refine hl'.imp fun {a b} hab => ?_
    rw [precedes, hab]
    rfl
  refine List.Perm.eq_of_pairwise (fun a b ha hb hab hba => ?_)
    (List.pairwise_mergeSort htrans htotal l) hle ((List.mergeSort_perm l _).trans h)
  exact List.inj_on_of_nodup_map hnodup (h.mem_iff.1 (List.mem_mergeSort.1 ha)) hb
    (d.eq_of_precedes hab hba)

namespace DecisionMap

variable {m : DecisionMap} {d : DepthIndex} {principal : Principal} {e : Effect} {b : Ruling}
  {set : RestrictionSet}

/-- What is in force for an effect, gathered and put in order. -/
def gathered (m : DecisionMap) (d : DepthIndex) (e : Effect) : List EntryGroup :=
  ((EntryGroup.ofRulings e (m.active e)).map (EntryGroup.sort d)).mergeSort fun g h =>
    d.precedes g.first h.first

/-- The group of a ruling, in order, under the restrictions as they were entered first. -/
def groupOf (m : DecisionMap) (d : DepthIndex) (e : Effect) (b : Ruling) : EntryGroup where
  restrictions := ((restrictionSets e (m.active e)).find?
    (b.decision.side e).restrictions.same).getD (b.decision.side e).restrictions
  members := (m.ordered d e).filter (Ruling.sameSide e · b)

theorem first_groupOf (h : b ∈ m.leading d e) : (m.groupOf d e b).first = b.id := by
  rw [EntryGroup.first, groupOf, List.head?_filter,
    find?_of_mem_eraseDupsBy (Ruling.equivalence_sameSide e) h]
  rfl

theorem sort_under (m : DecisionMap) (d : DepthIndex) (e : Effect) (set : RestrictionSet) :
    (EntryGroup.under e (m.active e) set).sort d = EntryGroup.under e (m.ordered d e) set := by
  refine congrArg (EntryGroup.mk set) (d.mergeSort_eq Ruling.id ?_ ?_)
  · exact ((List.mergeSort_perm (m.active e) _).filter _).symm
  · exact (m.pairwise_ordered d e).filter _

/-- It is the group under the one set that is the same as the restrictions of the ruling. -/
theorem groupOf_eq_under (hset : set ∈ restrictionSets e (m.active e))
    (h : (b.decision.side e).restrictions.same set = true) :
    m.groupOf d e b = EntryGroup.under e (m.ordered d e) set := by
  have hfind : (restrictionSets e (m.active e)).find? (b.decision.side e).restrictions.same =
      some set := by
    obtain ⟨found, hfound⟩ := Option.isSome_iff_exists.1 (List.find?_isSome.2 ⟨set, hset, h⟩)
    have hsame := RestrictionSet.same_trans (RestrictionSet.same_symm (List.find?_some hfound)) h
    rwa [eq_of_mem_eraseDupsBy RestrictionSet.equivalence_same (List.mem_of_find?_eq_some hfound)
      hset hsame] at hfound
  rw [groupOf, hfind, Option.getD_some, EntryGroup.under]
  refine congrArg (EntryGroup.mk set) (List.filter_congr fun c _ => ?_)
  exact RestrictionSet.same_congr (RestrictionSet.same_refl _) h

/-- The groups are those that the entries begin with, in some order. -/
theorem map_under_perm (m : DecisionMap) (d : DepthIndex) (e : Effect) :
    ((restrictionSets e (m.active e)).map (EntryGroup.under e (m.ordered d e))).Perm
      ((m.leading d e).map (m.groupOf d e)) := by
  have hunder :
      ((restrictionSets e (m.active e)).map (EntryGroup.under e (m.ordered d e))).Nodup := by
    have hsets := EntryGroup.pairwise_restrictionSets e (m.active e)
    refine List.pairwise_map.2 (hsets.imp fun {s t} hst heq => ?_)
    obtain rfl : s = t := congrArg EntryGroup.restrictions heq
    exact Bool.eq_false_iff.1 hst (RestrictionSet.same_refl s)
  have hgroup : ((m.leading d e).map (m.groupOf d e)).Nodup := by
    refine List.pairwise_map.2 ((m.pairwise_leading d e).imp_of_mem fun {a b} ha hb hab heq => ?_)
    have hid : a.id = b.id := by rw [← first_groupOf ha, heq, first_groupOf hb]
    exact d.ne_of_order_eq_lt hab hid
  refine (List.perm_ext_iff_of_nodup hunder hgroup).2 fun g => ?_
  constructor
  · intro hg
    obtain ⟨set, hset, rfl⟩ := List.mem_map.1 hg
    obtain ⟨c, hc, rfl⟩ := List.mem_map.1 (mem_of_mem_eraseDupsBy hset)
    obtain ⟨b, hb, hcb⟩ := exists_mem_eraseDupsBy (Ruling.equivalence_sameSide e).refl
      (List.mem_mergeSort.2 hc : c ∈ m.ordered d e)
    exact List.mem_map.2 ⟨b, hb, groupOf_eq_under hset (RestrictionSet.same_symm hcb)⟩
  · intro hg
    obtain ⟨b, hb, rfl⟩ := List.mem_map.1 hg
    have hact : b ∈ m.active e := List.mem_mergeSort.1 (mem_of_mem_eraseDupsBy hb)
    obtain ⟨set, hset, hbset⟩ := EntryGroup.exists_mem_restrictionSets (e := e) hact
    exact List.mem_map.2 ⟨set, hset, (groupOf_eq_under hset hbset).symm⟩

/-! ## Main result -/

/-- The entries of an effect are what has been gathered for it, one entry for each group. -/
theorem entriesFor_eq_gathered (m : DecisionMap) (d : DepthIndex) (principal : Principal)
    (e : Effect) : m.entriesFor d principal e = (m.gathered d e).map fun g =>
      ⟨principal, e, g.members.map Ruling.privilege, g.restrictions⟩ := by
  have hsorted : (EntryGroup.ofRulings e (m.active e)).map (EntryGroup.sort d) =
      (restrictionSets e (m.active e)).map (EntryGroup.under e (m.ordered d e)) := by
    rw [EntryGroup.ofRulings_eq, List.map_map]
    exact List.map_congr_left fun set _ => sort_under m d e set
  have hfirst : ((m.leading d e).map (m.groupOf d e)).Pairwise fun g h =>
      d.order g.first h.first = .lt := by
    refine List.pairwise_map.2 ((m.pairwise_leading d e).imp_of_mem fun {a b} ha hb hab => ?_)
    rwa [first_groupOf ha, first_groupOf hb]
  rw [gathered, hsorted, d.mergeSort_eq EntryGroup.first (m.map_under_perm d e) hfirst,
    entriesFor_eq_map_leading, List.map_map]
  rfl

end DecisionMap

end AccessControl
