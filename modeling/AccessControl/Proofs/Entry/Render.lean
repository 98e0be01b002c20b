import AccessControl.Entry.Render
import AccessControl.Proofs.Correspondence
import AccessControl.Proofs.Decision.Sameness
import AccessControl.Proofs.Distinct
import AccessControl.Proofs.Sorting

/-!
# Rendering decisions

What the entries say that decisions are written as: there is one entry for each
set of restrictions that occurs, and it names the privileges that are in force
under this set. Maps that are the same are written as the same entries, one by one
and in the same order.

* `DecisionMap.mem_privileges_entry_iff`: the privileges of an entry;
* `DecisionMap.privileges_ne_nil`: there is no entry without a privilege;
* `DecisionMap.exists_mem_entriesFor`: what is in force is in an entry;
* `DecisionMap.pairwise_entriesFor`: entries differ in their restrictions;
* `DecisionMap.entries_congr`: rendering respects sameness.
-/

namespace AccessControl

namespace DepthIndex

variable (d : DepthIndex)

instance : Std.TransCmp d.order := by
  unfold order
  infer_instance

/-! The order of names is total, and no two names are at the same place. -/

theorem precedes_trans (a b c : String) (hab : d.precedes a b = true)
    (hbc : d.precedes b c = true) : d.precedes a c = true :=
  Std.TransCmp.isLE_trans hab hbc

theorem precedes_total (a b : String) : (d.precedes a b || d.precedes b a) = true :=
  isLE_total a b

theorem eq_of_precedes {a b : String} (hab : d.precedes a b = true) (hba : d.precedes b a = true) :
    a = b := by
  have h := Std.OrientedCmp.isLE_antisymm hab hba
  rw [order, compareLex_eq_eq] at h
  exact Std.LawfulEqOrd.eq_of_compare h.2

/-- Of different names one comes before the other one. -/
theorem order_eq_lt {a b : String} (hab : d.precedes a b = true) (hne : a ≠ b) :
    d.order a b = .lt := by
  refine (Ordering.isLE_iff_eq_lt_or_eq_eq.1 hab).resolve_right fun heq => ?_
  rw [order, compareLex_eq_eq] at heq
  exact hne (Std.LawfulEqOrd.eq_of_compare heq.2)

theorem not_precedes_of_rank_lt {a b : String} (h : d.rank a < d.rank b) :
    ¬ d.precedes b a = true := by
  have hgt : compareOn d.rank b a = .gt := compare_gt_iff_gt.2 h
  simp [precedes, order, compareLex, hgt]

theorem pairwise_sort (ps : List Privilege) :
    (d.sort ps).Pairwise fun p q => d.precedes p.id q.id = true := by
  have htrans (p q s : Privilege) := d.precedes_trans p.id q.id s.id
  have htotal (p q : Privilege) := d.precedes_total p.id q.id
  exact List.pairwise_mergeSort htrans htotal ps

/-- Privileges are put in their places one after the other. -/
theorem sort_eq (ps : List Privilege) :
    d.sort ps = ps.insertionSort fun p q => d.precedes p.id q.id = true := by
  have htrans (p q s : Privilege) := d.precedes_trans p.id q.id s.id
  have htotal (p q : Privilege) := d.precedes_total p.id q.id
  exact mergeSort_eq_insertionSort htrans htotal ps

/-- Sorting puts privileges in the order of their depths. -/
theorem pairwise_rank_sort (ps : List Privilege) :
    (d.sort ps).Pairwise fun p q => d.rank p.id ≤ d.rank q.id := by
  refine (d.pairwise_sort ps).imp fun {p q} hle => ?_
  exact not_lt.1 fun hlt => d.not_precedes_of_rank_lt hlt hle

end DepthIndex

namespace DecisionMap

variable {m n : DecisionMap} {r : Registry} {d : DepthIndex} {principal : Principal} {e : Effect}

theorem nodup_ids_active (m : DecisionMap) (e : Effect) : (Ruling.ids (m.active e)).Nodup :=
  m.nodup_ids.sublist (List.filter_sublist.map Ruling.id)

/-- The rulings whose side of an effect is in force, in the order of depths. -/
def ordered (m : DecisionMap) (d : DepthIndex) (e : Effect) : List Ruling :=
  (m.active e).mergeSort fun a b => d.precedes a.id b.id

theorem mem_ordered_iff {a : Ruling} :
    a ∈ m.ordered d e ↔ a ∈ m.rulings ∧ (a.decision.side e).active = true := by
  rw [ordered, List.mem_mergeSort, active, List.mem_filter]

/-- They are put in their places one after the other. -/
theorem ordered_eq (m : DecisionMap) (d : DepthIndex) (e : Effect) :
    m.ordered d e = (m.active e).insertionSort fun a b => d.precedes a.id b.id = true := by
  have htrans (a b c : Ruling) := d.precedes_trans a.id b.id c.id
  have htotal (a b : Ruling) := d.precedes_total a.id b.id
  exact mergeSort_eq_insertionSort htrans htotal _

/-- The entry for one of the sets of restrictions that occur. -/
def entryFor (m : DecisionMap) (d : DepthIndex) (principal : Principal) (e : Effect)
    (set : RestrictionSet) : Entry where
  principal := principal
  effect := e
  privileges := ((m.ordered d e).filter fun b =>
    (b.decision.side e).restrictions.same set).map Ruling.privilege
  restrictions := ((restrictionSets e (m.active e)).find? set.same).getD set

theorem entriesFor_eq (m : DecisionMap) (d : DepthIndex) (principal : Principal) (e : Effect) :
    m.entriesFor d principal e =
      (restrictionSets e (m.ordered d e)).map (m.entryFor d principal e) := rfl

/-- How the restrictions of an entry are written makes no difference. -/
theorem restrictions_entryFor (m : DecisionMap) (d : DepthIndex) (principal : Principal)
    (e : Effect) (set : RestrictionSet) :
    (m.entryFor d principal e set).restrictions.same set = true := by
  rw [entryFor]
  cases h : (restrictionSets e (m.active e)).find? set.same with
  | none => exact RestrictionSet.same_refl set
  | some written => exact RestrictionSet.same_symm (List.find?_some h)

theorem mem_privileges_entryFor_iff {set : RestrictionSet} {p : Privilege} :
    p ∈ (m.entryFor d principal e set).privileges ↔ ∃ b ∈ m.rulings, b.privilege = p ∧
      (b.decision.side e).active = true ∧ (b.decision.side e).restrictions.same set = true := by
  simp only [entryFor, List.mem_map, List.mem_filter, mem_ordered_iff]
  constructor
  · rintro ⟨b, ⟨⟨hb, hact⟩, hset⟩, rfl⟩
    exact ⟨b, hb, rfl, hact, hset⟩
  · rintro ⟨b, hb, rfl, hact, hset⟩
    exact ⟨b, ⟨⟨hb, hact⟩, hset⟩, rfl⟩

/-! ## What the entries say -/

theorem principal_of_mem_entriesFor {a : Entry} (h : a ∈ m.entriesFor d principal e) :
    a.principal = principal := by
  obtain ⟨_, _, rfl⟩ := List.mem_map.1 h
  rfl

theorem effect_of_mem_entriesFor {a : Entry} (h : a ∈ m.entriesFor d principal e) :
    a.effect = e := by
  obtain ⟨_, _, rfl⟩ := List.mem_map.1 h
  rfl

/-- An entry is one of those for its effect. -/
theorem mem_entriesFor_effect {a : Entry} (h : a ∈ m.entries d principal) :
    a ∈ m.entriesFor d principal a.effect := by
  rcases List.mem_append.1 h with h | h
  · rwa [effect_of_mem_entriesFor h]
  · rwa [effect_of_mem_entriesFor h]

theorem principal_of_mem_entries {a : Entry} (h : a ∈ m.entries d principal) :
    a.principal = principal := principal_of_mem_entriesFor (mem_entriesFor_effect h)

/-- An entry names what is in force under its restrictions. -/
theorem mem_privileges_entry_iff {a : Entry} (h : a ∈ m.entriesFor d principal e)
    {p : Privilege} : p ∈ a.privileges ↔ ∃ b ∈ m.rulings, b.privilege = p ∧
      (b.decision.side e).active = true ∧
      (b.decision.side e).restrictions.same a.restrictions = true := by
  rw [entriesFor_eq] at h
  obtain ⟨set, _, rfl⟩ := List.mem_map.1 h
  have hsame (rs : RestrictionSet) := RestrictionSet.same_congr (RestrictionSet.same_refl rs)
    (restrictions_entryFor m d principal e set)
  rw [mem_privileges_entryFor_iff]
  simp only [hsame]

/-- There is no entry without a privilege. -/
theorem privileges_ne_nil {a : Entry} (h : a ∈ m.entries d principal) : a.privileges ≠ [] := by
  have hentry {e : Effect} (h : a ∈ m.entriesFor d principal e) : a.privileges ≠ [] := by
    rw [entriesFor_eq] at h
    obtain ⟨set, hset, rfl⟩ := List.mem_map.1 h
    -- The set of the entry is that of some ruling, whose privilege is in the entry.
    obtain ⟨b, hb, rfl⟩ := List.mem_map.1 (mem_of_mem_eraseDupsBy hset)
    obtain ⟨hb, hact⟩ := mem_ordered_iff.1 hb
    exact List.ne_nil_of_mem (mem_privileges_entryFor_iff.2
      ⟨b, hb, rfl, hact, RestrictionSet.same_refl _⟩)
  exact (List.mem_append.1 h).elim hentry hentry

/-- What is in force is in an entry. -/
theorem exists_mem_entriesFor (d : DepthIndex) (principal : Principal) {b : Ruling}
    (hb : b ∈ m.rulings) (hact : (b.decision.side e).active = true) :
    ∃ a ∈ m.entriesFor d principal e, b.privilege ∈ a.privileges ∧
      (b.decision.side e).restrictions.same a.restrictions = true := by
  obtain ⟨set, hset, hsame⟩ := exists_mem_eraseDupsBy RestrictionSet.same_refl
    (List.mem_map_of_mem (f := fun b : Ruling => (b.decision.side e).restrictions)
      (mem_ordered_iff (d := d).2 ⟨hb, hact⟩))
  refine ⟨m.entryFor d principal e set, List.mem_map_of_mem hset,
    mem_privileges_entryFor_iff.2 ⟨b, hb, rfl, hact, hsame⟩, ?_⟩
  exact RestrictionSet.same_trans hsame
    (RestrictionSet.same_symm (restrictions_entryFor m d principal e set))

/-- No two entries of an effect have the same restrictions. -/
theorem pairwise_entriesFor : (m.entriesFor d principal e).Pairwise fun a b =>
    a.restrictions.same b.restrictions = false := by
  rw [entriesFor_eq, List.pairwise_map]
  refine (pairwise_eraseDupsBy _).imp fun {s t} hst => ?_
  rw [RestrictionSet.same_congr (restrictions_entryFor m d principal e s)
    (restrictions_entryFor m d principal e t), RestrictionSet.same_comm]
  exact hst

/-! ## Sameness -/

theorem mem_ids_active_iff {k : String} :
    k ∈ Ruling.ids (m.active e) ↔ (m.inForce? e k).isSome := by
  rw [Option.isSome_iff_exists]
  simp only [inForce?_eq_some_iff, Ruling.ids, active, List.mem_map, List.mem_filter]
  constructor
  · rintro ⟨a, ⟨ha, hact⟩, rfl⟩
    exact ⟨_, a, ha, rfl, hact, rfl⟩
  · rintro ⟨_, a, ha, rfl, hact, _⟩
    exact ⟨a, ⟨ha, hact⟩, rfl⟩

/-- The order of rulings does not depend on the order in which they were entered. -/
theorem ids_ordered_congr (h : m.same n = true) (d : DepthIndex) (e : Effect) :
    Ruling.ids (m.ordered d e) = Ruling.ids (n.ordered d e) := by
  have hids (m : DecisionMap) :
      Ruling.ids (m.ordered d e) = (Ruling.ids (m.active e)).mergeSort d.precedes :=
    List.map_mergeSort fun _ _ _ _ => rfl
  have hperm : (Ruling.ids (m.active e)).Perm (Ruling.ids (n.active e)) := by
    refine (List.perm_ext_iff_of_nodup (m.nodup_ids_active e) (n.nodup_ids_active e)).2 fun k => ?_
    rw [mem_ids_active_iff, mem_ids_active_iff, (inForce?_congr h e k).isSome_eq]
  -- The names are the same ones, and there is only one way to put them in order.
  rw [hids, hids]
  exact mergeSort_eq_of_perm d.precedes_trans d.precedes_total (fun _ _ => d.eq_of_precedes) hperm

theorem forall₂_ordered (h : m.same n = true) (d : DepthIndex) (e : Effect) :
    List.Forall₂ (fun a b : Ruling => a.id = b.id ∧
        (a.decision.side e).restrictions.same (b.decision.side e).restrictions = true)
      (m.ordered d e) (n.ordered d e) := by
  refine (forall₂_of_map_eq (ids_ordered_congr h d e)).imp fun a b ⟨ha, hb, hid⟩ => ?_
  have hsame := same_iff.1 h a.id
  rw [get?_of_mem (mem_ordered_iff.1 ha).1, hid, get?_of_mem (mem_ordered_iff.1 hb).1] at hsame
  cases hsame with
  | some hsame => exact ⟨hid, (Side.same_iff.1 (Decision.same_iff.1 hsame e)).2⟩

theorem entryFor_congr (h : m.same n = true) (d : DepthIndex) (principal : Principal) (e : Effect)
    {s t : RestrictionSet} (hst : s.same t = true) :
    (m.entryFor d principal e s).same (n.entryFor d principal e t) = true := by
  have hids : (m.entryFor d principal e s).privileges.map Privilege.id =
      (n.entryFor d principal e t).privileges.map Privilege.id := by
    rw [entryFor, entryFor, List.map_map, List.map_map, ← List.forall₂_eq_eq_eq,
      List.forall₂_map_left_iff, List.forall₂_map_right_iff]
    refine (List.rel_filter (fun a b hab => ?_) (forall₂_ordered h d e)).imp fun a b => And.left
    dsimp only
    rw [RestrictionSet.same_congr hab.2 hst]
  have hrs : (m.entryFor d principal e s).restrictions.same
      (n.entryFor d principal e t).restrictions = true := by
    rw [RestrictionSet.same_congr (restrictions_entryFor m d principal e s)
      (restrictions_entryFor n d principal e t)]
    exact hst
  rw [Entry.same, hids, hrs]
  simp [entryFor]

theorem entriesFor_congr (h : m.same n = true) (d : DepthIndex) (principal : Principal)
    (e : Effect) : List.Forall₂ (fun a b : Entry => a.same b = true)
      (m.entriesFor d principal e) (n.entriesFor d principal e) := by
  rw [entriesFor_eq, entriesFor_eq, List.forall₂_map_left_iff, List.forall₂_map_right_iff]
  refine List.Forall₂.imp (fun s t => entryFor_congr h d principal e)
    (forall₂_eraseDupsBy (fun _ _ _ _ => RestrictionSet.same_congr) ?_)
  rw [List.forall₂_map_left_iff, List.forall₂_map_right_iff]
  exact (forall₂_ordered h d e).imp fun a b => And.right

/-- Maps that are the same are written as the same entries. -/
theorem entries_congr (h : m.same n = true) (d : DepthIndex) (principal : Principal) :
    List.Forall₂ (fun a b : Entry => a.same b = true)
      (m.entries d principal) (n.entries d principal) :=
  List.rel_append (entriesFor_congr h d principal .deny) (entriesFor_congr h d principal .allow)

end DecisionMap

end AccessControl
