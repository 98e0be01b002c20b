import AccessControl.Proofs.Decision.Origin
import AccessControl.Proofs.Decision.Targets

/-!
# One restriction of a name

A set of restrictions holds whole values, so that two values of one restriction are different
members of it. It is only by merging that a restriction comes to a side, and what is merged
replaces all that has its name. So no side ever has two restrictions of one name, unless they
are given together, and nor has an entry that is written. Restrictions without a name are
nothing that could be told apart by name.

* `RestrictionSet.Unambiguous`: sets with at most one restriction of each name;
* `RestrictionSet.Unambiguous.merge`: merging keeps them so;
* `DecisionMap.Arises`: the maps that calls lead to, none of which is given two restrictions
  of one name;
* `DecisionMap.Arises.unambiguous`: there is one restriction of each name in them;
* `DecisionMap.arises_of_ofEntries`: stored entries lead to such maps.
-/

namespace AccessControl

/-! ## Sets -/

namespace RestrictionSet

variable {rs ss : RestrictionSet} {names : List (Option String)}

/-- Restrictions of one name are the same. -/
def Unambiguous (rs : RestrictionSet) : Prop :=
  ∀ x ∈ rs, ∀ y ∈ rs, x.name ≠ none → x.name = y.name → compare x y = .eq

/-- This can be told from the list of the members. -/
theorem unambiguous_iff_forall_mem_toList : rs.Unambiguous ↔
    ∀ x ∈ rs.toList, ∀ y ∈ rs.toList, x.name ≠ none → x.name = y.name → compare x y = .eq := by
  constructor
  · exact fun h x hx y hy => h x (mem_of_mem_toList hx) y (mem_of_mem_toList hy)
  · intro h x hx y hy hname hsame
    obtain ⟨x', hx', hxx'⟩ := exists_mem_toList hx
    obtain ⟨y', hy', hyy'⟩ := exists_mem_toList hy
    have hnamex := RestrictionOf.name_eq_of_compare hxx'
    have hnamey := RestrictionOf.name_eq_of_compare hyy'
    have heq := h x' hx' y' hy' (hnamex ▸ hname) (hnamex ▸ hnamey ▸ hsame)
    exact Std.TransCmp.eq_trans (Std.TransCmp.eq_trans hxx' heq) (Std.OrientedCmp.eq_symm hyy')

instance : Decidable rs.Unambiguous := decidable_of_iff _ unambiguous_iff_forall_mem_toList.symm

theorem Unambiguous.subset (h : rs.Unambiguous) (hsub : ∀ x ∈ ss, x ∈ rs) : ss.Unambiguous :=
  fun x hx y hy => h x (hsub x hx) y (hsub y hy)

/-- How a set is written makes no difference. -/
theorem Unambiguous.congr (hsame : rs.same ss = true) (h : rs.Unambiguous) : ss.Unambiguous :=
  h.subset fun x hx => (same_iff.1 hsame x).2 hx

theorem unambiguous_empty : Unambiguous ∅ :=
  fun _ hx => absurd hx Std.ExtTreeSet.not_mem_empty

theorem unambiguous_single (restriction : Restriction) : (single restriction).Unambiguous := by
  intro x hx y hy _ _
  have hback := Std.OrientedCmp.eq_symm (compare_of_mem_single hy)
  exact Std.TransCmp.eq_trans (compare_of_mem_single hx) hback

/-- What is merged into a set replaces what has the same name. -/
theorem Unambiguous.merge (h : rs.Unambiguous) (h' : ss.Unambiguous) :
    (rs.merge ss).Unambiguous := by
  intro x hx y hy hname hsame
  rcases mem_merge.1 hx with hx | ⟨hx, hkept⟩ <;> rcases mem_merge.1 hy with hy | ⟨hy, hkept'⟩
  · exact h' x hx y hy hname hsame
  · exact absurd hsame (hkept'.resolve_left (hsame ▸ hname) x hx)
  · exact absurd hsame.symm (hkept.resolve_left hname y hy)
  · exact h x hx y hy hname hsame

theorem Unambiguous.remove (h : rs.Unambiguous) (names : List (Option String)) :
    (rs.remove names).Unambiguous :=
  h.subset fun _ hx => (mem_remove.1 hx).1

end RestrictionSet

/-! ## Operations -/

/-- An operation that is not given two restrictions of one name leaves at most one of each. -/
theorem Operation.unambiguous_act {op : Operation} (hop : op.added.Unambiguous)
    {o : Option Decision} (ho : ∀ d ∈ o, d.OnSides RestrictionSet.Unambiguous) :
    ∀ d ∈ op.act o, d.OnSides RestrictionSet.Unambiguous :=
  onSides_act RestrictionSet.unambiguous_empty (fun _ h => h.merge hop)
    (fun _ names h => h.remove names) ho

namespace DecisionMap

variable {m n : DecisionMap} {acl : List Entry} {principal : Principal}

/-- The decision maps that calls lead to, none of which is given two restrictions of one name,
    and folds between them. -/
inductive Arises : DecisionMap → Prop
  /-- At first nothing is decided. -/
  | empty : Arises ∅
  /-- An operation is called for. -/
  | call {m n : DecisionMap} {op : Operation}
      {f : DecisionMap → List Privilege → Except Error DecisionMap} {targets : List Privilege} :
      Arises m → op.Called f → op.added.Unambiguous → f m targets = .ok n → Arises n
  /-- Something of no use is given, where it is not needed. -/
  | useless {m n : DecisionMap} {e : Error} {concerns : Decision → Bool}
      {targets : List Privilege} :
      Arises m → m.attempt (.error e) concerns targets = .ok n → Arises n
  /-- Decisions are folded. -/
  | fold {m : DecisionMap} (d : DepthIndex) (r : Registry) : Arises m → Arises (m.consolidate d r)

/-- There is at most one restriction of each name on each side of a decision, and in each entry
    that the decisions are written as. -/
structure Unambiguous (m : DecisionMap) : Prop where
  /-- Neither side of a decision has two restrictions of one name. -/
  sides : ∀ k, ∀ c ∈ m.get? k, ∀ e, (c.side e).restrictions.Unambiguous
  /-- No entry has. -/
  entries : ∀ d principal, ∀ a ∈ m.entries d principal, a.restrictions.Unambiguous

theorem unambiguous_of_onSides
    (h : ∀ k, ∀ c ∈ m.get? k, c.OnSides RestrictionSet.Unambiguous) : m.Unambiguous where
  sides := h
  entries _ _ _ ha :=
    forall_mem_entries (fun _ _ => .congr) (forall_inForce?_of_onSides h) ha

/-- An operation brings no second restriction of a name if it is not given two at once. -/
theorem Unambiguous.perform (hm : m.Unambiguous) {op : Operation} (hop : op.added.Unambiguous)
    {targets : List Privilege} (h : m.perform op targets = .ok n) : n.Unambiguous := by
  obtain ⟨ls, hls, rfl⟩ := exists_of_perform_eq_ok h
  refine unambiguous_of_onSides fun k => ?_
  rw [get?_performOnLeaves m op hls]
  split
  · exact op.unambiguous_act hop (hm.sides k)
  · exact hm.sides k

/-- A fold shares out the sets there are. -/
theorem Unambiguous.consolidate (hm : m.Unambiguous) (d : DepthIndex) (r : Registry) :
    (m.consolidate d r).Unambiguous :=
  unambiguous_of_onSides (onSides_consolidate RestrictionSet.unambiguous_empty hm.sides)

/-- After any number of calls there is at most one restriction of each name. -/
theorem Arises.unambiguous (h : m.Arises) : m.Unambiguous := by
  induction h with
  | empty => exact unambiguous_of_onSides fun k c hc => by cases hc
  | call _ hcall hop hn ih =>
    rw [hcall.eq_perform] at hn
    exact ih.perform hop hn
  | useless _ hn ih => exact eq_of_attempt_error hn ▸ ih
  | fold d r _ ih => exact ih.consolidate d r

/-- Entries with at most one restriction of each name lead to such maps. -/
theorem arises_of_ofEntries
    (hacl : ∀ a ∈ acl, a.isOf principal = true → a.restrictions.Unambiguous)
    (h : ofEntries acl principal = .ok m) : m.Arises := by
  refine foldlM_induction (fun a ha m n hm hn => ?_) .empty h
  obtain ⟨ha, hof⟩ := List.mem_filter.1 ha
  exact .call hm (.perform (.set a.effect a.restrictions)) (hacl a ha hof) hn

end DecisionMap

end AccessControl
