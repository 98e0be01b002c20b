import AccessControl.Proofs.Decision.Exactness
import AccessControl.Proofs.Decision.Removal
import AccessControl.Proofs.Entry.Render
import AccessControl.Proofs.Restriction.Merging

/-!
# Where decisions come from

A side comes into force, and a restriction comes to a side, only by an operation that says
so. Other operations take back what there is, and neither a fold nor what is written brings
up anything else.

* `Operation.isOn_of_act`: a side that no operation puts in force stays off;
* `Operation.onSides_act`: what an operation keeps of the restrictions of both sides;
* `Operation.lacks_act`: a name that no operation adds stays away;
* `Decision.lacks_unrestrictBoth`, `Decision.lacks_strip`: a name that is removed is away;
* `DecisionMap.onSides_consolidate`: a fold forms no new sets of restrictions;
* `DecisionMap.exists_inForce?_of_mem_privileges`, `DecisionMap.forall_mem_entries`: what the
  entries of a map say is in force in it.
-/

namespace AccessControl

namespace Decision

variable {d : Decision} {name : Option String} {names : List (Option String)} {e : Effect}

/-! ## Sides in force -/

/-- The side of an effect is in force, if there is a decision at all. -/
def IsOn (e : Effect) (o : Option Decision) : Prop := ∃ d ∈ o, (d.side e).active = true

/-- A side that gives way is not in force any more, and no other side comes into force. -/
theorem active_of_yield {e' : Effect} (h : ((d.yield e').side e).active = true) :
    (d.side e).active = true := by
  rw [yield] at h
  split at h
  · by_cases he : e = e'
    · rw [he, side_onSide_self] at h
      cases h
    · rwa [side_onSide_of_ne d he] at h
  · exact h

/-! ## What holds of both sides -/

/-- The restrictions of both sides have a property. -/
def OnSides (P : RestrictionSet → Prop) (d : Decision) : Prop := ∀ e, P (d.side e).restrictions

section OnSides

variable {P : RestrictionSet → Prop} (hempty : P ∅)

include hempty in
theorem onSides_undecided : undecided.OnSides P := fun e => by
  rw [side_undecided]
  exact hempty

theorem OnSides.onSide (h : d.OnSides P) (e : Effect) (f : Side → Side)
    (hf : P (f (d.side e)).restrictions) : (d.onSide e f).OnSides P := by
  intro e'
  by_cases he : e' = e
  · rw [he, side_onSide_self]
    exact hf
  · rw [side_onSide_of_ne d he]
    exact h e'

include hempty in
theorem OnSides.yield (h : d.OnSides P) (e : Effect) : (d.yield e).OnSides P := by
  rw [Decision.yield]
  split
  · exact h.onSide e _ hempty
  · exact h

end OnSides

/-! ## Decisions without a restriction -/

/-- Neither side of a decision has a restriction of a name. -/
def Lacks (name : Option String) (d : Decision) : Prop :=
  ∀ e, (d.side e).restrictions.names name = false

theorem Lacks.onSides (h : d.Lacks name) : d.OnSides fun rs => rs.names name = false := h

/-- A name that is removed from both sides is not there any more. -/
theorem lacks_without (h : name ∈ names) (d : Decision) : (d.without names).Lacks name := by
  have hremove (rs : RestrictionSet) : (rs.remove names).names name = false := by
    rw [RestrictionSet.names_remove, decide_eq_false (not_not_intro h), Bool.and_false]
  intro e
  cases e with
  | allow => exact hremove _
  | deny => exact hremove _

theorem lacks_unrestrictBoth (h : name ∈ names) (d : Decision) :
    (d.unrestrictBoth names).Lacks name := by
  rw [unrestrictBoth_eq]
  exact (lacks_without h d).onSides.yield (RestrictionSet.names_empty name) .deny

/-- Nor is it if it is removed from the sides in force, one after the other. -/
theorem lacks_strip (hd : d.Clean) (h : name ∈ names) : (d.strip names).Lacks name := by
  rw [strip_eq hd]
  have hempty := RestrictionSet.names_empty name
  split
  · exact (lacks_without h d).onSides.onSide .deny (fun _ => .off) hempty
  · exact (lacks_without h d).onSides.yield hempty .allow

end Decision

/-! ## Operations -/

namespace Operation

variable {e : Effect} {o : Option Decision} {name : Option String}

/-- The side that an operation puts in force. -/
def grants? : Operation → Option Effect
  | set e _ => some e
  | clear _ | drop | restrict _ | unrestrict _ _ | unrestrictBoth _ => none

/-- The restrictions that an operation adds. -/
def added : Operation → RestrictionSet
  | set _ rs | restrict rs => rs
  | clear _ | drop | unrestrict _ _ | unrestrictBoth _ => ∅

/-- What is done to a side without switching it on does not put it in force. -/
theorem active_of_onSide {d : Decision} {e' : Effect} {f : Side → Side}
    (h : ((d.onSide e' f).side e).active = true)
    (hf : (f (d.side e')).active = true → (d.side e').active = true) :
    (d.side e).active = true := by
  by_cases he : e = e'
  · subst he
    rw [Decision.side_onSide_self] at h
    exact hf h
  · rwa [Decision.side_onSide_of_ne d he] at h

/-- An operation puts no side in force but the one that it grants. -/
theorem isOn_of_act {op : Operation} (hop : op.grants? ≠ some e)
    (h : Decision.IsOn e (op.act o)) : Decision.IsOn e o := by
  obtain ⟨d', hd', hact⟩ := h
  cases op with
  | set e' rs =>
    have he : e ≠ e' := fun he => hop (congrArg some he.symm)
    obtain rfl := Option.some.inj hd'
    have hact := Decision.active_of_yield hact
    rw [Decision.side_onSide_of_ne _ he] at hact
    cases o with
    | none =>
      rw [Option.getD_none, Decision.side_undecided] at hact
      cases hact
    | some d => exact ⟨d, rfl, hact⟩
  | clear e' =>
    obtain ⟨d, rfl, hd'⟩ := Option.bind_eq_some_iff.1 hd'
    obtain ⟨rfl, _⟩ := DecisionMap.isUndecided_of_decided? hd'
    exact ⟨d, rfl, active_of_onSide hact fun h => absurd h Bool.false_ne_true⟩
  | drop => cases hd'
  | restrict rs =>
    obtain ⟨d, rfl, rfl⟩ := Option.map_eq_some_iff.1 hd'
    have hmerge (s : Side) (h : (if s.active then s.merge rs else s).active = true) :
        s.active = true := by
      split at h
      next hs => exact hs
      next => exact h
    rw [Decision.restrict] at hact
    exact ⟨d, rfl, active_of_onSide
      (active_of_onSide (Decision.active_of_yield hact) (hmerge _)) (hmerge _)⟩
  | unrestrict e' names =>
    obtain ⟨d, rfl, rfl⟩ := Option.map_eq_some_iff.1 hd'
    exact ⟨d, rfl, active_of_onSide (Decision.active_of_yield hact) id⟩
  | unrestrictBoth names =>
    obtain ⟨d, rfl, rfl⟩ := Option.map_eq_some_iff.1 hd'
    exact ⟨d, rfl, active_of_onSide (active_of_onSide (Decision.active_of_yield hact) id) id⟩

/-- Taking back a side leaves nothing of its restrictions. -/
theorem onSides_clear {P : RestrictionSet → Prop} (hempty : P ∅) (ho : ∀ d ∈ o, d.OnSides P) :
    ∀ d ∈ (clear e).act o, d.OnSides P := by
  intro d' hd'
  obtain ⟨d, rfl, hd'⟩ := Option.bind_eq_some_iff.1 hd'
  obtain ⟨rfl, _⟩ := DecisionMap.isUndecided_of_decided? hd'
  exact (ho d rfl).onSide e _ hempty

/-- What is so of the empty set, and remains so when names are removed from a set and when the
    restrictions are merged into it that an operation adds, remains so of both sides. -/
theorem onSides_act {op : Operation} {P : RestrictionSet → Prop} (hempty : P ∅)
    (hmerge : ∀ rs, P rs → P (rs.merge op.added)) (hremove : ∀ rs names, P rs → P (rs.remove names))
    (ho : ∀ d ∈ o, d.OnSides P) : ∀ d ∈ op.act o, d.OnSides P := by
  intro d' hd'
  cases op with
  | set e rs =>
    obtain rfl := Option.some.inj hd'
    have hd : (o.getD .undecided).OnSides P := by
      cases o with
      | none => exact Decision.onSides_undecided hempty
      | some d => exact ho d rfl
    exact (hd.onSide e _ (hmerge _ (hd e))).yield hempty e.other
  | clear e => exact onSides_clear hempty ho d' hd'
  | drop => cases hd'
  | restrict rs =>
    obtain ⟨d, rfl, rfl⟩ := Option.map_eq_some_iff.1 hd'
    have hmerged {d : Decision} (hd : d.OnSides P) (e : Effect) :
        (d.onSide e fun s => if s.active then s.merge rs else s).OnSides P := by
      refine hd.onSide e _ ?_
      split
      · exact hmerge _ (hd e)
      · exact hd e
    exact (hmerged (hmerged (ho d rfl) .allow) .deny).yield hempty .deny
  | unrestrict e names =>
    obtain ⟨d, rfl, rfl⟩ := Option.map_eq_some_iff.1 hd'
    exact ((ho d rfl).onSide e _ (hremove _ names (ho d rfl e))).yield hempty e.other
  | unrestrictBoth names =>
    obtain ⟨d, rfl, rfl⟩ := Option.map_eq_some_iff.1 hd'
    have hallow := (ho d rfl).onSide .allow (·.remove names) (hremove _ names (ho d rfl .allow))
    exact (hallow.onSide .deny _ (hremove _ names (hallow .deny))).yield hempty .deny

/-- An operation brings no name but those of the restrictions that it adds. -/
theorem lacks_act {op : Operation} (hop : op.added.names name = false)
    (ho : ∀ d ∈ o, d.Lacks name) : ∀ d ∈ op.act o, d.Lacks name := by
  refine onSides_act (P := fun rs => rs.names name = false) (RestrictionSet.names_empty name)
    (fun rs hrs => ?_) (fun rs names hrs => ?_) ho
  · rw [RestrictionSet.names_merge, hrs, hop, Bool.or_false]
  · rw [RestrictionSet.names_remove, hrs, Bool.false_and]

end Operation

/-! ## Folding and writing -/

namespace DecisionMap

variable {m : DecisionMap} {r : Registry} {d : DepthIndex} {principal : Principal} {e : Effect}
  {a : Entry}

/-- What is said of the sides in force of decisions is said of what is in force. -/
theorem isSome_inForce?_iff {k : String} :
    (m.inForce? e k).isSome = true ↔ Decision.IsOn e (m.get? k) := by
  rw [inForce?_eq, Decision.IsOn]
  cases m.get? k with
  | none => simp
  | some d => simp [Side.inForce?]

/-- What is so of both sides of all decisions is so of what is in force. -/
theorem forall_inForce?_of_onSides {P : RestrictionSet → Prop}
    (h : ∀ k, ∀ d ∈ m.get? k, d.OnSides P) : ∀ e k, ∀ rs ∈ m.inForce? e k, P rs := by
  intro e k rs hrs
  obtain ⟨b, hb, rfl, _, rfl⟩ := inForce?_eq_some_iff.1 hrs
  exact h b.id b.decision (get?_of_mem hb) e

/-- A fold forms no new sets of restrictions, whatever is folded. -/
theorem onSides_consolidate {P : RestrictionSet → Prop} (hempty : P ∅)
    (h : ∀ k, ∀ c ∈ m.get? k, c.OnSides P) :
    ∀ k, ∀ c ∈ (m.consolidate d r).get? k, c.OnSides P := by
  refine consolidate_induction (P := fun m => ∀ k, ∀ c ∈ m.get? k, c.OnSides P)
    (fun step hstep m f hm hf k c hc => ?_) h
  obtain ⟨rs, hrs, hget⟩ := get?_of_fold? (Registry.splits_of_mem_foldSteps hstep).proper hf
  rw [hget] at hc
  split at hc
  · -- The aggregate takes the set of one of its children.
    obtain ⟨⟨child, _, hchild⟩, _⟩ := common?_eq_some hrs
    obtain rfl := Option.some.inj hc
    have hbefore : ((m.get? k).getD .undecided).OnSides P := by
      cases hk : m.get? k with
      | none => exact Decision.onSides_undecided hempty
      | some c => exact hm k c hk
    exact hbefore.onSide step.effect _ (forall_inForce?_of_onSides hm step.effect child rs hchild)
  · split at hc
    · exact Operation.onSides_clear hempty (hm k) c hc
    · exact hm k c hc

/-- What an entry names is in force under its restrictions. -/
theorem exists_inForce?_of_mem_privileges (h : a ∈ m.entries d principal) {p : Privilege}
    (hp : p ∈ a.privileges) :
    p ∈ m.privileges ∧
      ∃ rs, m.inForce? a.effect p.id = some rs ∧ rs.same a.restrictions = true := by
  obtain ⟨b, hb, rfl, hact, hsame⟩ :=
    (mem_privileges_entry_iff (mem_entriesFor_effect h)).1 hp
  exact ⟨List.mem_map_of_mem hb, _, inForce?_eq_some_iff.2 ⟨b, hb, rfl, hact, rfl⟩, hsame⟩

/-- What is so of all that is in force is so of the restrictions of entries, however these are
    written. -/
theorem forall_mem_entries {P : RestrictionSet → Prop}
    (hsame : ∀ rs ss : RestrictionSet, rs.same ss = true → P rs → P ss)
    (h : ∀ e k, ∀ rs ∈ m.inForce? e k, P rs) (ha : a ∈ m.entries d principal) :
    P a.restrictions := by
  obtain ⟨p, hp⟩ := List.exists_mem_of_ne_nil _ (privileges_ne_nil ha)
  obtain ⟨_, rs, hrs, hwritten⟩ := exists_inForce?_of_mem_privileges ha hp
  exact hsame rs a.restrictions hwritten (h _ _ rs hrs)

end DecisionMap

end AccessControl
