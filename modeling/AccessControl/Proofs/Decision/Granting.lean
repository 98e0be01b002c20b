import AccessControl.Proofs.Decision.Removal

/-!
# Granting in steps

Something may be allowed, or denied, under restrictions at once, or first without restrictions
and then under them. In between it is granted without restrictions, and takes the place of an
opposite that stands alone, without restrictions (`Decision.opposes`). In any other decision
one step leads to the same as two.

Something may also be denied first and allowed then, or the other way round, both without
restrictions. What is granted last takes the place of its opposite, unless it stands alone
under restrictions (`Decision.limited`): then both stay in force.

* `Decision.side_other_grant`: what becomes of the opposite of what is granted;
* `Decision.grant_grant_same`: one step and two lead to the same, unless the opposite stands
  alone;
* `Decision.grant_of_opposes_same`, `Decision.grant_grant_of_opposes_same`: what one step and two
  leave if it does;
* `Decision.grant_other_grant_same`: the opposite may be granted first, unless what is granted
  stands alone under restrictions;
* `Decision.grant_other_grant_of_limited_same`: what this leaves if it does.
-/

namespace AccessControl.Decision

variable {d : Decision} {e : Effect} {rs : RestrictionSet}

/-- A decision with the side of an effect in force, and restrictions merged into it, whether it
    contradicts itself or not. -/
def granted (d : Decision) (e : Effect) (rs : RestrictionSet) : Decision :=
  d.onSide e fun s => (s.switch true).merge rs

theorem grant_eq (d : Decision) (e : Effect) (rs : RestrictionSet) :
    d.grant e rs = (d.granted e rs).yield e.other := rfl

/-- The opposite of an effect is in force without restrictions, and the effect is not. -/
def opposes (d : Decision) (e : Effect) : Bool :=
  !(d.side e).active && (d.side e.other).active && (d.side e.other).restrictions.isEmpty

/-! ## An effect and its opposite -/

theorem other_other (e : Effect) : e.other.other = e := by cases e <;> rfl

/-- Decisions are the same if they are for an effect and for its opposite. -/
theorem same_iff_other {d' : Decision} (e : Effect) : d.same d' = true ↔
    (d.side e).same (d'.side e) = true ∧ (d.side e.other).same (d'.side e.other) = true := by
  rw [same, Bool.and_eq_true]
  cases e
  · rfl
  · exact and_comm

/-- A decision is told by the side of an effect and that of its opposite. -/
theorem same_onSide {d' : Decision} {s : Side} (hs : (d.side e).same s = true)
    (hother : (d.side e.other).same (d'.side e.other) = true) :
    d.same (d'.onSide e fun _ => s) = true := by
  refine (same_iff_other e).2 ⟨?_, ?_⟩
  · rwa [side_onSide_self]
  · rwa [side_onSide_of_ne _ (other_ne e)]

/-! ## Contradictions -/

theorem isContradictory_eq (d : Decision) (e : Effect) :
    d.isContradictory = ((d.side e).active && (d.side e.other).active &&
      (d.side e).restrictions.same (d.side e.other).restrictions) := by
  rw [Bool.eq_iff_iff, isContradictory_iff_other e, Bool.and_eq_true, Bool.and_eq_true]

/-- What is granted contradicts an opposite that is in force under the same restrictions. -/
theorem isContradictory_granted (d : Decision) (e : Effect) (rs : RestrictionSet) :
    (d.granted e rs).isContradictory = ((d.side e.other).active &&
      (RestrictionSet.merge (d.side e).restrictions rs).same (d.side e.other).restrictions) := by
  rw [isContradictory_eq _ e, granted, side_onSide_self, side_onSide_of_ne d (other_ne e)]
  simp [Side.switch, Side.merge, Side.withRestrictions]

/-- What is granted without restrictions contradicts an opposite that stands alone. -/
theorem isContradictory_granted_empty (hc : d.Clean) (h : d.isContradictory = false)
    (e : Effect) : (d.granted e ∅).isContradictory = d.opposes e := by
  have hrs : (RestrictionSet.merge (d.side e).restrictions ∅).same
      (d.side e.other).restrictions =
        (d.side e).restrictions.same (d.side e.other).restrictions :=
    RestrictionSet.same_congr (RestrictionSet.same_merge_empty _) (RestrictionSet.same_refl _)
  rw [isContradictory_eq d e] at h
  rw [isContradictory_granted, hrs, opposes]
  cases hact : (d.side e).active with
  | true => simpa [hact] using h
  | false => rw [hc e hact, RestrictionSet.empty_same, Bool.not_false, Bool.true_and]

/-- What is granted under restrictions does not contradict an opposite that stands alone. -/
theorem isContradictory_granted_of_opposes (hc : d.Clean) (h : d.opposes e = true)
    (hrs : rs.isEmpty = false) : (d.granted e rs).isContradictory = false := by
  simp only [opposes, Bool.and_eq_true, Bool.not_eq_true'] at h
  obtain ⟨⟨hoff, hother⟩, hempty⟩ := h
  rw [isContradictory_granted, hc e hoff, hother, Bool.true_and,
    Std.ExtTreeSet.isEmpty_iff.1 hempty, RestrictionSet.same_comm,
    RestrictionSet.same_congr (RestrictionSet.same_refl _) (RestrictionSet.merge_empty_same rs),
    RestrictionSet.empty_same, hrs]

/-! ## One step and two -/

/-- What is granted is in force. -/
theorem side_grant (d : Decision) (e : Effect) (rs : RestrictionSet) :
    (d.grant e rs).side e = ((d.side e).switch true).merge rs := by
  have hgranted : (d.granted e rs).side e = ((d.side e).switch true).merge rs :=
    side_onSide_self d e _
  rw [grant_eq, yield]
  split
  · rw [side_onSide_of_ne _ (other_ne e).symm, hgranted]
  · exact hgranted

theorem active_grant (d : Decision) (e : Effect) (rs : RestrictionSet) :
    ((d.grant e rs).side e).active = true := by
  rw [side_grant]
  rfl

/-- The opposite of what is granted gives way to it, or stays as it was. -/
theorem side_other_grant (d : Decision) (e : Effect) (rs : RestrictionSet) :
    (d.grant e rs).side e.other =
      if (d.granted e rs).isContradictory then .off else d.side e.other := by
  rw [grant_eq, yield]
  split
  · rw [side_onSide_self]
  · rw [granted, side_onSide_of_ne d (other_ne e)]

/-- What does not contradict its opposite may be restricted afterwards. -/
theorem granted_granted_same (d : Decision) (e : Effect) (rs : RestrictionSet) :
    (d.granted e rs).same ((d.granted e ∅).granted e rs) = true := by
  refine same_iff.2 fun e' => ?_
  by_cases he : e' = e
  · subst he
    simp only [granted, side_onSide_self]
    exact Side.same_iff.2 ⟨rfl, RestrictionSet.merge_congr
      (RestrictionSet.same_symm (RestrictionSet.same_merge_empty _))
      (RestrictionSet.same_refl _)⟩
  · simp only [granted, side_onSide_of_ne _ he]
    exact Side.same_refl _

/-- What was off before it is granted has no restrictions but those that it is granted under. -/
theorem side_grant_of_off (hc : d.Clean) (h : (d.side e).active = false) (rs : RestrictionSet) :
    (d.grant e rs).side e = ⟨true, RestrictionSet.merge ∅ rs⟩ := by
  rw [side_grant, Side.merge, ← hc e h]
  rfl

theorem active_of_opposes (h : d.opposes e = true) :
    (d.side e).active = false ∧ (d.side e.other).active = true := by
  simp only [opposes, Bool.and_eq_true, Bool.not_eq_true'] at h
  exact h.1

/-- An opposite that stands alone stays in force in one step, … -/
theorem side_other_grant_of_opposes (hc : d.Clean) (h : d.opposes e = true)
    (hrs : rs.isEmpty = false) : (d.grant e rs).side e.other = d.side e.other := by
  rw [side_other_grant, isContradictory_granted_of_opposes hc h hrs, if_neg Bool.false_ne_true]

/-- … and is gone after two. -/
theorem side_other_grant_grant_of_opposes (hc : d.Clean) (hcon : d.isContradictory = false)
    (h : d.opposes e = true) (rs : RestrictionSet) :
    ((d.grant e ∅).grant e rs).side e.other = .off := by
  have hfirst : (d.grant e ∅).side e.other = .off := by
    rw [side_other_grant, isContradictory_granted_empty hc hcon, h, if_pos rfl]
  rw [side_other_grant, hfirst]
  split <;> rfl

/-- One step leaves an opposite that stands alone beside what is granted. -/
theorem grant_of_opposes_same (hc : d.Clean) (h : d.opposes e = true) (hrs : rs.isEmpty = false) :
    (d.grant e rs).same (d.onSide e fun _ => ⟨true, rs⟩) = true := by
  refine same_onSide ?_ ?_
  · rw [side_grant_of_off hc (active_of_opposes h).1]
    exact Side.same_iff.2 ⟨rfl, RestrictionSet.merge_empty_same rs⟩
  · rw [side_other_grant_of_opposes hc h hrs]
    exact Side.same_refl _

/-- Two steps leave only what is granted. -/
theorem grant_grant_of_opposes_same (hc : d.Clean) (hcon : d.isContradictory = false)
    (h : d.opposes e = true) (rs : RestrictionSet) :
    ((d.grant e ∅).grant e rs).same (undecided.onSide e fun _ => ⟨true, rs⟩) = true := by
  refine same_onSide ?_ ?_
  · rw [side_grant, side_grant_of_off hc (active_of_opposes h).1]
    have hmerge := RestrictionSet.merge_congr (RestrictionSet.merge_empty_same ∅)
      (RestrictionSet.same_refl rs)
    exact Side.same_iff.2
      ⟨rfl, RestrictionSet.same_trans hmerge (RestrictionSet.merge_empty_same rs)⟩
  · rw [side_other_grant_grant_of_opposes hc hcon h, side_undecided]
    exact Side.same_refl _

/-- To grant something under restrictions leads to the same as to grant it first and to
    restrict it then, unless this takes the place of its opposite in between. -/
theorem grant_grant_same (hc : d.Clean) (hcon : d.isContradictory = false)
    (hrs : rs.isEmpty = false) :
    (d.grant e rs).same ((d.grant e ∅).grant e rs) = !d.opposes e := by
  cases h : d.opposes e with
  | false =>
    have hfirst : d.grant e ∅ = d.granted e ∅ :=
      yield_of_consistent ((isContradictory_granted_empty hc hcon e).trans h) e.other
    rw [hfirst, Bool.not_false]
    exact yield_congr (granted_granted_same d e rs) e.other
  | true =>
    rw [Bool.not_true, ← Bool.not_eq_true, same_iff]
    intro hsame
    have hboth := (Side.same_iff.1 (hsame e.other)).1
    rw [side_other_grant_of_opposes hc h hrs, side_other_grant_grant_of_opposes hc hcon h,
      (active_of_opposes h).2] at hboth
    cases hboth

/-! ## The opposite first -/

/-- An effect is in force under restrictions, and the opposite is not. -/
def limited (d : Decision) (e : Effect) : Bool :=
  (d.side e).active && !(d.side e.other).active && !(d.side e).restrictions.isEmpty

/-- To grant without restrictions what is granted already changes nothing. -/
theorem grant_of_active (hcon : d.isContradictory = false) (h : (d.side e).active = true) :
    (d.grant e ∅).same d = true := by
  have hgranted : (d.granted e ∅).same d = true := by
    refine same_iff.2 fun e' => ?_
    by_cases he : e' = e
    · subst he
      rw [granted, side_onSide_self]
      exact Side.same_iff.2 ⟨h.symm, RestrictionSet.same_merge_empty _⟩
    · rw [granted, side_onSide_of_ne _ he]
      exact Side.same_refl _
  rw [grant_eq, yield_of_consistent ((isContradictory_congr hgranted).trans hcon)]
  exact hgranted

/-- What has no restrictions takes the place of its opposite. -/
theorem grant_other_grant_of_empty (hc : d.Clean) (hother : (d.side e.other).active = false)
    (hrs : (d.side e).restrictions = ∅) :
    ((d.grant e.other ∅).grant e ∅).same (d.grant e ∅) = true := by
  -- After the first step nothing restricts either side.
  have hkept : ((d.grant e.other ∅).side e).restrictions = ∅ := by
    have hside := side_other_grant d e.other ∅
    rw [other_other] at hside
    rw [hside]
    split
    · rfl
    · exact hrs
  have hfirst := side_grant_of_off hc hother ∅
  have hcontra : ((d.grant e.other ∅).granted e ∅).isContradictory = true := by
    rw [isContradictory_granted, hkept, hfirst, Bool.true_and]
    exact RestrictionSet.same_refl _
  have hconsistent : (d.granted e ∅).isContradictory = false := by
    rw [isContradictory_granted, hother, Bool.false_and]
  refine (same_iff_other e).2 ⟨?_, ?_⟩
  · rw [side_grant, side_grant]
    refine Side.same_iff.2 ⟨rfl, RestrictionSet.merge_congr ?_ (RestrictionSet.same_refl _)⟩
    simp [Side.switch, hkept, hrs]
  · rw [side_other_grant, side_other_grant, hcontra, hconsistent, if_pos rfl,
      if_neg Bool.false_ne_true]
    refine Side.same_iff.2 ⟨hother.symm, ?_⟩
    rw [hc e.other hother]
    exact RestrictionSet.same_refl _

theorem active_of_limited (h : d.limited e = true) :
    (d.side e).active = true ∧ (d.side e.other).active = false := by
  simp only [limited, Bool.and_eq_true, Bool.not_eq_true'] at h
  exact h.1

/-- What stands alone under restrictions is not the same as anything without restrictions. -/
theorem differs_of_limited (h : d.limited e = true) (hrs : rs.same ∅ = true) :
    (d.side e).restrictions.same rs = false := by
  simp only [limited, Bool.and_eq_true, Bool.not_eq_true'] at h
  rw [RestrictionSet.same_congr (RestrictionSet.same_refl _) hrs, RestrictionSet.same_comm,
    RestrictionSet.empty_same, h.2]

/-- What stands alone under restrictions stays as it is when its opposite is granted. -/
theorem side_grant_other_of_limited (hc : d.Clean) (h : d.limited e = true) :
    (d.grant e.other ∅).side e = d.side e := by
  obtain ⟨hact, hother⟩ := active_of_limited h
  have hcontra : (d.granted e.other ∅).isContradictory = false := by
    rw [isContradictory_granted, other_other, hact, hc e.other hother, Bool.true_and,
      RestrictionSet.same_comm]
    exact differs_of_limited h (RestrictionSet.same_merge_empty ∅)
  have hside := side_other_grant d e.other ∅
  rwa [other_other, hcontra, if_neg Bool.false_ne_true] at hside

/-- The opposite that is granted first stays in force. -/
theorem side_other_grant_grant_of_limited (hc : d.Clean) (h : d.limited e = true) :
    ((d.grant e.other ∅).grant e ∅).side e.other = ⟨true, RestrictionSet.merge ∅ ∅⟩ := by
  have hfirst := side_grant_of_off hc (active_of_limited h).2 ∅
  have hcontra : ((d.grant e.other ∅).granted e ∅).isContradictory = false := by
    rw [isContradictory_granted, side_grant_other_of_limited hc h, hfirst, Bool.true_and,
      RestrictionSet.same_congr (RestrictionSet.same_merge_empty _)
        (RestrictionSet.same_merge_empty ∅)]
    exact differs_of_limited h (RestrictionSet.same_refl ∅)
  rw [side_other_grant, hcontra, if_neg Bool.false_ne_true, hfirst]

/-- What stands alone under restrictions does not take the place of its opposite if that is
    granted first: the opposite is left beside it, without restrictions. -/
theorem grant_other_grant_of_limited_same (hc : d.Clean) (h : d.limited e = true) :
    ((d.grant e.other ∅).grant e ∅).same (d.onSide e.other fun _ => ⟨true, ∅⟩) = true := by
  refine same_onSide ?_ ?_
  · rw [side_other_grant_grant_of_limited hc h]
    exact Side.same_iff.2 ⟨rfl, RestrictionSet.same_merge_empty ∅⟩
  · rw [other_other, side_grant, side_grant_other_of_limited hc h]
    exact Side.same_iff.2 ⟨(active_of_limited h).1.symm, RestrictionSet.same_merge_empty _⟩

/-- What is granted last takes the place of its opposite, as if only it had been granted,
    unless it stands alone under restrictions. -/
theorem grant_other_grant_same (hc : d.Clean) (hcon : d.isContradictory = false) (e : Effect) :
    ((d.grant e.other ∅).grant e ∅).same (d.grant e ∅) = !d.limited e := by
  cases hother : (d.side e.other).active with
  | true =>
    have hlimited : d.limited e = false := by simp [limited, hother]
    rw [hlimited, Bool.not_false]
    exact grant_congr (grant_of_active hcon hother) e ∅
  | false =>
    cases hrs : (d.side e).restrictions.isEmpty with
    | true =>
      have hlimited : d.limited e = false := by simp [limited, hrs]
      rw [hlimited, Bool.not_false]
      exact grant_other_grant_of_empty hc hother (Std.ExtTreeSet.isEmpty_iff.1 hrs)
    | false =>
      -- A side without restrictions of its own would not be off.
      have hact : (d.side e).active = true := by
        by_contra hoff
        rw [hc e (by simpa using hoff)] at hrs
        cases hrs
      have hlimited : d.limited e = true := by simp [limited, hact, hother, hrs]
      rw [hlimited, Bool.not_true, ← Bool.not_eq_true]
      intro hsame
      -- Granted alone it changes nothing, so that its opposite stays off.
      have hboth := (Side.same_iff.1 (same_iff.1
        (same_trans hsame (grant_of_active hcon hact)) e.other)).1
      rw [side_other_grant_grant_of_limited hc hlimited, hother] at hboth
      cases hboth

end AccessControl.Decision
