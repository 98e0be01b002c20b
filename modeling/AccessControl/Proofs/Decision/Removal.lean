import AccessControl.Proofs.Decision.Sameness

/-!
# Removing restrictions from both sides

Restrictions may be removed from both sides at once, and the side that allows wins if they
come to contradict each other (`Decision.unrestrictBoth`); or from one side after the other,
and the side that was changed last wins (`Decision.strip`). The first way does not depend on
whether names are removed together or one by one. Both ways lead to the same, but for one
situation: the sides contradict each other once the names are gone, and did not yet when they
were gone only from what allows (`Decision.collides`).

* `Decision.yield_onSides`: where both sides are changed in one way, one that has to give way
  may do so before or after;
* `Decision.unrestrictBoth_append_same`: names are removed one after the other;
* `Decision.foldl_unrestrictBoth_same`: so any number of removals are one;
* `Decision.strip_same`: both ways lead to the same, unless the sides collide;
* `Decision.strip_of_collides`, `Decision.unrestrictBoth_of_collides`: what each way leaves if
  they do.
-/

namespace AccessControl

namespace Side

/-- A change that both sides can be put through: it does not switch a side on or off, and
    what is the same stays the same. -/
structure Steady (f : Side → Side) : Prop where
  /-- A side is in force if it was. -/
  active : ∀ s, (f s).active = s.active
  /-- Nothing is done to a side that is off. -/
  off : f .off = .off
  /-- Sides that are the same become the same. -/
  congr : ∀ {s t}, s.same t = true → (f s).same (f t) = true

theorem remove_off (names : List (Option String)) : off.remove names = off := by
  rw [remove, withRestrictions, off, RestrictionSet.remove_empty]

theorem steady_remove (names : List (Option String)) : Steady fun s => s.remove names where
  active _ := rfl
  off := remove_off names
  congr h := remove_congr h names

theorem remove_nil_same (s : Side) : (s.remove []).same s = true :=
  same_iff.2 ⟨rfl, RestrictionSet.remove_nil_same _⟩

theorem remove_remove_same (s : Side) (names names' : List (Option String)) :
    ((s.remove names).remove names').same (s.remove (names ++ names')) = true :=
  same_iff.2 ⟨rfl, RestrictionSet.remove_remove_same _ names names'⟩

end Side

namespace Decision

variable {d d' : Decision} {f : Side → Side} {names names' : List (Option String)}

/-! ## Both sides in one way -/

/-- Changes each side in its own way. -/
def onSides (d : Decision) (f : Effect → Side → Side) : Decision :=
  ⟨f .allow d.allow, f .deny d.deny⟩

@[simp] theorem side_onSides (d : Decision) (f : Effect → Side → Side) (e : Effect) :
    (d.onSides f).side e = f e (d.side e) := by
  cases e <;> rfl

theorem yield_of_consistent (h : d.isContradictory = false) (e : Effect) : d.yield e = d := by
  simp [yield, h]

theorem yield_deny_of_contradictory (h : d.isContradictory = true) :
    d.yield .deny = ⟨d.allow, .off⟩ := by
  simp [yield, h, onSide]

theorem yield_allow_of_contradictory (h : d.isContradictory = true) :
    d.yield .allow = ⟨.off, d.deny⟩ := by
  simp [yield, h, onSide]

/-- Sides that contradict each other still do so when both are changed in one way. -/
theorem isContradictory_onSides (hf : Side.Steady f) (h : d.isContradictory = true) :
    (d.onSides fun _ => f).isContradictory = true := by
  obtain ⟨hactive, hrestrictions⟩ := isContradictory_iff.1 h
  have hsides : d.allow.same d.deny = true :=
    Side.same_iff.2 ⟨(hactive .allow).trans (hactive .deny).symm, hrestrictions⟩
  refine isContradictory_iff.2 ⟨fun e => ?_, (Side.same_iff.1 (hf.congr hsides)).2⟩
  rw [side_onSides, hf.active, hactive]

/-- It makes no difference whether a side gives way before or after both are changed. -/
theorem yield_onSides (hf : Side.Steady f) (d : Decision) :
    ((d.yield .deny).onSides fun _ => f).yield .deny = (d.onSides fun _ => f).yield .deny := by
  cases h : d.isContradictory with
  | false => rw [yield_of_consistent h]
  | true =>
    rw [yield_deny_of_contradictory h,
      yield_deny_of_contradictory (isContradictory_onSides hf h), onSides, hf.off]
    exact yield_of_consistent (by simp [isContradictory, Side.off]) .deny

/-! ## Names removed at once -/

/-- A decision without the restrictions of some names on either side, whether it contradicts
    itself or not. -/
def without (d : Decision) (names : List (Option String)) : Decision :=
  ⟨d.allow.remove names, d.deny.remove names⟩

theorem unrestrictBoth_eq (d : Decision) (names : List (Option String)) :
    d.unrestrictBoth names = (d.without names).yield .deny := rfl

theorem without_nil_same (d : Decision) : (d.without []).same d = true := by
  simp [same, without, Side.remove_nil_same]

theorem without_without_same (d : Decision) (names names' : List (Option String)) :
    ((d.without names).without names').same (d.without (names ++ names')) = true := by
  simp [same, without, Side.remove_remove_same]

/-- What is the same stays the same when restrictions are removed from it. -/
theorem isContradictory_without (h : d.isContradictory = true) (names : List (Option String)) :
    (d.without names).isContradictory = true :=
  isContradictory_onSides (Side.steady_remove names) h

/-- It makes no difference whether a side gives way before or after a removal. -/
theorem yield_without (d : Decision) (names : List (Option String)) :
    ((d.yield .deny).without names).yield .deny = (d.without names).yield .deny :=
  yield_onSides (Side.steady_remove names) d

theorem unrestrictBoth_append_same (d : Decision) (names names' : List (Option String)) :
    ((d.unrestrictBoth names).unrestrictBoth names').same
      (d.unrestrictBoth (names ++ names')) = true := by
  rw [unrestrictBoth_eq, unrestrictBoth_eq, unrestrictBoth_eq, yield_without]
  exact yield_congr (without_without_same d names names') .deny

/-- To remove nothing changes nothing, if there is no contradiction. -/
theorem unrestrictBoth_nil_same (h : d.isContradictory = false) :
    (d.unrestrictBoth []).same d = true := by
  have hcongr := yield_congr (without_nil_same d) .deny
  rwa [yield_of_consistent h] at hcongr

/-- Names are removed from both sides one after the other as they are removed together. -/
theorem foldl_unrestrictBoth_same (hd : d.Sound) (names : List (Option String)) :
    (names.foldl (fun d name => d.unrestrictBoth [name]) d).same (d.unrestrictBoth names) =
      true := by
  induction names generalizing d with
  | nil => exact same_symm (unrestrictBoth_nil_same hd.consistent)
  | cons name names ih =>
    exact same_trans (ih (sound_unrestrictBoth hd [name]))
      (unrestrictBoth_append_same d [name] names)

/-! ## One side after the other -/

/-- A decision without the restrictions of some names on the side that allows. -/
def withoutAllowed (d : Decision) (names : List (Option String)) : Decision :=
  ⟨d.allow.remove names, d.deny⟩

/-- Both sides are in force, and under the same restrictions once some names are removed from
    both of them, but not when they are removed only from what allows. -/
def collides (d : Decision) (names : List (Option String)) : Bool :=
  let allowed := RestrictionSet.remove d.allow.restrictions names
  let denied := RestrictionSet.remove d.deny.restrictions names
  d.allow.active && d.deny.active && allowed.same denied && !allowed.same d.deny.restrictions

theorem collides_eq (d : Decision) (names : List (Option String)) : d.collides names =
    ((d.without names).isContradictory && !(d.withoutAllowed names).isContradictory) := by
  simp only [collides, isContradictory, without, withoutAllowed, Side.remove,
    Side.withRestrictions]
  cases d.allow.active <;> cases d.deny.active <;> simp

/-- A side that is not in force has nothing to remove. -/
theorem Clean.remove_eq (hd : d.Clean) (e : Effect) (h : (d.side e).active = false)
    (names : List (Option String)) : (d.side e).remove names = d.side e := by
  rw [Side.remove, Side.withRestrictions, hd e h, RestrictionSet.remove_empty, ← hd e h]

/-- The side that allows is looked at first, and wins over what denies as it was; what denies
    wins over it as it has become. -/
theorem strip_eq (hd : d.Clean) : d.strip names =
    if (d.withoutAllowed names).isContradictory then ⟨d.allow.remove names, .off⟩
    else (d.without names).yield .allow := by
  have hdeny (d : Decision) : d.unrestrict .deny names =
      (⟨d.allow, d.deny.remove names⟩ : Decision).yield .allow := rfl
  have hallow : d.unrestrict .allow names = (d.withoutAllowed names).yield .deny := rfl
  rw [strip, hallow]
  cases ha : d.allow.active with
  | false =>
    have hremove : d.allow.remove names = d.allow := hd.remove_eq .allow ha names
    have hcontra : (d.withoutAllowed names).isContradictory = false := by
      simp [withoutAllowed, hremove, isContradictory, ha]
    rw [hcontra]
    cases hb : d.deny.active with
    | false =>
      have hremove' : d.deny.remove names = d.deny := hd.remove_eq .deny hb names
      simp [hb, without, hremove, hremove', yield, isContradictory]
    | true => simp [hb, without, hremove, hdeny]
  | true =>
    cases hcontra : (d.withoutAllowed names).isContradictory with
    | true =>
      rw [yield_deny_of_contradictory hcontra]
      simp [Side.off, withoutAllowed]
    | false =>
      rw [yield_of_consistent hcontra]
      cases hb : d.deny.active with
      | false =>
        have hremove' : d.deny.remove names = d.deny := hd.remove_eq .deny hb names
        simp [hb, withoutAllowed, without, hremove', yield, isContradictory]
      | true => simp [hb, withoutAllowed, hdeny, without]

/-- What contradicts each other when names are gone from one side does so when they are gone
    from both, as there are none of them left. -/
theorem isContradictory_without_of_allowed (h : (d.withoutAllowed names).isContradictory = true) :
    (d.without names).isContradictory = true := by
  have hsame : ((d.withoutAllowed names).without names).same (d.without names) = true := by
    refine same_iff.2 fun e => Side.same_iff.2 ?_
    cases e with
    | allow => exact ⟨rfl, RestrictionSet.remove_idem_same _ names⟩
    | deny => exact ⟨rfl, RestrictionSet.same_refl _⟩
  rw [← isContradictory_congr hsame]
  exact isContradictory_without h names

/-- Where the sides collide, one side after the other leaves what denies. -/
theorem strip_of_collides (hd : d.Clean) (h : d.collides names = true) :
    d.strip names = ⟨.off, d.deny.remove names⟩ := by
  rw [collides_eq, Bool.and_eq_true, Bool.not_eq_true'] at h
  obtain ⟨hboth, hallowed⟩ := h
  rw [strip_eq hd, hallowed, if_neg Bool.false_ne_true, yield_allow_of_contradictory hboth]
  rfl

/-- Both sides at once leave what allows. -/
theorem unrestrictBoth_of_collides (h : d.collides names = true) :
    d.unrestrictBoth names = ⟨d.allow.remove names, .off⟩ := by
  rw [collides_eq, Bool.and_eq_true] at h
  rw [unrestrictBoth_eq, yield_deny_of_contradictory h.1]
  rfl

/-- Both ways lead to the same, unless the sides collide. -/
theorem strip_same (hd : d.Clean) :
    (d.strip names).same (d.unrestrictBoth names) = !d.collides names := by
  by_cases h : d.collides names = true
  · have hallow : (d.allow.remove names).active = true := by
      rw [collides] at h
      simp only [Bool.and_eq_true] at h
      exact h.1.1.1
    rw [strip_of_collides hd h, unrestrictBoth_of_collides h, h]
    simp [same, Side.same, Side.off, hallow]
  · have hfree := Bool.eq_false_iff.2 h
    rw [hfree, strip_eq hd, unrestrictBoth_eq]
    rw [collides_eq] at hfree
    by_cases hallowed : (d.withoutAllowed names).isContradictory = true
    · rw [if_pos hallowed,
        yield_deny_of_contradictory (isContradictory_without_of_allowed hallowed)]
      simp [without, same_refl]
    · rw [Bool.eq_false_iff.2 hallowed, Bool.not_false, Bool.and_true] at hfree
      simp [hallowed, yield_of_consistent hfree, same_refl]

/-- Nothing is removed from one side after the other if there is nothing to remove. -/
theorem strip_nil_same (hd : d.Sound) : (d.strip []).same d = true := by
  have hcollides : d.collides [] = false := by
    rw [collides_eq, isContradictory_congr (without_nil_same d), hd.consistent, Bool.false_and]
  have hboth : (d.strip []).same (d.unrestrictBoth []) = true := by
    rw [strip_same hd.clean, hcollides, Bool.not_false]
  exact same_trans hboth (unrestrictBoth_nil_same hd.consistent)

end Decision

end AccessControl
