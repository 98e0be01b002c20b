import AccessControl.Decision.Operation
import AccessControl.Proofs.Restriction.Sameness

/-!
# Sound decisions

A decision is sound when it says something, when a side that is not in force has
no restrictions, and when its sides, if both are in force, are so under different
restrictions. What an operation leaves of a sound decision is sound.

* `Decision.Sound`: the three conditions;
* `Decision.sound_yield`: letting a side give way restores the last of them;
* `Operation.sound_act`: every operation keeps decisions sound.
-/

namespace AccessControl

namespace Decision

variable {d : Decision} {e : Effect}

/-! ## Sides -/

theorem other_ne (e : Effect) : e.other ≠ e := by cases e <;> simp [Effect.other]

@[simp] theorem side_onSide_self (d : Decision) (e : Effect) (f : Side → Side) :
    (d.onSide e f).side e = f (d.side e) := by
  cases e <;> rfl

@[simp] theorem side_onSide_of_ne (d : Decision) {e e' : Effect} (h : e' ≠ e) (f : Side → Side) :
    (d.onSide e f).side e' = d.side e' := by
  cases e <;> cases e' <;> first | rfl | exact absurd rfl h

@[simp] theorem side_undecided (e : Effect) : undecided.side e = .off := by cases e <;> rfl

theorem isUndecided_eq_false_iff : d.isUndecided = false ↔ ∃ e, (d.side e).active = true := by
  constructor
  · intro h
    cases ha : d.allow.active
    · exact ⟨.deny, by simpa [isUndecided, side, ha] using h⟩
    · exact ⟨.allow, ha⟩
  · rintro ⟨e, he⟩
    cases e <;> simp_all [isUndecided, side]

theorem isContradictory_iff :
    d.isContradictory = true ↔ (∀ e, (d.side e).active = true) ∧
      (d.side .allow).restrictions.same (d.side .deny).restrictions = true := by
  rw [isContradictory, Bool.and_eq_true, Bool.and_eq_true]
  refine and_congr_left fun _ => ⟨?_, fun h => ⟨h .allow, h .deny⟩⟩
  rintro ⟨ha, hd⟩ e
  cases e with
  | allow => exact ha
  | deny => exact hd

/-- Stated for an effect and its opposite, contradiction is the same for both. -/
theorem isContradictory_iff_other (e : Effect) :
    d.isContradictory = true ↔ ((d.side e).active = true ∧ (d.side e.other).active = true) ∧
      (d.side e).restrictions.same (d.side e.other).restrictions = true := by
  rw [isContradictory, Bool.and_eq_true, Bool.and_eq_true]
  cases e
  · rfl
  · rw [RestrictionSet.same_comm, and_comm (a := d.allow.active = true)]
    rfl

/-! ## Soundness -/

/-- The sides of a decision that are not in force have no restrictions. -/
def Clean (d : Decision) : Prop := ∀ e, (d.side e).active = false → (d.side e).restrictions = ∅

/-- A decision that says something, and does not contradict itself. -/
structure Sound (d : Decision) : Prop where
  /-- Some side is in force. -/
  decided : d.isUndecided = false
  /-- A side that is not in force has no restrictions. -/
  clean : d.Clean
  /-- Sides that are both in force are so under different restrictions. -/
  consistent : d.isContradictory = false

theorem clean_undecided : undecided.Clean := fun e _ => by rw [side_undecided, Side.off]

theorem Clean.onSide (h : d.Clean) (e : Effect) {f : Side → Side}
    (hf : (f (d.side e)).active = false → (f (d.side e)).restrictions = ∅) :
    (d.onSide e f).Clean := by
  intro e'
  by_cases he : e' = e
  · rw [he, side_onSide_self]
    exact hf
  · rw [side_onSide_of_ne d he]
    exact h e'

/-- Of a contradiction the opposite side stays, and nothing else is taken back. -/
theorem sound_yield (hc : d.Clean) (hd : d.isUndecided = false) (e : Effect) :
    (d.yield e).Sound := by
  rw [yield]
  split
  next h =>
    -- In a contradiction both sides are in force, so that one of them is left.
    have hother : ((d.onSide e fun _ => .off).side e.other).active = true := by
      rw [side_onSide_of_ne d (other_ne e)]
      exact (isContradictory_iff.1 h).1 e.other
    refine ⟨isUndecided_eq_false_iff.2 ⟨_, hother⟩, hc.onSide e fun _ => rfl, ?_⟩
    rw [← Bool.not_eq_true, isContradictory_iff]
    rintro ⟨hact, _⟩
    simpa [Side.off] using hact e
  next h => exact ⟨hd, hc, by simpa using h⟩

/-! ## Operations -/

theorem sound_grant (hc : d.Clean) (e : Effect) (rs : RestrictionSet) : (d.grant e rs).Sound := by
  refine sound_yield (hc.onSide e ?_) (isUndecided_eq_false_iff.2 ⟨e, ?_⟩) _
  · simp [Side.switch, Side.merge, Side.withRestrictions]
  · simp [Side.switch, Side.merge, Side.withRestrictions]

/-- Granting what was not granted before, under restrictions that do not contradict the
    opposite side, leaves this side alone. -/
theorem grant_of_off {rs : RestrictionSet}
    (hoff : d.side e = .off)
    (hother : ∀ ss, (d.side e.other).inForce? = some ss → rs.same ss = false) :
    d.grant e rs = d.onSide e fun _ => ⟨true, RestrictionSet.merge ∅ rs⟩ := by
  have hset : (d.onSide e fun s => (s.switch true).merge rs) =
      d.onSide e fun _ => ⟨true, RestrictionSet.merge ∅ rs⟩ := by
    cases e with
    | allow =>
      rw [onSide, onSide, show d.allow = .off from hoff]
      rfl
    | deny =>
      rw [onSide, onSide, show d.deny = .off from hoff]
      rfl
  -- No side gives way, as there is no contradiction.
  rw [grant, hset, yield, if_neg]
  rw [isContradictory_iff_other e, side_onSide_self, side_onSide_of_ne d (other_ne e)]
  rintro ⟨⟨_, hact⟩, hsame⟩
  have hcontra := hother _ (by rw [Side.inForce?, if_pos hact])
  rw [← RestrictionSet.same_congr (RestrictionSet.merge_empty_same rs)
    (RestrictionSet.same_refl _), hsame] at hcontra
  cases hcontra

theorem sound_restrict (hd : d.Sound) (rs : RestrictionSet) : (d.restrict rs).Sound := by
  let merge (s : Side) : Side := if s.active then s.merge rs else s
  have hactive (s : Side) : (merge s).active = s.active := by
    cases h : s.active <;> simp [merge, h, Side.merge, Side.withRestrictions]
  have hclean {d : Decision} (hd : d.Clean) (e : Effect) : (d.onSide e merge).Clean := by
    refine hd.onSide e fun h => ?_
    rw [hactive] at h
    simpa [merge, h] using hd e h
  refine sound_yield (hclean (hclean hd.clean .allow) .deny) ?_ .deny
  simpa [isUndecided, onSide, hactive] using hd.decided

theorem Clean.remove (hd : d.Clean) (e : Effect) (names : List (Option String)) :
    (d.onSide e fun s => s.remove names).Clean := by
  refine hd.onSide e fun h => ?_
  have : (d.side e).restrictions = ∅ := hd e h
  rw [Side.remove, Side.withRestrictions, this, RestrictionSet.remove_empty]

theorem isUndecided_remove (d : Decision) (e : Effect) (names : List (Option String)) :
    (d.onSide e fun s => s.remove names).isUndecided = d.isUndecided := by
  cases e <;> rfl

theorem sound_unrestrict (hd : d.Sound) (e : Effect) (names : List (Option String)) :
    (d.unrestrict e names).Sound :=
  sound_yield (hd.clean.remove e names) ((isUndecided_remove d e names).trans hd.decided) _

theorem sound_unrestrictBoth (hd : d.Sound) (names : List (Option String)) :
    (d.unrestrictBoth names).Sound :=
  sound_yield ((hd.clean.remove .allow names).remove .deny names)
    (by rw [isUndecided_remove, isUndecided_remove, hd.decided]) _

theorem sound_strip (hd : d.Sound) (names : List (Option String)) : (d.strip names).Sound := by
  have hstep {d : Decision} (hd : d.Sound) (e : Effect) :
      (if (d.side e).active then d.unrestrict e names else d).Sound := by
    split
    · exact sound_unrestrict hd e names
    · exact hd
  exact hstep (hstep hd .allow) .deny

theorem sound_of_decided? {d' : Decision} (hc : d.Clean) (hcon : d.isContradictory = false)
    (h : d.decided? = some d') : d'.Sound := by
  rw [decided?, Option.ite_none_left_eq_some, Option.some.injEq] at h
  obtain ⟨hd, rfl⟩ := h
  exact ⟨by simpa using hd, hc, hcon⟩

/-- What is left of a sound decision whose side is taken back is sound. -/
theorem sound_clear (hd : d.Sound) (e : Effect) {d' : Decision}
    (h : (d.onSide e fun s => s.switch false).decided? = some d') : d'.Sound := by
  refine sound_of_decided? (hd.clean.onSide e fun _ => rfl) ?_ h
  rw [← Bool.not_eq_true, isContradictory_iff]
  rintro ⟨hact, _⟩
  simpa [Side.switch, Side.off] using hact e

end Decision

/-- Every operation leaves a sound decision, or none. -/
theorem Operation.sound_act (op : Operation) {o : Option Decision} (ho : ∀ d ∈ o, d.Sound) :
    ∀ d ∈ op.act o, d.Sound := by
  intro d' hd'
  cases op with
  | set e rs =>
    obtain rfl := Option.some.inj hd'
    refine Decision.sound_grant ?_ e rs
    cases o with
    | none => exact Decision.clean_undecided
    | some d => exact (ho d rfl).clean
  | clear e =>
    obtain ⟨d, rfl, hd⟩ := Option.bind_eq_some_iff.1 hd'
    exact Decision.sound_clear (ho d rfl) e hd
  | drop => cases hd'
  | restrict rs =>
    obtain ⟨d, rfl, rfl⟩ := Option.map_eq_some_iff.1 hd'
    exact Decision.sound_restrict (ho d rfl) rs
  | unrestrict e names =>
    obtain ⟨d, rfl, rfl⟩ := Option.map_eq_some_iff.1 hd'
    exact Decision.sound_unrestrict (ho d rfl) e names
  | unrestrictBoth names =>
    obtain ⟨d, rfl, rfl⟩ := Option.map_eq_some_iff.1 hd'
    exact Decision.sound_unrestrictBoth (ho d rfl) names

end AccessControl
