import AccessControl.Proofs.Decision.Reachable
import Mathlib.Data.List.Perm.Subperm

/-!
# Sameness of decisions and maps

Decisions are the same when their sides are, and maps when they say the same of
every name, in whatever order and however the restrictions are written. Nothing
that is done with decisions tells those apart that are the same.

* `Operation.act_congr`: operations respect sameness;
* `DecisionMap.same_iff`: maps are the same if their decisions of every name are;
* `DecisionMap.same_of_inForce?`: sound maps are the same if the same is in force
  on either side.
-/

namespace AccessControl

/-! ## Sides -/

namespace Side

variable {s t u : Side}

theorem same_iff :
    s.same t = true ↔ s.active = t.active ∧ s.restrictions.same t.restrictions = true := by
  rw [same, Bool.and_eq_true, beq_iff_eq]

theorem same_refl (s : Side) : s.same s = true := same_iff.2 ⟨rfl, RestrictionSet.same_refl _⟩

theorem same_symm (h : s.same t = true) : t.same s = true :=
  same_iff.2 ⟨(same_iff.1 h).1.symm, RestrictionSet.same_symm (same_iff.1 h).2⟩

theorem same_trans (h : s.same t = true) (h' : t.same u = true) : s.same u = true :=
  same_iff.2 ⟨(same_iff.1 h).1.trans (same_iff.1 h').1,
    RestrictionSet.same_trans (same_iff.1 h).2 (same_iff.1 h').2⟩

theorem switch_congr (h : s.same t = true) (active : Bool) :
    (s.switch active).same (t.switch active) = true := by
  cases active with
  | false => exact same_refl _
  | true => exact same_iff.2 ⟨rfl, (same_iff.1 h).2⟩

theorem merge_congr (h : s.same t = true) (rs : RestrictionSet) :
    (s.merge rs).same (t.merge rs) = true :=
  same_iff.2 ⟨(same_iff.1 h).1,
    RestrictionSet.merge_congr (same_iff.1 h).2 (RestrictionSet.same_refl rs)⟩

theorem remove_congr (h : s.same t = true) (names : List (Option String)) :
    (s.remove names).same (t.remove names) = true :=
  same_iff.2 ⟨(same_iff.1 h).1, RestrictionSet.remove_congr (same_iff.1 h).2 names⟩

/-- What is in force on sides that are the same is the same. -/
theorem inForce?_congr (h : s.same t = true) :
    RestrictionSet.Alike s.inForce? t.inForce? := by
  obtain ⟨hact, hsame⟩ := same_iff.1 h
  rw [inForce?, inForce?, ← hact]
  split
  · exact .some hsame
  · exact .none

/-- Sides without restrictions where they are not in force are the same if the same is in
    force on them. -/
theorem same_of_inForce? (hs : s.active = false → s.restrictions = ∅)
    (ht : t.active = false → t.restrictions = ∅)
    (h : RestrictionSet.Alike s.inForce? t.inForce?) : s.same t = true := by
  rw [inForce?, inForce?] at h
  rw [same_iff]
  cases hs' : s.active <;> cases ht' : t.active <;> rw [hs', ht'] at h
  · rw [hs hs', ht ht']
    exact ⟨rfl, RestrictionSet.same_refl _⟩
  · cases h
  · cases h
  · cases h with
    | some h => exact ⟨rfl, h⟩

end Side

/-! ## Decisions -/

namespace Decision

variable {d d' d'' : Decision}

theorem same_iff : d.same d' = true ↔ ∀ e, (d.side e).same (d'.side e) = true := by
  rw [same, Bool.and_eq_true]
  refine ⟨?_, fun h => ⟨h .allow, h .deny⟩⟩
  rintro ⟨hallow, hdeny⟩ e
  cases e with
  | allow => exact hallow
  | deny => exact hdeny

theorem same_refl (d : Decision) : d.same d = true := same_iff.2 fun _ => Side.same_refl _

theorem same_symm (h : d.same d' = true) : d'.same d = true :=
  same_iff.2 fun e => Side.same_symm (same_iff.1 h e)

theorem same_trans (h : d.same d' = true) (h' : d'.same d'' = true) : d.same d'' = true :=
  same_iff.2 fun e => Side.same_trans (same_iff.1 h e) (same_iff.1 h' e)

theorem onSide_congr (h : d.same d' = true) (e : Effect) {f g : Side → Side}
    (hfg : (f (d.side e)).same (g (d'.side e)) = true) :
    (d.onSide e f).same (d'.onSide e g) = true := by
  refine same_iff.2 fun e' => ?_
  by_cases he : e' = e
  · rw [he, side_onSide_self, side_onSide_self]
    exact hfg
  · rw [side_onSide_of_ne d he, side_onSide_of_ne d' he]
    exact same_iff.1 h e'

theorem isUndecided_congr (h : d.same d' = true) : d.isUndecided = d'.isUndecided := by
  have hact (e : Effect) := (Side.same_iff.1 (same_iff.1 h e)).1
  rw [Bool.eq_iff_iff, ← not_iff_not, Bool.not_eq_true, Bool.not_eq_true,
    isUndecided_eq_false_iff, isUndecided_eq_false_iff]
  simp only [hact]

theorem isContradictory_congr (h : d.same d' = true) :
    d.isContradictory = d'.isContradictory := by
  have hact (e : Effect) := (Side.same_iff.1 (same_iff.1 h e)).1
  have hrs (e : Effect) := (Side.same_iff.1 (same_iff.1 h e)).2
  rw [Bool.eq_iff_iff, isContradictory_iff, isContradictory_iff,
    RestrictionSet.same_congr (hrs .allow) (hrs .deny)]
  simp only [hact]

theorem yield_congr (h : d.same d' = true) (e : Effect) : (d.yield e).same (d'.yield e) = true := by
  rw [yield, yield, isContradictory_congr h]
  split
  · exact onSide_congr h e (Side.same_refl _)
  · exact h

theorem decided?_congr (h : d.same d' = true) :
    Option.Rel (fun d d' : Decision => d.same d' = true) d.decided? d'.decided? := by
  rw [decided?, decided?, isUndecided_congr h]
  split
  · exact .none
  · exact .some h

theorem grant_congr (h : d.same d' = true) (e : Effect) (rs : RestrictionSet) :
    (d.grant e rs).same (d'.grant e rs) = true :=
  yield_congr (onSide_congr h e
    (Side.merge_congr (Side.switch_congr (same_iff.1 h e) true) rs)) _

theorem restrict_congr (h : d.same d' = true) (rs : RestrictionSet) :
    (d.restrict rs).same (d'.restrict rs) = true := by
  let merge (s : Side) : Side := if s.active then s.merge rs else s
  have hmerge {s t : Side} (hst : s.same t = true) : (merge s).same (merge t) = true := by
    simp only [merge, (Side.same_iff.1 hst).1]
    split
    · exact Side.merge_congr hst rs
    · exact hst
  have hallow := onSide_congr h .allow (hmerge (same_iff.1 h .allow))
  exact yield_congr (onSide_congr hallow .deny (hmerge (same_iff.1 hallow .deny))) .deny

/-- Something is in force in a sound decision. -/
theorem Sound.exists_inForce? (h : d.Sound) : ∃ e, (d.side e).inForce?.isSome = true := by
  obtain ⟨e, he⟩ := isUndecided_eq_false_iff.1 h.decided
  exact ⟨e, by rw [Side.inForce?, if_pos he, Option.isSome_some]⟩

theorem remove_congr (h : d.same d' = true) (e : Effect) (names : List (Option String)) :
    (d.onSide e fun s => s.remove names).same (d'.onSide e fun s => s.remove names) = true :=
  onSide_congr h e (Side.remove_congr (same_iff.1 h e) names)

theorem unrestrict_congr (h : d.same d' = true) (e : Effect) (names : List (Option String)) :
    (d.unrestrict e names).same (d'.unrestrict e names) = true :=
  yield_congr (remove_congr h e names) _

theorem strip_congr (h : d.same d' = true) (names : List (Option String)) :
    (d.strip names).same (d'.strip names) = true := by
  -- One side after the other is looked at in both decisions.
  have hside {d d' : Decision} (h : d.same d' = true) (e : Effect) :
      (if (d.side e).active then d.unrestrict e names else d).same
        (if (d'.side e).active then d'.unrestrict e names else d') = true := by
    rw [(Side.same_iff.1 (same_iff.1 h e)).1]
    split
    · exact unrestrict_congr h e names
    · exact h
  exact hside (hside h .allow) .deny

end Decision

/-- Whether there is a decision, and what it says, is the same. -/
abbrev Decision.Alike (o o' : Option Decision) : Prop :=
  Option.Rel (fun d d' : Decision => d.same d' = true) o o'

namespace Decision.Alike

variable {o o' o'' : Option Decision}

theorem refl (o : Option Decision) : Alike o o := by
  cases o with
  | none => exact .none
  | some d => exact .some (same_refl d)

theorem symm (h : Alike o o') : Alike o' o := by
  cases h with
  | none => exact .none
  | some h => exact .some (same_symm h)

theorem trans (h : Alike o o') (h' : Alike o' o'') : Alike o o'' := by
  cases h with
  | none => exact h'
  | some h =>
    cases h' with
    | some h' => exact .some (same_trans h h')

theorem map {f g : Decision → Decision}
    (h : Alike o o') (hfg : ∀ d d' : Decision, d.same d' = true → (f d).same (g d') = true) :
    Alike (o.map f) (o'.map g) := by
  cases h with
  | none => exact .none
  | some h => exact .some (hfg _ _ h)

theorem isSome_eq (h : Alike o o') : o.isSome = o'.isSome := by
  cases h with
  | none => rfl
  | some _ => rfl

/-- What is in force on a side is the same. -/
theorem inForce? (h : Alike o o') (e : Effect) :
    RestrictionSet.Alike (o.bind fun d => (d.side e).inForce?)
      (o'.bind fun d => (d.side e).inForce?) := by
  cases h with
  | none => exact .none
  | some h => exact Side.inForce?_congr (same_iff.1 h e)

theorem getD (h : Alike o o') : (o.getD .undecided).same (o'.getD .undecided) = true := by
  cases h with
  | none => exact same_refl _
  | some h => exact h

end Decision.Alike

/-- Sound decisions are the same if the same is in force on either side: a side that is not
    has no restrictions, and where neither side is there is no decision. -/
theorem Decision.alike_of_inForce? {o o' : Option Decision} (ho : ∀ d ∈ o, d.Sound)
    (ho' : ∀ d ∈ o', d.Sound)
    (h : ∀ e, RestrictionSet.Alike (o.bind fun d => (d.side e).inForce?)
      (o'.bind fun d => (d.side e).inForce?)) : Decision.Alike o o' := by
  cases o with
  | none =>
    cases o' with
    | none => exact .none
    | some d' =>
      -- A sound decision puts something in force, which the other one would have to.
      obtain ⟨e, he⟩ := (ho' d' rfl).exists_inForce?
      have hsome := (h e).isSome_eq
      rw [Option.bind_none, Option.bind_some, he] at hsome
      cases hsome
  | some d =>
    cases o' with
    | none =>
      obtain ⟨e, he⟩ := (ho d rfl).exists_inForce?
      have hsome := (h e).isSome_eq
      rw [Option.bind_none, Option.bind_some, he] at hsome
      cases hsome
    | some d' =>
      refine .some (Decision.same_iff.2 fun e => ?_)
      exact Side.same_of_inForce? ((ho d rfl).clean e) ((ho' d' rfl).clean e) (h e)

/-- Operations do not tell decisions apart that are the same. -/
theorem Operation.act_congr {o o' : Option Decision} (h : Decision.Alike o o') (op : Operation) :
    Decision.Alike (op.act o) (op.act o') := by
  cases op with
  | set e rs => exact .some (Decision.grant_congr h.getD e rs)
  | clear e =>
    cases h with
    | none => exact .none
    | some h => exact Decision.decided?_congr (Decision.onSide_congr h e (Side.same_refl _))
  | drop => exact .none
  | restrict rs => exact h.map fun _ _ h => Decision.restrict_congr h rs
  | unrestrict e names =>
    exact h.map fun _ _ h => Decision.unrestrict_congr h e names
  | unrestrictBoth names =>
    exact h.map fun _ _ h => Decision.yield_congr
      (Decision.remove_congr (Decision.remove_congr h .allow names) .deny names) _

/-! ## Maps -/

namespace DecisionMap

variable {l m n : DecisionMap} {r : Registry}

theorem agrees_iff {a : Ruling} :
    n.agrees a = true ↔ Decision.Alike (some a.decision) (n.get? a.id) := by
  rw [agrees]
  cases n.get? a.id with
  | none => exact ⟨nofun, nofun⟩
  | some d =>
    refine ⟨fun h => .some h, fun h => ?_⟩
    cases h with
    | some h => exact h

theorem mem_ids_iff {k : String} : k ∈ Ruling.ids m.rulings ↔ (m.get? k).isSome := by
  rw [Option.isSome_iff_exists]
  simp only [get?_eq_some_iff, Ruling.ids, List.mem_map]
  constructor
  · rintro ⟨a, ha, hk⟩
    exact ⟨_, a, ha, hk, rfl⟩
  · rintro ⟨_, a, ha, hk, _⟩
    exact ⟨a, ha, hk⟩

theorem length_ids (m : DecisionMap) : (Ruling.ids m.rulings).length = m.rulings.length := by
  rw [Ruling.ids, List.length_map]

/-- Maps are the same if they say the same of every name. -/
theorem same_iff : m.same n = true ↔ ∀ k, Decision.Alike (m.get? k) (n.get? k) := by
  simp only [same, Bool.and_eq_true, beq_iff_eq, List.all_eq_true, agrees_iff]
  constructor
  · rintro ⟨hlen, hall⟩ k
    -- The other map has all names of the one, and as many: it has no others.
    have hsub : Ruling.ids m.rulings ⊆ Ruling.ids n.rulings := by
      intro k' hk'
      obtain ⟨a, ha, rfl⟩ := List.mem_map.1 hk'
      rw [mem_ids_iff, ← (hall a ha).isSome_eq]
      rfl
    have hperm := (List.subperm_of_subset m.nodup_ids hsub).perm_of_length_le
      (by rw [length_ids, length_ids]; exact Nat.le_of_eq hlen.symm)
    cases hk : m.get? k with
    | some d =>
      obtain ⟨a, ha, rfl, rfl⟩ := get?_eq_some_iff.1 hk
      exact hall a ha
    | none =>
      have hnot : k ∉ Ruling.ids n.rulings := by
        rw [← hperm.mem_iff, mem_ids_iff, hk]
        exact Bool.false_ne_true
      rw [mem_ids_iff, Option.not_isSome_iff_eq_none] at hnot
      rw [hnot]
      exact .none
  · intro h
    refine ⟨?_, fun a ha => get?_of_mem ha ▸ h a.id⟩
    have hperm : (Ruling.ids m.rulings).Perm (Ruling.ids n.rulings) := by
      refine (List.perm_ext_iff_of_nodup m.nodup_ids n.nodup_ids).2 fun k => ?_
      rw [mem_ids_iff, mem_ids_iff, (h k).isSome_eq]
    rw [← length_ids, ← length_ids, hperm.length_eq]

theorem same_refl (m : DecisionMap) : m.same m = true :=
  same_iff.2 fun _ => Decision.Alike.refl _

theorem same_symm (h : m.same n = true) : n.same m = true :=
  same_iff.2 fun k => (same_iff.1 h k).symm

theorem same_trans (h : l.same m = true) (h' : m.same n = true) : l.same n = true :=
  same_iff.2 fun k => (same_iff.1 h k).trans (same_iff.1 h' k)

/-! ## Changes -/

/-- An operation on the same leaves, in whatever order. -/
theorem performOnLeaves_congr (h : m.same n = true) (op : Operation) {ls ls' : List String}
    (hls : ls.Nodup) (hls' : ls'.Nodup) (hmem : ∀ l, l ∈ ls ↔ l ∈ ls') :
    (m.performOnLeaves op ls).same (n.performOnLeaves op ls') = true := by
  refine same_iff.2 fun k => ?_
  rw [get?_performOnLeaves m op hls, get?_performOnLeaves n op hls', if_congr (hmem k) rfl rfl]
  split
  · exact Operation.act_congr (same_iff.1 h k) op
  · exact same_iff.1 h k

theorem rule_congr (h : m.same n = true) {p q : Privilege} (hpq : p.id = q.id)
    {f g : Decision → Decision}
    (hfg : ∀ d d' : Decision, d.same d' = true → (f d).same (g d') = true) :
    (m.rule p f).same (n.rule q g) = true := by
  refine same_iff.2 fun k => ?_
  rw [get?_rule, get?_rule, hpq]
  split
  · exact .some (hfg _ _ (same_iff.1 h k).getD)
  · exact same_iff.1 h k

theorem mapDecisions_congr (h : m.same n = true) {f : Decision → Decision}
    (hf : ∀ d d' : Decision, d.same d' = true → (f d).same (f d') = true) :
    (m.mapDecisions f).same (n.mapDecisions f) = true := by
  refine same_iff.2 fun k => ?_
  rw [get?_mapDecisions, get?_mapDecisions]
  exact (same_iff.1 h k).map hf

/-! ## What is in force -/

theorem inForce?_congr (h : m.same n = true) (e : Effect) (k : String) :
    RestrictionSet.Alike (m.inForce? e k) (n.inForce? e k) :=
  (same_iff.1 h k).inForce? e

/-- Sound maps are the same if the same is in force on either side. -/
theorem same_of_inForce? (hm : ∀ a ∈ m.rulings, a.decision.Sound)
    (hn : ∀ a ∈ n.rulings, a.decision.Sound)
    (h : ∀ e k, RestrictionSet.Alike (m.inForce? e k) (n.inForce? e k)) : m.same n = true :=
  same_iff.2 fun k => Decision.alike_of_inForce? (forall_mem_rulings_iff.1 hm k)
    (forall_mem_rulings_iff.1 hn k) fun e => h e k

end DecisionMap

end AccessControl
