import AccessControl.Proofs.Decision.Exactness
import AccessControl.Proofs.Decision.FoldSameness
import AccessControl.Proofs.Entry.Load
import AccessControl.Proofs.Entry.Render

/-!
# Decisions that are written and loaded

Decisions about leaves that are folded, written as entries and loaded again are the
same as before. A leaf is covered by one entry for each effect that is in force for
it, as folding is exact and entries of an effect differ in their restrictions. So a
leaf meets at most two entries, which do not contradict each other, and nothing is
merged and nothing gives way while they are loaded.

* `DecisionMap.forall₂_covers_entriesFor`: the entries that cover a leaf;
* `DecisionMap.alike_replay`: what these make of it;
* `DecisionMap.exists_ofEntries_entries`: decisions are the same again;
* `DecisionMap.round_trip`: so writing entries anew changes them only once.
-/

namespace AccessControl

/-- A condition selects one member of a list if what holds of any two members does not
    hold of that one and another one that is selected. -/
theorem filter_eq_singleton {α : Type} {R : α → α → Prop} {l : List α} {p : α → Bool} {a : α}
    (hl : l.Pairwise R) (ha : a ∈ l) (hp : p a = true)
    (hR : ∀ b ∈ l, p b = true → ¬ R a b ∧ ¬ R b a) : l.filter p = [a] := by
  obtain ⟨l₁, l₂, rfl⟩ := List.append_of_mem ha
  rw [List.pairwise_append, List.pairwise_cons] at hl
  obtain ⟨_, ⟨hafter, _⟩, hbefore⟩ := hl
  have h₁ : l₁.filter p = [] := List.filter_eq_nil_iff.2 fun b hb hpb =>
    (hR b (List.mem_append_left _ hb) hpb).2 (hbefore b hb a List.mem_cons_self)
  have h₂ : l₂.filter p = [] := List.filter_eq_nil_iff.2 fun b hb hpb =>
    (hR b (List.mem_append_right _ (List.mem_cons_of_mem _ hb)) hpb).1 (hafter b hb)
  rw [List.filter_append, List.filter_cons_of_pos hp, h₁, h₂, List.nil_append]

/-- An entry has an effect, under restrictions that are the given ones. -/
def Entry.Says (e : Effect) (a : Entry) (rs : RestrictionSet) : Prop :=
  a.effect = e ∧ a.restrictions.same rs = true

namespace DecisionMap

variable {r : Registry} {m f : DecisionMap}

/-- An entry covers a leaf if a privilege does that is in force under its restrictions. -/
theorem covers_entry_iff (hf : ∀ p ∈ f.privileges, p ∈ r.privileges) {d : DepthIndex}
    {principal : Principal} {e : Effect} {a : Entry} (ha : a ∈ f.entriesFor d principal e)
    (k : String) : a.covers k = true ↔
      ∃ b ∈ f.rulings, (b.decision.side e).active = true ∧ r.covers b.id k = true ∧
        (b.decision.side e).restrictions.same a.restrictions = true := by
  have hcovers {b : Ruling} (hb : b ∈ f.rulings) : r.covers b.id k = b.privilege.covers k :=
    Registry.covers_eq (hf _ (List.mem_map_of_mem hb)) k
  rw [Entry.covers, List.any_eq_true]
  simp only [mem_privileges_entry_iff ha]
  constructor
  · rintro ⟨_, ⟨b, hb, rfl, hact, hsame⟩, hcov⟩
    exact ⟨b, hb, hact, (hcovers hb).trans hcov, hsame⟩
  · rintro ⟨b, hb, hact, hcov, hsame⟩
    exact ⟨_, ⟨b, hb, rfl, hact, hsame⟩, (hcovers hb).symm.trans hcov⟩

/-- The entries of an effect that cover a leaf: one if it is in force, under its
    restrictions, and none otherwise. -/
theorem forall₂_covers_entriesFor (h : Represents r m f)
    (hf : ∀ p ∈ f.privileges, p ∈ r.privileges) (d : DepthIndex) (principal : Principal)
    (e : Effect) (k : String) :
    List.Forall₂ (Entry.Says e) ((f.entriesFor d principal e).filter (·.covers k))
      (m.inForce? e k).toList := by
  cases hk : m.inForce? e k with
  | none =>
    have hnone : (f.entriesFor d principal e).filter (·.covers k) = [] := by
      refine List.filter_eq_nil_iff.2 fun a ha hcov => ?_
      obtain ⟨b, hb, hact, hcov, _⟩ := (covers_entry_iff hf ha k).1 hcov
      have hforce := inForce?_eq_some_iff.2 ⟨b, hb, rfl, hact, rfl⟩
      obtain ⟨ss, hss, _⟩ := (h e).sound b.id k _ hforce hcov
      rw [hk] at hss
      cases hss
    rw [hnone]
    exact .nil
  | some ss =>
    obtain ⟨_, _, hc, hcov, hsame⟩ := (h e).complete k ss hk
    obtain ⟨b, hb, rfl, hact, rfl⟩ := inForce?_eq_some_iff.1 hc
    obtain ⟨a, ha, _, hab⟩ := exists_mem_entriesFor d principal hb hact
    have hone : (f.entriesFor d principal e).filter (·.covers k) = [a] := by
      refine filter_eq_singleton pairwise_entriesFor ha
        ((covers_entry_iff hf ha k).2 ⟨b, hb, hact, hcov, hab⟩) fun a' ha' hcov' => ?_
      -- Only one privilege that is in force covers the leaf: both entries name it.
      obtain ⟨b', hb', hact', hcov', hab'⟩ := (covers_entry_iff hf ha' k).1 hcov'
      have hid := (h e).unique b.id b'.id k (isSome_inForce?_of_mem hb hact)
        (isSome_inForce?_of_mem hb' hact') hcov hcov'
      obtain rfl := ruling_eq hb hb' hid
      have haa' := RestrictionSet.same_trans (RestrictionSet.same_symm hab) hab'
      exact ⟨by simp [haa'], by simp [RestrictionSet.same_symm haa']⟩
    rw [hone]
    exact .cons ⟨effect_of_mem_entriesFor ha,
      RestrictionSet.same_trans (RestrictionSet.same_symm hab) hsame⟩ .nil

/-- What the entries of an effect make of a leaf for which it is not in force yet. -/
theorem side_replay {e : Effect} {as : List Entry} {t : Option RestrictionSet}
    (has : List.Forall₂ (Entry.Says e) as t.toList) {o : Option Decision}
    (hoff : (o.getD .undecided).side e = .off)
    (hother : ∀ rs ss, t = some rs →
      ((o.getD .undecided).side e.other).inForce? = some ss → rs.same ss = false) :
    ((Entry.replay as o).getD .undecided).side e.other = (o.getD .undecided).side e.other ∧
    RestrictionSet.Alike (((Entry.replay as o).getD .undecided).side e).inForce? t := by
  cases t with
  | none =>
    cases has
    rw [Entry.replay, List.foldl_nil, hoff]
    exact ⟨rfl, .none⟩
  | some rs =>
    obtain _ | ⟨⟨rfl, hsame⟩, _ | _⟩ := has
    rename_i a
    -- The opposite side does not give way, as it is in force under other restrictions.
    have hdiffer (ss : RestrictionSet)
        (hss : ((o.getD .undecided).side a.effect.other).inForce? = some ss) :
        a.restrictions.same ss = false := by
      rw [RestrictionSet.same_congr hsame (RestrictionSet.same_refl ss)]
      exact hother rs ss rfl hss
    have hgrant := Decision.grant_of_off hoff hdiffer
    have hreplay : Entry.replay [a] o =
        some ((o.getD .undecided).grant a.effect a.restrictions) := rfl
    rw [hreplay, Option.getD_some, hgrant, Decision.side_onSide_of_ne _ (Decision.other_ne _),
      Decision.side_onSide_self]
    exact ⟨rfl, .some (RestrictionSet.same_trans (RestrictionSet.merge_empty_same _) hsame)⟩

/-- What the entries that cover a leaf make of it, those that deny first. -/
theorem alike_replay {denies allows : List Entry} {t : Effect → Option RestrictionSet}
    (hdeny : List.Forall₂ (Entry.Says .deny) denies (t .deny).toList)
    (hallow : List.Forall₂ (Entry.Says .allow) allows (t .allow).toList)
    (hdiffer : ∀ rs ss, t .allow = some rs → t .deny = some ss → rs.same ss = false) (e : Effect) :
    RestrictionSet.Alike ((Entry.replay (denies ++ allows) none).bind fun d =>
      (d.side e).inForce?) (t e) := by
  obtain ⟨hkept, hdenied⟩ := side_replay hdeny (o := none) (Decision.side_undecided _)
    fun rs ss _ hss => by cases hss
  -- Denying has left alone the side that allows, and allowing finds it off.
  have hoff := hkept.trans (Decision.side_undecided _)
  have hopposed (rs ss : RestrictionSet) (hrs : t .allow = some rs)
      (hss : (((Entry.replay denies none).getD .undecided).side .deny).inForce? = some ss) :
      rs.same ss = false := by
    obtain ⟨ts, hts, hsame⟩ := hdenied.exists_of_eq_some hss
    rw [RestrictionSet.same_congr (RestrictionSet.same_refl rs) hsame]
    exact hdiffer rs ts hrs hts
  obtain ⟨hkept', hallowed⟩ := side_replay hallow hoff hopposed
  have hview (o : Option Decision) : (o.bind fun d => (d.side e).inForce?) =
      ((o.getD .undecided).side e).inForce? := by
    cases o with
    | none => rw [Option.getD_none, Decision.side_undecided]; rfl
    | some d => rfl
  rw [hview, Entry.replay, List.foldl_append, ← Entry.replay, ← Entry.replay]
  cases e with
  | allow => exact hallowed
  | deny => exact hkept' ▸ hdenied

theorem admits_entries (hf : ∀ p ∈ f.privileges, p ∈ r.privileges) (d : DepthIndex)
    (principal : Principal) : r.Admits (f.entries d principal) := by
  have hfor {e : Effect} {a : Entry} (ha : a ∈ f.entriesFor d principal e) :
      ∀ p ∈ a.privileges, p ∈ r.privileges := by
    intro p hp
    obtain ⟨b, hb, rfl, _⟩ := (mem_privileges_entry_iff ha).1 hp
    exact hf _ (List.mem_map_of_mem hb)
  intro a ha
  exact (List.mem_append.1 ha).elim hfor hfor

/-! ## Main results -/

/-- The entries that decisions about leaves are written as, folded, load into the same
    decisions, whoever they are about. -/
theorem exists_ofEntries_entries_of (hm : m.IsLeafMap r) (d : DepthIndex) (principal : Principal) :
    ∃ n, ofEntries ((m.consolidate d r).entries d principal) principal = .ok n ∧
      n.Reachable r ∧ n.same m = true := by
  have hrep := represents_consolidate d hm.atomic
  have hf := mem_privileges_consolidate (r := r) d fun q hq => (hm.atomic q hq).1
  obtain ⟨n, hn, hreach, hget⟩ := exists_ofEntries (admits_entries hf d principal) principal
  refine ⟨n, hn, hreach, same_of_inForce? hreach.isLeafMap.sound hm.sound fun e k => ?_⟩
  -- All entries are about the principal, so that none of them is left out.
  have hall : ((m.consolidate d r).entries d principal).filter (·.isOf principal) =
      (m.consolidate d r).entries d principal := by
    refine List.filter_eq_self.2 fun a ha => ?_
    rw [Entry.isOf, principal_of_mem_entries ha, Bool.or_eq_true]
    exact .inr BEq.rfl
  rw [inForce?_eq, hget, hall, entries, List.filter_append]
  exact alike_replay (t := fun e => m.inForce? e k)
    (forall₂_covers_entriesFor hrep hf d principal .deny k)
    (forall₂_covers_entriesFor hrep hf d principal .allow k)
    (fun _ _ => hm.restrictions_differ) e

/-- This is so for the entries of a principal with a name. -/
theorem exists_ofEntries_entries (hm : m.IsLeafMap r) (d : DepthIndex) (p : String) :
    ∃ n, ofEntries ((m.consolidate d r).entries d (.text p)) (.text p) = .ok n ∧
      n.Reachable r ∧ n.same m = true :=
  exists_ofEntries_entries_of hm d (.text p)

end DecisionMap

/-- The entries of a principal, loaded, folded and written anew. -/
def Registry.rewritten (r : Registry) (d : DepthIndex) (principal : Principal)
    (entries : List Entry) : Except Error (List Entry) := do
  return ((← DecisionMap.ofEntries entries principal).consolidate d r).entries d principal

namespace DecisionMap

/-- Decisions after any run of operations are the same when they are folded, written as
    entries and loaded again. Writing entries that the registry admits anew for a second time
    changes nothing. -/
theorem round_trip (r : Registry) (d : DepthIndex) (p : String) :
    (∀ m : DecisionMap, m.Reachable r →
      ∃ n, ofEntries ((m.consolidate d r).entries d (.text p)) (.text p) = .ok n ∧
        n.same m = true) ∧
    ∀ entries, r.Admits entries → ∃ once twice, r.rewritten d (.text p) entries = .ok once ∧
      r.rewritten d (.text p) once = .ok twice ∧
      List.Forall₂ (fun a b : Entry => a.same b = true) twice once := by
  constructor
  · intro m hm
    obtain ⟨n, hn, _, hsame⟩ := exists_ofEntries_entries hm.isLeafMap d p
    exact ⟨n, hn, hsame⟩
  · intro entries hentries
    obtain ⟨m, hm, hreach, _⟩ := exists_ofEntries hentries (.text p)
    obtain ⟨n, hn, _, hsame⟩ := exists_ofEntries_entries hreach.isLeafMap d p
    refine ⟨_, (n.consolidate d r).entries d (.text p), ?_, ?_,
      entries_congr (consolidate_congr hsame (.refl r) d) d _⟩
    · rw [Registry.rewritten, hm]
      rfl
    · rw [Registry.rewritten, hn]
      rfl

/-- The decisions of the guarded diamond as entries that list the leaves, and what is allowed
    before what is denied. -/
def guardedLeaves : List Entry :=
  let anywhere : Restriction := ⟨some RestrictionName.glob, .bool false, [.text "*"]⟩
  [⟨.text "guest", .allow, [.atomic "doc:read", .atomic "doc:share", .atomic "doc:write"], ∅⟩,
    ⟨.text "guest", .deny, [.atomic "doc:read", .atomic "doc:share"], .single anywhere⟩]

theorem admits_guardedLeaves : Registry.diamond.Admits guardedLeaves := by
  have hmem {leaf : String} (h : Registry.diamond.root.covers leaf = true) :
      .atomic leaf ∈ Registry.diamond.privileges :=
    (Registry.get?_eq_some_iff.1 (Registry.get?_leaf h)).1
  have hread : Privilege.atomic "doc:read" ∈ Registry.diamond.privileges :=
    hmem (by decide +kernel)
  have hshare : Privilege.atomic "doc:share" ∈ Registry.diamond.privileges :=
    hmem (by decide +kernel)
  have hwrite : Privilege.atomic "doc:write" ∈ Registry.diamond.privileges :=
    hmem (by decide +kernel)
  simp [Registry.Admits, guardedLeaves, hread, hshare, hwrite]

/-- The guarded diamond survives being written, and its leaves are written anew only once. -/
theorem round_trip_guarded :
    guarded.Reachable .diamond ∧
    (∃ n, ofEntries ((guarded.consolidate Registry.diamond.depths .diamond).entries
        Registry.diamond.depths (.text "guest")) (.text "guest") = .ok n ∧
      n.same guarded = true) ∧
    Registry.diamond.Admits guardedLeaves ∧
    ∃ once twice,
      Registry.diamond.rewritten Registry.diamond.depths (.text "guest") guardedLeaves =
        .ok once ∧
      Registry.diamond.rewritten Registry.diamond.depths (.text "guest") once = .ok twice ∧
      List.Forall₂ (fun a b : Entry => a.same b = true) twice once := by
  obtain ⟨hloaded, hwritten⟩ := round_trip .diamond Registry.diamond.depths "guest"
  exact ⟨reachable_guarded, hloaded guarded reachable_guarded, admits_guardedLeaves,
    hwritten guardedLeaves admits_guardedLeaves⟩

end DecisionMap

end AccessControl
