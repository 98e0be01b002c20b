import AccessControl.Proofs.Agreement
import AccessControl.Proofs.Decision.Atoms
import AccessControl.Proofs.Decision.FoldSameness
import AccessControl.Proofs.Entry.Load
import AccessControl.Proofs.Entry.Render

/-!
# The same entries in registries that are alike

What an entry says of a leaf does not depend on the order in which it lists its
privileges, nor on the registry they were looked up in, if it is one of two that are
alike. So the entries of a principal load into decisions that are the same, and these
are folded and written the same.

* `Privilege.SameLeaves`: privileges that operations do not tell apart;
* `DecisionMap.Alike.perform`: an operation on such privileges;
* `Entry.Alike`: entries that say the same;
* `Registry.Alike.agree_ofEntries`, `Registry.Alike.agree_decisionsOf`: what they load into,
  and what is told of it.
-/

namespace AccessControl

/-! ## Operations -/

/-- Privileges that can be resolved, into the same leaves. -/
structure Privilege.SameLeaves (p q : Privilege) : Prop where
  left : p.leaves?.isSome = true
  right : q.leaves?.isSome = true
  covers : ∀ l, p.covers l = q.covers l

/-- Maps that are the same, with decisions about atomic privileges only. -/
structure DecisionMap.Alike (m n : DecisionMap) : Prop where
  /-- The maps are the same. -/
  same : m.same n = true
  /-- The one holds atomic privileges only. -/
  left : ∀ p ∈ m.privileges, p = .atomic p.id
  /-- So does the other one. -/
  right : ∀ p ∈ n.privileges, p = .atomic p.id

namespace DecisionMap

variable {m n : DecisionMap}

theorem alike_empty : Alike ∅ ∅ where
  same := same_refl ∅
  left _ hp := absurd hp List.not_mem_nil
  right _ hp := absurd hp List.not_mem_nil

/-- An operation on privileges with the same leaves. -/
theorem Alike.perform (h : m.Alike n) (op : Operation) {ps qs : List Privilege}
    (hpq : Corresponds Privilege.SameLeaves ps qs) :
    Agree Eq Alike (m.perform op ps) (n.perform op qs) := by
  have hps : ∀ p ∈ ps, p.leaves?.isSome = true := fun p hp => by
    obtain ⟨q, _, hpq⟩ := hpq.forth p hp
    exact hpq.left
  have hqs : ∀ q ∈ qs, q.leaves?.isSome = true := fun q hq => by
    obtain ⟨p, _, hpq⟩ := hpq.back q hq
    exact hpq.right
  obtain ⟨ls, hls, hnodup, hmem⟩ := Privilege.exists_expand hps
  obtain ⟨ls', hls', hnodup', hmem'⟩ := Privilege.exists_expand hqs
  have hsame : SameMembers ls ls' := by
    intro l
    rw [hmem, hmem']
    constructor
    · rintro ⟨p, hp, hl⟩
      obtain ⟨q, hq, hpq⟩ := hpq.forth p hp
      exact ⟨q, hq, hpq.covers l ▸ hl⟩
    · rintro ⟨q, hq, hl⟩
      obtain ⟨p, hp, hpq⟩ := hpq.back q hq
      exact ⟨p, hp, (hpq.covers l).symm ▸ hl⟩
  rw [DecisionMap.perform, DecisionMap.perform, hls, hls']
  exact .ok ⟨performOnLeaves_congr h.same op hnodup hnodup' hsame, atomic_performOnLeaves h.left,
    atomic_performOnLeaves h.right⟩

/-- What is decided is the same privileges. -/
theorem Alike.corresponds_privileges (h : m.Alike n) :
    Corresponds Privilege.SameLeaves m.privileges n.privileges := by
  have hforth {m n : DecisionMap} (h : m.same n = true) (hm : ∀ p ∈ m.privileges, p = .atomic p.id)
      (hn : ∀ p ∈ n.privileges, p = .atomic p.id) : ∀ p ∈ m.privileges, p ∈ n.privileges := by
    intro p hp
    have hid : p.id ∈ Ruling.ids m.rulings := by
      obtain ⟨a, ha, rfl⟩ := List.mem_map.1 hp
      exact List.mem_map_of_mem ha
    rw [mem_ids_iff, (same_iff.1 h p.id).isSome_eq, ← mem_ids_iff] at hid
    obtain ⟨b, hb, hbp⟩ := List.mem_map.1 hid
    have hb : b.privilege ∈ n.privileges := List.mem_map_of_mem hb
    have hbp : b.privilege.id = p.id := hbp
    rwa [hm p hp, ← hbp, ← hn _ hb]
  have hatomic {p : Privilege} (hp : p = .atomic p.id) : p.SameLeaves p :=
    ⟨by rw [hp]; rfl, by rw [hp]; rfl, fun _ => rfl⟩
  refine ⟨fun p hp => ?_, fun q hq => ?_⟩
  · exact ⟨p, hforth h.same h.left h.right p hp, hatomic (h.left p hp)⟩
  · exact ⟨q, hforth (same_symm h.same) h.right h.left q hq, hatomic (h.right q hq)⟩

end DecisionMap

/-! ## Privileges of registries that are alike -/

namespace Registry

variable {r r' : Registry} {p q : Privilege}

/-- A privilege of the one or the other registry. -/
def Either (r r' : Registry) (p : Privilege) : Prop := p ∈ r.privileges ∨ p ∈ r'.privileges

theorem Alike.sameLeaves (h : r.Alike r') (hp : r.Either r' p) (hq : r.Either r' q)
    (hid : p.id = q.id) : p.SameLeaves q := by
  have hresolved {p : Privilege} (hp : r.Either r' p) : p.leaves?.isSome = true :=
    hp.elim (r.catalogue.grounded p) (r'.catalogue.grounded p)
  have hcovers {p : Privilege} (hp : r.Either r' p) (l : String) :
      p.covers l = r.covers p.id l := by
    rcases hp with hp | hp
    · rw [Registry.covers_eq hp]
    · rw [h.covers_eq, Registry.covers_eq hp]
  exact ⟨hresolved hp, hresolved hq, fun l => by rw [hcovers hp, hcovers hq, hid]⟩

end Registry

/-! ## Entries -/

/-- Entries with privileges of the same names, listed in any order and with any
    repetitions, each of which was looked up in one of two registries. -/
structure Entry.Alike (r r' : Registry) (a b : Entry) : Prop where
  principal : a.principal = b.principal
  effect : a.effect = b.effect
  restrictions : a.restrictions = b.restrictions
  names : SameMembers (a.privileges.map Privilege.id) (b.privileges.map Privilege.id)
  left : ∀ p ∈ a.privileges, r.Either r' p
  right : ∀ p ∈ b.privileges, r.Either r' p

/-- Entries that are made of the same names, each looked up in its own registry. -/
theorem Entry.alike_of_make {r r' : Registry} {principal : Principal} {effect : Effect}
    {names names' : List String} {restrictions : List RestrictionDraft} {a b : Entry}
    (hnames : SameMembers names names')
    (ha : make r principal effect (names.map fun s => .name (.text s)) restrictions = .ok a)
    (hb : make r' principal effect (names'.map fun s => .name (.text s)) restrictions = .ok b) :
    Entry.Alike r r' a b := by
  have hmade {r : Registry} {names : List String} {a : Entry}
      (ha : make r principal effect (names.map fun s => .name (.text s)) restrictions = .ok a) :
      a.principal = principal ∧ a.effect = effect ∧
        RestrictionSet.ofDrafts restrictions = .ok a.restrictions ∧
        a.privileges.map Privilege.id = names ∧ ∀ p ∈ a.privileges, p ∈ r.privileges := by
    obtain ⟨ps, hps, ha⟩ := exists_of_bind_eq_ok ha
    split at ha
    · cases ha
    · obtain ⟨rs, hrs, ha⟩ := exists_of_bind_eq_ok ha
      cases ha
      have hlook : List.Forall₂ (fun s p => p ∈ r.privileges ∧ p.id = s) names ps := by
        refine (List.forall₂_map_left_iff.1 (forall₂_of_mapM hps)).imp fun s p hp => ?_
        have hp : r.privilege (.text s) = .ok p := hp
        obtain ⟨hp, heq⟩ := Registry.privilege_eq_ok_iff.1 hp
        exact ⟨hp, (Scalar.text.inj heq).symm⟩
      refine ⟨rfl, rfl, hrs, ?_, fun p hp => ?_⟩
      · exact (List.map_id names ▸ map_eq_of_forall₂ hlook fun s p hp => hp.2.symm).symm
      · obtain ⟨s, _, hp, _⟩ := (corresponds_of_forall₂ hlook).back p hp
        exact hp
  obtain ⟨hprincipal, heffect, hrs, hids, hmem⟩ := hmade ha
  obtain ⟨hprincipal', heffect', hrs', hids', hmem'⟩ := hmade hb
  refine ⟨hprincipal.trans hprincipal'.symm, heffect.trans heffect'.symm,
    Except.ok.inj (hrs.symm.trans hrs'), ?_, fun p hp => .inl (hmem p hp),
    fun p hp => .inr (hmem' p hp)⟩
  rw [hids, hids']
  exact hnames

namespace Registry.Alike

variable {r r' : Registry} {acl acl' : List Entry}

theorem corresponds_privileges (h : r.Alike r') {a b : Entry} (hab : Entry.Alike r r' a b) :
    Corresponds Privilege.SameLeaves a.privileges b.privileges := by
  refine ⟨fun p hp => ?_, fun q hq => ?_⟩
  · obtain ⟨q, hq, hid⟩ := List.mem_map.1 ((hab.names p.id).1 (List.mem_map_of_mem hp))
    exact ⟨q, hq, h.sameLeaves (hab.left p hp) (hab.right q hq) hid.symm⟩
  · obtain ⟨p, hp, hid⟩ := List.mem_map.1 ((hab.names q.id).2 (List.mem_map_of_mem hq))
    exact ⟨p, hp, h.sameLeaves (hab.left p hp) (hab.right q hq) hid⟩

/-- Entries that are alike load into the same decisions. -/
theorem agree_ofEntries (h : r.Alike r') (hacl : List.Forall₂ (Entry.Alike r r') acl acl')
    (principal : Principal) :
    Agree Eq DecisionMap.Alike (DecisionMap.ofEntries acl principal)
      (DecisionMap.ofEntries acl' principal) := by
  have hown : List.Forall₂ (Entry.Alike r r') (acl.filter (·.isOf principal))
      (acl'.filter (·.isOf principal)) := by
    refine List.rel_filter (fun a b hab => ?_) hacl
    dsimp only
    rw [Entry.isOf, Entry.isOf, hab.principal]
  refine agree_foldlM hown (fun a b m n hab hmn => ?_) DecisionMap.alike_empty
  rw [hab.effect, hab.restrictions]
  exact hmn.perform _ (h.corresponds_privileges hab)

/-- Of entries that are alike the same is told. -/
theorem agree_decisionsOf (h : r.Alike r') (hacl : List.Forall₂ (Entry.Alike r r') acl acl')
    (principal : Principal) :
    Agree Eq (fun m n : DecisionMap => m.same n = true) (r.decisionsOf acl principal)
      (r'.decisionsOf acl' principal) := by
  refine (h.agree_ofEntries hacl principal).bind fun m n hmn => .ok ?_
  rw [h.depths_eq]
  exact DecisionMap.consolidate_congr hmn.same h _

/-- Decisions that are the same are folded and written the same. -/
theorem entries_consolidate (h : r.Alike r') {m n : DecisionMap} (hmn : m.Alike n)
    (principal : Principal) : List.Forall₂ (fun a b : Entry => a.same b = true)
      ((m.consolidate r.depths r).entries r.depths principal)
      ((n.consolidate r'.depths r').entries r'.depths principal) := by
  rw [h.depths_eq]
  exact DecisionMap.entries_congr (DecisionMap.consolidate_congr hmn.same h _) _ principal

end Registry.Alike

end AccessControl
