import AccessControl.Proofs.Entry.Render
import AccessControl.Proofs.Privilege.Paths

/-!
# Entries as a partition

The entries that decisions are written as share out what is in force: every privilege
is named once for each of its sides, by the entry with the restrictions of this side.
Within an entry, and from entry to entry, the privileges are in the order of their
depths (`DepthIndex.Before`), which no two names have the same place in. This leaves
nothing open, so that there is only one way of writing decisions as entries, whatever
the order in which they were entered.

* `DepthIndex.Before`: the order of names, place by place;
* `DecisionMap.leading`: the rulings that entries begin with;
* `DecisionMap.Renders`: entries that share out what is in force, in order;
* `DecisionMap.Renders.unique`: decisions are written as entries in one way only;
* `DecisionMap.entries_canonical`: what decisions are written as.
-/

namespace AccessControl

/-! ## The order of names -/

namespace DepthIndex

variable {d : DepthIndex} {a b : String}

/-- One name comes before another one: the names of the index by their depths, and by name
    within a depth; behind them all other names, by name. -/
inductive Before (d : DepthIndex) (a b : String) : Prop
  | depth {i j : Int} (ha : d[a]? = some i) (hb : d[b]? = some j) (h : i < j)
  | name {i : Int} (ha : d[a]? = some i) (hb : d[b]? = some i) (h : a < b)
  | missing {i : Int} (ha : d[a]? = some i) (hb : d[b]? = none)
  | outside (ha : d[a]? = none) (hb : d[b]? = none) (h : a < b)

/-- Names are put in this order if no depth is as large as the index, which is where the
    names are put that are missing from it. -/
theorem before_of_order (hd : ∀ (k : String) (i : Int), d[k]? = some i → i < d.size)
    (h : d.order a b = .lt) : d.Before a b := by
  have hlt : d.rank a < d.rank b ∨ d.rank a = d.rank b ∧ a < b := by
    rw [order, compareLex, Ordering.then_eq_lt] at h
    exact h.imp compare_lt_iff_lt.1 (And.imp compare_eq_iff_eq.1 compareOfLessAndEq_eq_lt.1)
  rw [rank, rank] at hlt
  cases ha : d[a]? with
  | some i =>
    cases hb : d[b]? with
    | some j =>
      rw [ha, hb] at hlt
      rcases hlt with hlt | ⟨heq, hname⟩
      · exact .depth ha hb hlt
      · obtain rfl : i = j := heq
        exact .name ha hb hname
    | none => exact .missing ha hb
  | none =>
    cases hb : d[b]? with
    | some j =>
      have hj := hd b j hb
      rw [ha, hb, Option.getD_none, Option.getD_some] at hlt
      omega
    | none =>
      rw [ha, hb] at hlt
      exact .outside ha hb (hlt.resolve_left (lt_irrefl _)).2

theorem Before.asymm (hab : d.Before a b) (hba : d.Before b a) : False := by
  have hname (h : a < b) (h' : b < a) : False := String.lt_irrefl a (String.lt_trans h h')
  rcases hab with ⟨ha, hb, h⟩ | ⟨ha, hb, h⟩ | ⟨ha, hb⟩ | ⟨ha, hb, h⟩ <;>
    rcases hba with ⟨hb', ha', h'⟩ | ⟨hb', ha', h'⟩ | ⟨hb', ha'⟩ | ⟨hb', ha', h'⟩ <;>
    grind

instance : Std.Irrefl d.Before := ⟨fun _ h => h.asymm h⟩

instance : Std.Antisymm d.Before := ⟨fun _ _ hab hba => (hab.asymm hba).elim⟩

/-- One list of names begins before another one does. -/
def Begins (d : DepthIndex) (ks ls : List String) : Prop :=
  ∃ a ∈ ks.head?, ∃ b ∈ ls.head?, d.Before a b

theorem Begins.asymm {ks ls : List String} (h : d.Begins ks ls) (h' : d.Begins ls ks) : False := by
  obtain ⟨a, ha, b, hb, hab⟩ := h
  obtain ⟨b', hb', a', ha', hba⟩ := h'
  obtain rfl := Option.mem_unique ha ha'
  obtain rfl := Option.mem_unique hb hb'
  exact hab.asymm hba

instance : Std.Irrefl d.Begins := ⟨fun _ h => h.asymm h⟩

instance : Std.Antisymm d.Begins := ⟨fun _ _ h h' => (h.asymm h').elim⟩

end DepthIndex

/-- The names of the privileges of an entry. -/
def Entry.ids (a : Entry) : List String := a.privileges.map Privilege.id

/-- The entries of an effect. -/
def Entry.having (e : Effect) (as : List Entry) : List Entry := as.filter fun a => a.effect = e

theorem Entry.mem_having {e : Effect} {as : List Entry} {a : Entry} :
    a ∈ Entry.having e as ↔ a ∈ as ∧ a.effect = e := by
  rw [Entry.having, List.mem_filter, decide_eq_true_iff]

theorem Entry.having_cons (e : Effect) (a : Entry) (as : List Entry) : Entry.having e (a :: as) =
    if a.effect = e then a :: Entry.having e as else Entry.having e as := by
  simp [Entry.having, List.filter_cons]

/-- The privileges that entries allow, or deny, one entry after the other. -/
def Entry.privilegesOf (e : Effect) (as : List Entry) : List Privilege :=
  (Entry.having e as).flatMap Entry.privileges

/-- Whether two rulings are under the same restrictions for an effect. -/
def Ruling.sameSide (e : Effect) (a b : Ruling) : Bool :=
  (a.decision.side e).restrictions.same (b.decision.side e).restrictions

theorem Ruling.equivalence_sameSide (e : Effect) :
    Equivalence fun a b => Ruling.sameSide e a b = true :=
  RestrictionSet.equivalence_same.comap fun a : Ruling => (a.decision.side e).restrictions

namespace DecisionMap

variable {m n : DecisionMap} {r : Registry} {d : DepthIndex} {principal : Principal} {e : Effect}
  {as bs : List Entry} {a b : Entry} {p q : Privilege}

/-! ## The first privileges of entries -/

/-- What is in force is put in order, and no two rulings have the same place. -/
theorem pairwise_ordered (m : DecisionMap) (d : DepthIndex) (e : Effect) :
    (m.ordered d e).Pairwise fun a b => d.order a.id b.id = .lt := by
  have htrans (a b c : Ruling) := d.precedes_trans a.id b.id c.id
  have htotal (a b : Ruling) := d.precedes_total a.id b.id
  have hle := List.pairwise_mergeSort htrans htotal (m.active e)
  have hperm := (List.mergeSort_perm (m.active e) fun a b => d.precedes a.id b.id).map Ruling.id
  have hne := List.pairwise_map.1 (hperm.nodup_iff.2 (m.nodup_ids_active e))
  exact (hle.and hne).imp fun hab => d.order_eq_lt hab.1 hab.2

/-- The rulings that are not under the restrictions of one before them. With each of them an
    entry begins. -/
def leading (m : DecisionMap) (d : DepthIndex) (e : Effect) : List Ruling :=
  (m.ordered d e).eraseDupsBy (Ruling.sameSide e)

theorem pairwise_leading (m : DecisionMap) (d : DepthIndex) (e : Effect) :
    (m.leading d e).Pairwise fun a b => d.order a.id b.id = .lt :=
  (m.pairwise_ordered d e).sublist (sublist_eraseDupsBy _)

/-- The entry that begins with a ruling. -/
def entryOf (m : DecisionMap) (d : DepthIndex) (principal : Principal) (e : Effect)
    (b : Ruling) : Entry := m.entryFor d principal e (b.decision.side e).restrictions

theorem entriesFor_eq_map_leading (m : DecisionMap) (d : DepthIndex) (principal : Principal)
    (e : Effect) : m.entriesFor d principal e = (m.leading d e).map (m.entryOf d principal e) := by
  have hsets : restrictionSets e (m.ordered d e) =
      (m.leading d e).map fun b => (b.decision.side e).restrictions :=
    eraseDupsBy_map (fun _ _ => rfl) _
  rw [entriesFor_eq, hsets, List.map_map]
  rfl

theorem privileges_entryOf (m : DecisionMap) (d : DepthIndex) (principal : Principal) (e : Effect)
    (b : Ruling) : (m.entryOf d principal e b).privileges =
      ((m.ordered d e).filter (Ruling.sameSide e · b)).map Ruling.privilege := rfl

theorem head?_ids_entryOf {b : Ruling} (h : b ∈ m.leading d e) :
    (m.entryOf d principal e b).ids.head? = some b.id := by
  rw [Entry.ids, privileges_entryOf, List.head?_map, List.head?_map, List.head?_filter,
    find?_of_mem_eraseDupsBy (Ruling.equivalence_sameSide e) h]
  rfl

/-! ## What the entries of an effect share out -/

theorem privilegesOf_entriesFor_perm (m : DecisionMap) (d : DepthIndex) (principal : Principal)
    (e : Effect) : ((m.entriesFor d principal e).flatMap Entry.privileges).Perm
      ((m.active e).map Ruling.privilege) := by
  have hkinds : (m.entriesFor d principal e).flatMap Entry.privileges =
      ((m.leading d e).flatMap fun b => (m.ordered d e).filter (Ruling.sameSide e · b)).map
        Ruling.privilege := by
    rw [entriesFor_eq_map_leading, List.flatMap_map, List.map_flatMap]
    rfl
  rw [hkinds]
  exact ((flatMap_eraseDupsBy_perm (Ruling.equivalence_sameSide e) _).trans
    (List.mergeSort_perm _ _)).map _

variable (hd : ∀ (k : String) (i : Int), d[k]? = some i → i < d.size)
include hd

theorem pairwise_ids_of_mem_entriesFor (h : a ∈ m.entriesFor d principal e) :
    a.ids.Pairwise d.Before := by
  rw [entriesFor_eq_map_leading] at h
  obtain ⟨b, _, rfl⟩ := List.mem_map.1 h
  rw [Entry.ids, privileges_entryOf, List.map_map, List.pairwise_map]
  exact ((m.pairwise_ordered d e).filter _).imp (DepthIndex.before_of_order hd)

theorem pairwise_begins_entriesFor :
    (m.entriesFor d principal e).Pairwise fun a b => d.Begins a.ids b.ids := by
  rw [entriesFor_eq_map_leading, List.pairwise_map]
  refine (m.pairwise_leading d e).imp_of_mem fun {a b} ha hb hab => ?_
  exact ⟨a.id, head?_ids_entryOf ha, b.id, head?_ids_entryOf hb, DepthIndex.before_of_order hd hab⟩

omit hd

/-! ## All entries -/

/-- Entries that share out what is in force in a map, in order. -/
structure Renders (m : DecisionMap) (d : DepthIndex) (principal : Principal)
    (as : List Entry) : Prop where
  /-- The entries are about the principal. -/
  principal_eq : ∀ a ∈ as, a.principal = principal
  /-- What is denied comes first. -/
  denials_first : as.Pairwise fun a b => b.effect = .deny → a.effect = .deny
  /-- The entries of an effect name what is in force, and nothing else. -/
  shared : ∀ e, (Entry.privilegesOf e as).Perm ((m.active e).map Ruling.privilege)
  /-- They name it once. -/
  once : ∀ e, ((Entry.privilegesOf e as).map Privilege.id).Nodup
  /-- An entry names what is in force under its restrictions. -/
  own : ∀ a ∈ as, ∀ p, p ∈ a.privileges ↔ ∃ b ∈ m.rulings, b.privilege = p ∧
    (b.decision.side a.effect).active = true ∧
    (b.decision.side a.effect).restrictions.same a.restrictions = true
  /-- There is no entry that names nothing. -/
  nonempty : ∀ a ∈ as, a.privileges ≠ []
  /-- The entries of an effect differ in their restrictions. -/
  differ : as.Pairwise fun a b => a.effect = b.effect → a.restrictions.same b.restrictions = false
  /-- The privileges of an entry are in order. -/
  within : ∀ a ∈ as, a.ids.Pairwise d.Before
  /-- The entries of an effect are in the order of their first privileges. -/
  between : as.Pairwise fun a b => a.effect = b.effect → d.Begins a.ids b.ids

theorem having_entries (m : DecisionMap) (d : DepthIndex) (principal : Principal) (e : Effect) :
    Entry.having e (m.entries d principal) = m.entriesFor d principal e := by
  have hsame : Entry.having e (m.entriesFor d principal e) = m.entriesFor d principal e :=
    List.filter_eq_self.2 fun a ha => decide_eq_true (effect_of_mem_entriesFor ha)
  have hother (e' : Effect) (hne : e' ≠ e) :
      Entry.having e (m.entriesFor d principal e') = [] := by
    refine List.filter_eq_nil_iff.2 fun a ha => ?_
    rw [effect_of_mem_entriesFor ha, decide_eq_true_iff]
    exact hne
  rw [entries, Entry.having, List.filter_append, ← Entry.having, ← Entry.having]
  cases e with
  | allow => rw [hother .deny nofun, hsame, List.nil_append]
  | deny => rw [hother .allow nofun, hsame, List.append_nil]

/-- What holds among the entries of each effect holds among all entries of one effect. -/
theorem pairwise_entries {R : Entry → Entry → Prop}
    (h : ∀ e, (m.entriesFor d principal e).Pairwise R) :
    (m.entries d principal).Pairwise fun a b => a.effect = b.effect → R a b := by
  have hR (e : Effect) : (m.entriesFor d principal e).Pairwise
      fun a b => a.effect = b.effect → R a b := by
    refine (h e).imp ?_
    exact fun hab _ => hab
  refine List.pairwise_append.2 ⟨hR .deny, hR .allow, fun a ha b hb heq => ?_⟩
  rw [effect_of_mem_entriesFor ha, effect_of_mem_entriesFor hb] at heq
  cases heq

theorem privilegesOf_entries_perm (m : DecisionMap) (d : DepthIndex) (principal : Principal)
    (e : Effect) : (Entry.privilegesOf e (m.entries d principal)).Perm
      ((m.active e).map Ruling.privilege) := by
  rw [Entry.privilegesOf, having_entries]
  exact m.privilegesOf_entriesFor_perm d principal e

theorem pairwise_denials_first : (m.entries d principal).Pairwise fun a b =>
    b.effect = .deny → a.effect = .deny := by
  refine List.pairwise_append.2 ⟨?_, ?_, fun a ha _ _ _ => effect_of_mem_entriesFor ha⟩
  · exact List.pairwise_of_forall_mem_list fun a ha _ _ _ => effect_of_mem_entriesFor ha
  · refine List.pairwise_of_forall_mem_list fun _ _ b hb hdeny => ?_
    rw [effect_of_mem_entriesFor hb] at hdeny
    cases hdeny

/-- Decisions are written as entries that share out what is in force. -/
theorem renders_entries (hd : ∀ (k : String) (i : Int), d[k]? = some i → i < d.size)
    (m : DecisionMap) (principal : Principal) :
    m.Renders d principal (m.entries d principal) where
  principal_eq _ := principal_of_mem_entries
  denials_first := pairwise_denials_first
  shared e := m.privilegesOf_entries_perm d principal e
  once e := by
    refine ((m.privilegesOf_entries_perm d principal e).map Privilege.id).nodup_iff.2 ?_
    rw [List.map_map]
    exact m.nodup_ids_active e
  own _ ha _ := mem_privileges_entry_iff (mem_entriesFor_effect ha)
  nonempty _ := privileges_ne_nil
  differ := pairwise_entries fun _ => pairwise_entriesFor
  within _ ha := pairwise_ids_of_mem_entriesFor hd (mem_entriesFor_effect ha)
  between := pairwise_entries fun _ => pairwise_begins_entriesFor hd

/-! ## Only one way -/

/-- Where what is denied comes first, the entries are those that deny and then those that
    allow. -/
theorem eq_having_append_having
    (h : as.Pairwise fun a b => b.effect = .deny → a.effect = .deny) :
    as = Entry.having .deny as ++ Entry.having .allow as := by
  induction as with
  | nil => rfl
  | cons a as ih =>
    rw [List.pairwise_cons] at h
    have ih := ih h.2
    rw [Entry.having_cons, Entry.having_cons]
    cases ha : a.effect with
    | deny => rw [if_pos rfl, if_neg nofun, List.cons_append, ← ih]
    | allow =>
      -- After an entry that allows there is none that denies.
      have hnone : Entry.having .deny as = [] := by
        refine List.eq_nil_iff_forall_not_mem.2 fun b hb => ?_
        obtain ⟨hb, hdeny⟩ := Entry.mem_having.1 hb
        cases ha.symm.trans (h.1 b hb hdeny)
      rw [hnone, List.nil_append] at ih
      rw [if_neg nofun, if_pos rfl, hnone, List.nil_append, ← ih]

namespace Renders

theorem exists_mem (h : m.Renders d principal as) {p : Privilege}
    (hp : p ∈ (m.active e).map Ruling.privilege) : ∃ a ∈ as, a.effect = e ∧ p ∈ a.privileges := by
  obtain ⟨a, ha, hpa⟩ := List.mem_flatMap.1 ((h.shared e).mem_iff.2 hp)
  obtain ⟨ha, he⟩ := Entry.mem_having.1 ha
  exact ⟨a, ha, he, hpa⟩

/-- Entries of one effect that name the same privilege are the same, whatever lists of entries
    they are in. -/
theorem same_of_mem (has : m.Renders d principal as) (hbs : m.Renders d principal bs)
    (ha : a ∈ as) (hb : b ∈ bs) (he : a.effect = b.effect) (hp : p ∈ a.privileges)
    (hq : q ∈ b.privileges) (hid : p.id = q.id) : a.same b = true := by
  obtain ⟨x, hx, rfl, _, hxa⟩ := (has.own a ha p).1 hp
  obtain ⟨y, hy, rfl, _, hyb⟩ := (hbs.own b hb q).1 hq
  obtain rfl := List.inj_on_of_nodup_map m.nodup_ids hx hy hid
  have hrs : a.restrictions.same b.restrictions = true :=
    RestrictionSet.same_trans (RestrictionSet.same_symm hxa) (he ▸ hyb)
  -- Under the same restrictions they name the same, in the one order that there is.
  have hmem (k : String) : k ∈ a.ids ↔ k ∈ b.ids := by
    have hprivileges (p : Privilege) : p ∈ a.privileges ↔ p ∈ b.privileges := by
      rw [has.own a ha, hbs.own b hb, he]
      simp only [RestrictionSet.same_congr (RestrictionSet.same_refl _) hrs]
    simp only [Entry.ids, List.mem_map, hprivileges]
  have hids : a.ids = b.ids := (has.within a ha).eq_of_mem_iff (hbs.within b hb) hmem
  rw [Entry.same, has.principal_eq a ha, hbs.principal_eq b hb, he]
  simpa using ⟨hids, hrs⟩

/-- Every entry of the one list is in the other one. -/
theorem exists_same (has : m.Renders d principal as) (hbs : m.Renders d principal bs)
    (ha : a ∈ as) : ∃ b ∈ bs, b.effect = a.effect ∧ a.same b = true := by
  obtain ⟨p, hp⟩ := List.exists_mem_of_ne_nil _ (has.nonempty a ha)
  obtain ⟨x, hx, rfl, hact, _⟩ := (has.own a ha p).1 hp
  obtain ⟨b, hb, he, hpb⟩ := hbs.exists_mem (List.mem_map_of_mem (List.mem_filter.2 ⟨hx, hact⟩))
  exact ⟨b, hb, he, same_of_mem has hbs ha hb he.symm hp hpb rfl⟩

theorem pairwise_begins (h : m.Renders d principal as) (e : Effect) :
    ((Entry.having e as).map Entry.ids).Pairwise d.Begins := by
  rw [List.pairwise_map]
  refine (h.between.filter _).imp_of_mem fun {a b} ha hb hab => hab ?_
  exact (Entry.mem_having.1 ha).2.trans (Entry.mem_having.1 hb).2.symm

theorem ids_subset (has : m.Renders d principal as) (hbs : m.Renders d principal bs)
    (e : Effect) : (Entry.having e as).map Entry.ids ⊆ (Entry.having e bs).map Entry.ids := by
  intro ks hks
  obtain ⟨a, hmem, rfl⟩ := List.mem_map.1 hks
  obtain ⟨ha, rfl⟩ := Entry.mem_having.1 hmem
  obtain ⟨b, hb, he, hsame⟩ := has.exists_same hbs ha
  have hids : a.ids = b.ids := by
    simp only [Entry.same, Bool.and_eq_true, beq_iff_eq] at hsame
    exact hsame.1.2
  exact hids ▸ List.mem_map_of_mem (Entry.mem_having.2 ⟨hb, he⟩)

theorem forall₂_having (has : m.Renders d principal as) (hbs : m.Renders d principal bs)
    (e : Effect) : List.Forall₂ (fun a b : Entry => a.same b = true)
      (Entry.having e as) (Entry.having e bs) := by
  have hids := List.Subset.antisymm_of_pairwise (has.pairwise_begins e) (hbs.pairwise_begins e)
    (has.ids_subset hbs e) (hbs.ids_subset has e)
  refine (forall₂_of_map_eq hids).imp ?_
  rintro a b ⟨ha, hb, hab⟩
  obtain ⟨ha, hea⟩ := Entry.mem_having.1 ha
  obtain ⟨hb, heb⟩ := Entry.mem_having.1 hb
  obtain ⟨p, hp⟩ := List.exists_mem_of_ne_nil _ (has.nonempty a ha)
  have hpb : p.id ∈ b.ids := hab ▸ List.mem_map_of_mem hp
  obtain ⟨q, hq, hid⟩ := List.mem_map.1 hpb
  exact same_of_mem has hbs ha hb (hea.trans heb.symm) hp hq hid.symm

/-- What is in force can be shared out among entries in one way only. -/
theorem unique (has : m.Renders d principal as) (hbs : m.Renders d principal bs) :
    List.Forall₂ (fun a b : Entry => a.same b = true) as bs := by
  rw [eq_having_append_having has.denials_first, eq_having_append_having hbs.denials_first]
  exact List.rel_append (has.forall₂_having hbs .deny) (has.forall₂_having hbs .allow)

end Renders

/-! ## Main result -/

/-- Decisions are written as entries that share out what is in force, in the order of the depths
    below some privilege. There are no other entries that do, and it makes no difference in which
    order the decisions were entered. -/
theorem entries_canonical {p : Privilege} (hp : p ∈ r.privileges) (m : DecisionMap)
    (principal : Principal) :
    m.Renders p.depths principal (m.entries p.depths principal) ∧
      (∀ as, m.Renders p.depths principal as →
        List.Forall₂ (fun a b : Entry => a.same b = true) (m.entries p.depths principal) as) ∧
      ∀ n, m.same n = true → List.Forall₂ (fun a b : Entry => a.same b = true)
        (m.entries p.depths principal) (n.entries p.depths principal) := by
  have hrenders := m.renders_entries (fun _ _ => Registry.lt_size_depths hp) principal
  exact ⟨hrenders, fun _ => hrenders.unique, fun n h => entries_congr h p.depths principal⟩

/-- An aggregate of the diamond, from which one leaf cannot be reached. -/
def viewPrivilege : Privilege := (Registry.diamond.get? "doc:view").get (by decide +kernel)

/-- Rulings about the diamond: its leaves are allowed, one of them under a restriction, and an
    aggregate is denied. -/
def assortedRulings : List Ruling :=
  let anywhere : Restriction := ⟨some RestrictionName.glob, .bool false, [.text "*"]⟩
  [⟨.atomic "doc:write", ⟨⟨true, ∅⟩, .off⟩⟩,
    ⟨.atomic "doc:share", ⟨⟨true, .single anywhere⟩, .off⟩⟩,
    ⟨viewPrivilege, ⟨.off, ⟨true, ∅⟩⟩⟩, ⟨.atomic "doc:read", ⟨⟨true, ∅⟩, .off⟩⟩]

/-- The decisions that these rulings make up. -/
def assorted : DecisionMap := ⟨assortedRulings, by decide +kernel⟩

/-- The same decisions, entered the other way round. -/
def assortedBack : DecisionMap := ⟨assortedRulings.reverse, by decide +kernel⟩

/-- Both ways there is an entry that denies and two that allow, and the leaf that cannot be
    reached comes last in its entry. -/
theorem entries_canonical_assorted :
    (viewPrivilege ∈ Registry.diamond.privileges ∧ assorted.same assortedBack = true) ∧
      assorted.Renders viewPrivilege.depths (.text "guest")
        (assorted.entries viewPrivilege.depths (.text "guest")) ∧
      List.Forall₂ (fun a b : Entry => a.same b = true)
        (assorted.entries viewPrivilege.depths (.text "guest"))
        (assortedBack.entries viewPrivilege.depths (.text "guest")) ∧
      (assorted.entries viewPrivilege.depths (.text "guest")).map (fun a => (a.effect, a.ids)) =
        [(.deny, ["doc:view"]), (.allow, ["doc:read", "doc:write"]), (.allow, ["doc:share"])] := by
  have hmem : viewPrivilege ∈ Registry.diamond.privileges :=
    Catalogue.mem_of_get? (Option.some_get _).symm
  have hsame : assorted.same assortedBack = true := by decide +kernel
  obtain ⟨hrenders, _, hback⟩ := entries_canonical hmem assorted (.text "guest")
  refine ⟨⟨hmem, hsame⟩, hrenders, hback _ hsame, ?_⟩
  simp only [entries, entriesFor_eq, List.map_append, List.map_map, Function.comp_def, Entry.ids,
    entryFor, ordered_eq]
  decide +kernel

end DecisionMap

end AccessControl
