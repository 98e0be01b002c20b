import AccessControl.Privilege.Basic

/-!
# Catalogues of privileges

A catalogue is a collection of privileges that holds, with every privilege, the
privileges it is made of. No two privileges of a catalogue have the same name,
and all of them can be resolved into leaves.

A catalogue grows by one privilege at a time, whose children it already holds
(`Catalogue.define`).

* `Catalogue.mem_of_get?`, `Catalogue.get?_eq_some_of_mem`: looking up by name
  finds the privileges of the catalogue, each under its own name.
-/

namespace AccessControl

/-- A collection of privileges that is complete downwards. -/
structure Catalogue where
  /-- The privileges of the catalogue. -/
  privileges : List Privilege
  /-- No two of them have the same name. -/
  nodup : (privileges.map (·.id)).Nodup
  /-- The children of a privilege are in the catalogue. -/
  closed : ∀ p ∈ privileges, ∀ b ∈ p.bundle.children, ∃ q ∈ privileges, q.bundle = b
  /-- Every privilege can be resolved into leaves. -/
  grounded : ∀ p ∈ privileges, p.leaves?.isSome

namespace Catalogue

/-- The privilege of a name. -/
def get? (c : Catalogue) (id : String) : Option Privilege :=
  c.privileges.find? fun p => p.id == id

/-- Whether there is a privilege of a name. -/
def contains (c : Catalogue) (id : String) : Bool := (c.get? id).isSome

theorem mem_of_get? {c : Catalogue} {id : String} {p : Privilege} (h : c.get? id = some p) :
    p ∈ c.privileges :=
  List.mem_of_find?_eq_some h

theorem id_of_get? {c : Catalogue} {id : String} {p : Privilege} (h : c.get? id = some p) :
    p.id = id := by
  simpa using List.find?_some h

theorem not_mem_of_get?_eq_none {c : Catalogue} {id : String} (h : c.get? id = none) :
    id ∉ c.privileges.map (·.id) := by
  intro hm
  obtain ⟨p, hp, rfl⟩ := List.mem_map.1 hm
  simpa using List.find?_eq_none.1 h p hp

/-- The catalogue without privileges. -/
def empty : Catalogue where
  privileges := []
  nodup := by simp
  closed := by simp
  grounded := by simp

theorem leavesOfAll?_isSome {ps : List Privilege} (h : ∀ p ∈ ps, p.leaves?.isSome) :
    (Privilege.leavesOfAll? ps).isSome := by
  induction ps with
  | nil => rfl
  | cons p ps ih =>
    obtain ⟨ls, hls⟩ := Option.isSome_iff_exists.1 (h p List.mem_cons_self)
    obtain ⟨ms, hms⟩ := Option.isSome_iff_exists.1 (ih fun q hq => h q (List.mem_cons_of_mem _ hq))
    simp [Privilege.leavesOfAll?, hls, hms]

/-- The privilege with the given children: atomic if there are none. -/
def compose (id : String) (children : List Privilege) : Privilege :=
  if children.isEmpty then .atomic id else .bundling id children

theorem id_compose (id : String) (children : List Privilege) : (compose id children).id = id := by
  unfold compose
  split <;> rfl

theorem children_compose (id : String) (children : List Privilege) :
    (compose id children).bundle.children = children.map Privilege.bundle := by
  unfold compose
  split
  · rename_i h
    simp [Privilege.atomic, Bundle.children, List.isEmpty_iff.1 h]
  · rfl

theorem leaves?_compose_isSome {id : String} {children : List Privilege}
    (h : ∀ p ∈ children, p.leaves?.isSome) : (compose id children).leaves?.isSome := by
  unfold compose
  split
  · rfl
  · simpa [Privilege.bundling] using leavesOfAll?_isSome h

/-- The privileges of the catalogue with the given names. -/
def pick (c : Catalogue) (names : List String) : List Privilege := names.filterMap c.get?

theorem mem_of_mem_pick {c : Catalogue} {names : List String} {p : Privilege}
    (h : p ∈ c.pick names) : p ∈ c.privileges := by
  obtain ⟨_, _, h⟩ := List.mem_filterMap.1 h
  exact mem_of_get? h

/-- Defines a privilege by the names of its children, those in the catalogue. A
    name that is defined already keeps its meaning. -/
def define (c : Catalogue) (id : String) (names : List String) : Catalogue :=
  if h : c.get? id = none then
    { privileges := c.privileges ++ [compose id (c.pick names)]
      -- The new name is none of the old ones, as the look-up failed.
      nodup := by
        rw [List.map_append, List.nodup_append]
        refine ⟨c.nodup, by simp, ?_⟩
        intro a ha b hb
        rw [List.map_singleton, List.mem_singleton, id_compose] at hb
        rintro rfl
        exact not_mem_of_get?_eq_none h (hb ▸ ha)
      closed := by
        intro p hp b hb
        rcases List.mem_append.1 hp with hp | hp
        · obtain ⟨q, hq, hqb⟩ := c.closed p hp b hb
          exact ⟨q, List.mem_append_left _ hq, hqb⟩
        · rw [List.mem_singleton.1 hp, children_compose] at hb
          obtain ⟨q, hq, hqb⟩ := List.mem_map.1 hb
          exact ⟨q, List.mem_append_left _ (mem_of_mem_pick hq), hqb⟩
      grounded := by
        intro p hp
        rcases List.mem_append.1 hp with hp | hp
        · exact c.grounded p hp
        · rw [List.mem_singleton.1 hp]
          exact leaves?_compose_isSome fun q hq => c.grounded q (mem_of_mem_pick hq) }
  else c

theorem nodup_eraseDups {α : Type} [BEq α] [LawfulBEq α] (l : List α) : l.eraseDups.Nodup := by
  induction h : l.length using Nat.strongRecOn generalizing l with
  | ind n ih =>
    cases l with
    | nil => simp
    | cons a l =>
      rw [List.eraseDups_cons, List.nodup_cons]
      refine ⟨by simp [List.mem_eraseDups], ih _ ?_ _ rfl⟩
      have := List.length_filter_le (fun b => !b == a) l
      simp only [List.length_cons] at h
      omega

theorem eq_of_nodup_map {α β : Type} {f : α → β} {l : List α} (hl : (l.map f).Nodup) {a b : α}
    (ha : a ∈ l) (hb : b ∈ l) (h : f a = f b) : a = b := by
  induction l with
  | nil => simp at ha
  | cons c l ih =>
    rw [List.map_cons, List.nodup_cons] at hl
    rcases List.mem_cons.1 ha with rfl | ha' <;> rcases List.mem_cons.1 hb with rfl | hb'
    · rfl
    · exact absurd (h ▸ List.mem_map_of_mem hb') hl.1
    · exact absurd (h ▸ List.mem_map_of_mem ha') hl.1
    · exact ih hl.2 ha' hb'

theorem ids_pick_sublist (c : Catalogue) (names : List String) :
    ((c.pick names).map (·.id)).Sublist names := by
  induction names with
  | nil => simp [pick]
  | cons name names ih =>
    unfold pick at ih ⊢
    cases h : c.get? name with
    | none => simpa [List.filterMap_cons, h] using ih.cons name
    | some p => simpa [List.filterMap_cons, h, id_of_get? h] using ih.cons_cons name

theorem get?_eq_some_of_mem {c : Catalogue} {p : Privilege} (h : p ∈ c.privileges) :
    c.get? p.id = some p := by
  cases hq : c.get? p.id with
  | none => exact absurd (List.mem_map_of_mem h) (not_mem_of_get?_eq_none hq)
  | some q =>
    have hid : (fun p : Privilege => p.id) q = (fun p : Privilege => p.id) p := id_of_get? hq
    rw [eq_of_nodup_map c.nodup (mem_of_get? hq) h hid]

/-- The same privileges, those of the given names first and in their order. -/
def arrange (c : Catalogue) (names : List String) : Catalogue where
  privileges := c.pick names.eraseDups ++ c.privileges.filter fun p => !names.contains p.id
  -- The picked privileges follow the distinct names, the others have none of
  -- these names.
  nodup := by
    rw [List.map_append, List.nodup_append]
    refine ⟨(nodup_eraseDups names).sublist (c.ids_pick_sublist _),
      c.nodup.sublist (List.filter_sublist.map _), ?_⟩
    rintro a ha _ hb rfl
    obtain ⟨p, hp, rfl⟩ := List.mem_map.1 hb
    have hmem := List.mem_eraseDups.1 ((c.ids_pick_sublist _).subset ha)
    simp [hmem] at hp
  closed := by
    intro p hp b hb
    have hp : p ∈ c.privileges := by
      rcases List.mem_append.1 hp with hp | hp
      · exact mem_of_mem_pick hp
      · exact (List.mem_filter.1 hp).1
    obtain ⟨q, hq, hqb⟩ := c.closed p hp b hb
    refine ⟨q, List.mem_append.2 ?_, hqb⟩
    -- Nothing is lost: a privilege is picked by its name, or left over.
    by_cases hn : q.id ∈ names
    · exact .inl (List.mem_filterMap.2 ⟨q.id, List.mem_eraseDups.2 hn, get?_eq_some_of_mem hq⟩)
    · exact .inr (List.mem_filter.2 ⟨hq, by simpa using hn⟩)
  grounded := by
    intro p hp
    rcases List.mem_append.1 hp with hp | hp
    · exact c.grounded p (mem_of_mem_pick hp)
    · exact c.grounded p ((List.mem_filter.1 hp).1)

end Catalogue

end AccessControl
