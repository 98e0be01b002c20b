import Mathlib.Data.List.Forall2

/-!
# Lists that correspond

Lists correspond if every member of the one is related to a member of the other one, in
whatever order and however often. Lists that agree member by member correspond.

* `Corresponds`: lists with related members;
* `SameMembers`: lists with the same members;
* `corresponds_of_forall₂`, `forall₂_of_map_eq`: member by member.
-/

namespace AccessControl

variable {α β γ : Type}

/-- Lists with related members, in whatever order and however often. -/
structure Corresponds (R : α → β → Prop) (as : List α) (bs : List β) : Prop where
  /-- What is in the one list is related to something in the other one. -/
  forth : ∀ a ∈ as, ∃ b ∈ bs, R a b
  /-- What is in the other list is related to something in the one. -/
  back : ∀ b ∈ bs, ∃ a ∈ as, R a b

/-- Lists with the same members, in whatever order and however often. -/
def SameMembers (as bs : List α) : Prop := ∀ a, a ∈ as ↔ a ∈ bs

theorem SameMembers.symm {as bs : List α} (h : SameMembers as bs) : SameMembers bs as :=
  fun a => (h a).symm

theorem sameMembers_iff_corresponds {as bs : List α} :
    SameMembers as bs ↔ Corresponds Eq as bs := by
  constructor
  · exact fun h => ⟨fun a ha => ⟨a, (h a).1 ha, rfl⟩, fun a ha => ⟨a, (h a).2 ha, rfl⟩⟩
  · refine fun h a => ⟨fun ha => ?_, fun ha => ?_⟩
    · obtain ⟨_, hb, rfl⟩ := h.forth a ha
      exact hb
    · obtain ⟨_, hb, rfl⟩ := h.back a ha
      exact hb

theorem corresponds_of_forall₂ {R : α → β → Prop} {as : List α} {bs : List β}
    (h : List.Forall₂ R as bs) : Corresponds R as bs := by
  induction h with
  | nil => exact ⟨nofun, nofun⟩
  | cons hab _ ih =>
    refine ⟨fun a ha => ?_, fun b hb => ?_⟩
    · rcases List.mem_cons.1 ha with rfl | ha
      · exact ⟨_, List.mem_cons_self, hab⟩
      · obtain ⟨b, hb, hab⟩ := ih.forth a ha
        exact ⟨b, List.mem_cons_of_mem _ hb, hab⟩
    · rcases List.mem_cons.1 hb with rfl | hb
      · exact ⟨_, List.mem_cons_self, hab⟩
      · obtain ⟨a, ha, hab⟩ := ih.back b hb
        exact ⟨a, List.mem_cons_of_mem _ ha, hab⟩

/-- Lists of which the same is read agree member by member. -/
theorem forall₂_of_map_eq {f : α → γ} {g : β → γ} {as : List α} {bs : List β}
    (h : as.map f = bs.map g) :
    List.Forall₂ (fun a b => a ∈ as ∧ b ∈ bs ∧ f a = g b) as bs := by
  have hfg : List.Forall₂ (fun a b => f a = g b) as bs := by
    rw [← List.forall₂_map_right_iff, ← List.forall₂_map_left_iff, List.forall₂_eq_eq_eq]
    exact h
  refine List.forall₂_iff_zip.2 ⟨hfg.length_eq, fun {a b} hab => ?_⟩
  obtain ⟨ha, hb⟩ := List.of_mem_zip hab
  exact ⟨ha, hb, List.forall₂_zip hfg hab⟩

/-- Of lists that agree member by member the same is read. -/
theorem map_eq_of_forall₂ {R : α → β → Prop} {f : α → γ} {g : β → γ} {as : List α} {bs : List β}
    (h : List.Forall₂ R as bs) (hfg : ∀ a b, R a b → f a = g b) : as.map f = bs.map g := by
  rw [← List.forall₂_eq_eq_eq, List.forall₂_map_left_iff, List.forall₂_map_right_iff]
  exact h.imp hfg

end AccessControl
