import AccessControl.Entry.Placement
import AccessControl.Proofs.Entry.Load
import AccessControl.Proofs.Success

/-!
# Placing entries

Wherever the new entries of a principal are placed, they stand together, and the
entries of the others stay what they were, in the same order.

* `exists_of_place`: what a list of entries looks like after entries are placed;
* `Replaces`: entries of a principal have taken the place of its old ones;
* `Replaces.ofEntries_own`, `Replaces.ofEntries_other`: what such a list loads into.
-/

namespace AccessControl

variable {acl acl' entries : List Entry} {principal : Principal}

theorem othersThan_append (l l' : List Entry) :
    othersThan principal (l ++ l') = othersThan principal l ++ othersThan principal l' :=
  List.filter_append l l'

theorem mem_othersThan {a : Entry} :
    a ∈ othersThan principal acl ↔ a ∈ acl ∧ (a.principal == principal) = false := by
  rw [othersThan, List.mem_filter, bne, Bool.not_eq_true']

theorem othersThan_own (h : ∀ a ∈ acl, (a.principal == principal) = true) :
    othersThan principal acl = [] :=
  List.filter_eq_nil_iff.2 fun a ha => by rw [bne, h a ha]; exact Bool.false_ne_true

theorem othersThan_foreign (h : ∀ a ∈ acl, (a.principal == principal) = false) :
    othersThan principal acl = acl :=
  List.filter_eq_self.2 fun a ha => by rw [bne, h a ha]; rfl

theorem exists_of_placeAt {position : Position}
    (h : placeAt acl principal entries position = .ok acl') :
    ∃ before after, acl' = before ++ entries ++ after ∧
      before ++ after = othersThan principal acl := by
  obtain ⟨i, _, h⟩ := exists_of_bind_eq_ok h
  cases h
  exact ⟨_, _, rfl, List.take_append_drop i _⟩

/-- Placed entries are put between the entries of the others, in one place. -/
theorem exists_of_place {order : Datum} (h : place acl principal entries order = .ok acl') :
    ∃ before after, acl' = before ++ entries ++ after ∧
      before ++ after = othersThan principal acl := by
  rw [place] at h
  split at h
  · obtain ⟨text, _, h⟩ := exists_of_bind_eq_ok h
    obtain ⟨position, _, h⟩ := exists_of_bind_eq_ok h
    exact exists_of_placeAt h
  · exact exists_of_placeAt h

/-- A list of entries in which the entries of a principal are replaced by others. -/
structure Replaces (principal : Principal) (entries acl acl' : List Entry) : Prop where
  /-- The new entries are about the principal. -/
  own : ∀ a ∈ entries, a.principal = principal
  /-- They stand together, and nothing else is about the principal. -/
  together : ∃ before after, acl' = before ++ entries ++ after ∧
    ∀ a ∈ before ++ after, (a.principal == principal) = false
  /-- The entries of the others are the same as before. -/
  others : othersThan principal acl' = othersThan principal acl

theorem replaces_of_place {order : Datum} (hown : ∀ a ∈ entries, a.principal = principal)
    (h : place acl principal entries order = .ok acl') :
    Replaces principal entries acl acl' := by
  obtain ⟨before, after, rfl, hothers⟩ := exists_of_place h
  have hforeign : ∀ a ∈ before ++ after, (a.principal == principal) = false :=
    fun a ha => (mem_othersThan.1 (hothers ▸ ha)).2
  refine ⟨hown, ⟨before, after, rfl, hforeign⟩, ?_⟩
  -- Of the new list the new entries are dropped, and no others.
  have hnone : othersThan principal entries = [] := othersThan_own fun a ha => hown a ha ▸ BEq.rfl
  rw [othersThan_append, othersThan_append, hnone, List.append_nil,
    othersThan_foreign fun a ha => hforeign a (List.mem_append_left _ ha),
    othersThan_foreign fun a ha => hforeign a (List.mem_append_right _ ha), hothers]

namespace Replaces

/-- Of the new list the principal loads the new entries. -/
theorem ofEntries_own {p : String} (h : Replaces (.text p) entries acl acl') :
    DecisionMap.ofEntries acl' (.text p) = DecisionMap.ofEntries entries (.text p) := by
  obtain ⟨before, after, rfl, hforeign⟩ := h.together
  refine DecisionMap.ofEntries_congr ?_
  have hnone {l : List Entry} (hl : ∀ a ∈ l, (a.principal == .text p) = false) :
      l.filter (·.isOf (.text p)) = [] :=
    List.filter_eq_nil_iff.2 fun a ha => by simp [Entry.isOf_text, hl a ha]
  rw [List.filter_append, List.filter_append,
    hnone fun a ha => hforeign a (List.mem_append_left _ ha),
    hnone fun a ha => hforeign a (List.mem_append_right _ ha), List.nil_append, List.append_nil]

/-- Another principal loads the same as before. -/
theorem ofEntries_other {p q : String} (h : Replaces (.text p) entries acl acl') (hq : q ≠ p) :
    DecisionMap.ofEntries acl' (.text q) = DecisionMap.ofEntries acl (.text q) := by
  -- What is about the one is about others than the other.
  have hothers (l : List Entry) :
      l.filter (·.isOf (.text q)) = (othersThan (.text p) l).filter (·.isOf (.text q)) := by
    rw [othersThan, List.filter_filter]
    refine List.filter_congr fun a _ => ?_
    rw [Entry.isOf_text]
    cases ha : a.principal == .text q with
    | false => rfl
    | true =>
      have hne : (a.principal == .text p) = false := by
        rw [BEq.congr_left ha, ← Bool.not_eq_true, Scalar.beq_text_iff]
        exact hq
      rw [bne, hne]
      rfl
  refine DecisionMap.ofEntries_congr ?_
  rw [hothers acl', hothers acl, h.others]

end Replaces

end AccessControl
