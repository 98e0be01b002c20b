import Mathlib.Data.List.TakeWhile
import AccessControl.Proofs.Entry.Order

/-!
# Entries that stay where they are

Without an order, new entries go to the number of their principal. That is a place among
principals, not among entries: where other principals have entries on both sides of the old
ones, the new ones come after those that follow the old ones, up to the first entry of a
principal that had none before.

* `divides_passed`: what is passed on the way to a number;
* `Together.place_eq`: where new entries go if the old ones stood together;
* `place_together`: they go where the old ones were just when nothing is passed.
-/

namespace AccessControl

variable {front block back entries : List Entry} {p q : Principal} {a : Entry} {order : Datum}

/-! ## What is passed -/

/-- Whether an entry is about a principal that one of some entries is about. -/
def knownIn (front : List Entry) (a : Entry) : Bool :=
  front.any fun b => b.principal == a.principal

/-- The entries up to the first one of a principal that has none before. -/
def passed (front back : List Entry) : List Entry := back.takeWhile (knownIn front)

/-- The entries from that one on. -/
def unpassed (front back : List Entry) : List Entry := back.dropWhile (knownIn front)

theorem passed_append_unpassed (front back : List Entry) :
    passed front back ++ unpassed front back = back :=
  List.takeWhile_append_dropWhile

theorem knownIn_iff : knownIn front a = true ↔ a.principal.mark ∈ marks front := by
  rw [knownIn, List.any_eq_true, mark_mem_marks_iff]

theorem knownIn_of_mem_head?_unpassed (h : a ∈ (unpassed front back).head?) :
    knownIn front a = false := by
  have hstop := List.head?_dropWhile_not (knownIn front) back
  rwa [← unpassed, Option.mem_def.1 h] at hstop

/-- Nothing is passed just if the next entry is about a principal that has none before. -/
theorem passed_eq_nil_iff : passed front back = [] ↔ ∀ a ∈ back.head?, knownIn front a = false := by
  cases back with
  | nil => exact iff_of_true rfl nofun
  | cons a back =>
    cases h : knownIn front a <;> simp [passed, h]

/-- What is passed brings no principals. -/
theorem eraseDups_marks_passed (front back : List Entry) :
    (marks (front ++ passed front back)).eraseDups = (marks front).eraseDups := by
  have hnew : (marks (passed front back)).removeAll (marks front) = [] := by
    refine List.filter_eq_nil_iff.2 fun m hm => ?_
    obtain ⟨a, ha, rfl⟩ := List.mem_map.1 hm
    simpa using knownIn_iff.1 (List.mem_takeWhile_imp ha)
  rw [marks_append, List.eraseDups_append, hnew, List.eraseDups_nil, List.append_nil]

theorem firstOf_unpassed (h : a ∈ (unpassed front back).head?) :
    FirstOf a.principal (front ++ passed front back) (unpassed front back) := by
  refine ⟨mark_notMem_marks_iff.1 ?_, a, h, BEq.rfl⟩
  rw [← List.mem_eraseDups, eraseDups_marks_passed, List.mem_eraseDups, ← knownIn_iff,
    knownIn_of_mem_head?_unpassed h]
  exact Bool.false_ne_true

theorem FirstOf.of_mark_eq (h : FirstOf p front back) (hpq : p.mark = q.mark) :
    FirstOf q front back := by
  have hsame (a : Entry) : (a.principal == p) = (a.principal == q) := by
    rw [← Scalar.beq_mark, ← Scalar.beq_mark, hpq]
  obtain ⟨hunlike, a, ha, hnext⟩ := h
  exact ⟨fun a ha => hsame a ▸ hunlike a ha, a, ha, hsame a ▸ hnext⟩

/-- The number of principals that come first is found after what is passed. -/
theorem divides_passed (front back : List Entry) :
    (Position.nth (principals front).length).Divides (front ++ passed front back)
      (unpassed front back) := by
  have hcount : (principals (front ++ passed front back)).length = (principals front).length := by
    rw [length_principals, length_principals, eraseDups_marks_passed]
  cases hrest : unpassed front back with
  | nil =>
    have hle := length_principals_le (front ++ passed front back)
    exact .beyond (by omega) (by omega)
  | cons a rest =>
    have hfirst : FirstOf a.principal (front ++ passed front back) (a :: rest) := by
      rw [← hrest]
      exact firstOf_unpassed (by rw [hrest]; rfl)
    -- The number is that of the principal of the entry at which passing stops.
    obtain ⟨others, hmarks, _⟩ := hfirst.exists_marks
    have hnumber : ((principals (front ++ passed front back ++ a :: rest)).map Scalar.mark)[
        (principals front).length]? = some a.principal.mark := by
      rw [map_mark_principals, hmarks, ← hcount, length_principals, List.getElem?_append_right
        (Nat.le_refl _), Nat.sub_self, List.getElem?_cons_zero]
    rw [List.getElem?_map, Option.map_eq_some_iff] at hnumber
    obtain ⟨q, hq, hmark⟩ := hnumber
    exact .nth (Int.natCast_nonneg _) hq (hfirst.of_mark_eq hmark.symm)

/-! ## Entries that stand together -/

/-- The entries of a principal in a list stand together, between those of others. -/
structure Together (p : Principal) (front block back : List Entry) : Prop where
  /-- What comes before is about others. -/
  before : ∀ a ∈ front, (a.principal == p) = false
  /-- There are entries of the principal. -/
  nonempty : block ≠ []
  /-- What stands together is about the principal. -/
  own : ∀ a ∈ block, (a.principal == p) = true
  /-- What comes after is about others. -/
  after : ∀ a ∈ back, (a.principal == p) = false

namespace Together

theorem firstOf (h : Together p front block back) : FirstOf p front (block ++ back) := by
  have hhead := List.head_mem h.nonempty
  refine ⟨h.before, block.head h.nonempty, ?_, h.own _ hhead⟩
  rw [List.head?_append_of_ne_nil _ h.nonempty, List.head?_eq_some_head h.nonempty]
  rfl

theorem othersThan_eq (h : Together p front block back) :
    othersThan p (front ++ block ++ back) = front ++ back := by
  rw [othersThan_append, othersThan_append, othersThan_foreign h.before, othersThan_own h.own,
    othersThan_foreign h.after, List.append_nil]

/-- New entries go behind what is passed. -/
theorem place_eq (h : Together p front block back) (horder : order.isTrue = false)
    (entries : List Entry) : place (front ++ block ++ back) p entries order =
      .ok (front ++ passed front back ++ entries ++ unpassed front back) := by
  have hothers : othersThan p (front ++ block ++ back) =
      front ++ passed front back ++ unpassed front back := by
    rw [h.othersThan_eq, List.append_assoc, passed_append_unpassed]
  have hposition : positionOf (front ++ block ++ back) p = .nth (principals front).length := by
    rw [List.append_assoc]
    exact positionOf_eq_nth h.firstOf
  rw [place_unordered horder, hposition]
  exact placeAt_divides hothers (divides_passed front back)

end Together

/-- New entries of a principal go where the old ones were, between what came before and what
    came after, and the list stays as it is if the old ones are placed again. -/
structure KeepsPlace (p : Principal) (front block back : List Entry) : Prop where
  /-- The old entries are placed where they are. -/
  same : ∀ order : Datum, order.isTrue = false →
    place (front ++ block ++ back) p block order = .ok (front ++ block ++ back)
  /-- Others take their place. -/
  replaced : ∀ order : Datum, order.isTrue = false → ∀ entries,
    place (front ++ block ++ back) p entries order = .ok (front ++ entries ++ back)

/-- The first entry that is passed would come to stand before the first of the old ones. -/
theorem Together.passed_eq_nil (h : Together p front block back)
    (hsame : place (front ++ block ++ back) p block .null = .ok (front ++ block ++ back)) :
    passed front back = [] := by
  have hlists := Except.ok.inj ((h.place_eq rfl block).symm.trans hsame)
  rw [List.append_assoc, List.append_assoc, List.append_assoc, List.append_cancel_left_eq] at hlists
  cases hpassed : passed front back with
  | nil => rfl
  | cons a rest =>
    have hhead := congrArg List.head? hlists
    rw [hpassed, List.cons_append, List.head?_cons,
      List.head?_append_of_ne_nil _ h.nonempty] at hhead
    have hown := h.own a (List.mem_of_mem_head? hhead.symm)
    have hother := h.after a (List.takeWhile_subset _ (hpassed ▸ List.mem_cons_self))
    rw [hother] at hown
    cases hown

/-- Where the entries of a principal stand together, new ones go behind what is passed. So
    they take the place of the old ones unless the next entry is about a principal that has
    entries before. -/
theorem place_together (h : Together p front block back) :
    (∀ order : Datum, order.isTrue = false → ∀ entries,
      place (front ++ block ++ back) p entries order =
        .ok (front ++ passed front back ++ entries ++ unpassed front back)) ∧
    (KeepsPlace p front block back ↔ ∀ a ∈ back.head?, ∀ b ∈ front,
      (b.principal == a.principal) = false) := by
  refine ⟨fun order horder entries => h.place_eq horder entries, ?_⟩
  have hnew : (∀ a ∈ back.head?, ∀ b ∈ front, (b.principal == a.principal) = false) ↔
      passed front back = [] := by
    simp only [passed_eq_nil_iff, knownIn, List.any_eq_false, Bool.not_eq_true]
  rw [hnew]
  refine ⟨fun hkeeps => h.passed_eq_nil (hkeeps.same .null rfl), fun hpassed => ?_⟩
  have hplace (order : Datum) (horder : order.isTrue = false) (entries : List Entry) :
      place (front ++ block ++ back) p entries order = .ok (front ++ entries ++ back) := by
    have hback := passed_append_unpassed front back
    rw [hpassed, List.nil_append] at hback
    rw [h.place_eq horder, hpassed, List.append_nil, hback]
  exact ⟨fun order horder => hplace order horder block, hplace⟩

/-- Others have entries on both sides, but the next entry is about one who has none before. -/
theorem place_together_surrounded :
    let front := ["ann", "cat", "ann"].map reader
    let back := ["dan", "cat", "ann"].map reader
    Together (.text "bob") front [reader "bob", reader "bob"] back ∧
      KeepsPlace (.text "bob") front [reader "bob", reader "bob"] back := by
  have htogether : Together (.text "bob") (["ann", "cat", "ann"].map reader)
      [reader "bob", reader "bob"] (["dan", "cat", "ann"].map reader) :=
    ⟨by decide, List.cons_ne_nil _ _, by decide, by decide⟩
  exact ⟨htogether, (place_together htogether).2.2 (by decide)⟩

/-- An entry between two of another principal is moved behind the second one. -/
theorem not_keepsPlace_between :
    Together (.text "bob") [reader "ann"] [reader "bob"] [reader "ann"] ∧
      place ([reader "ann"] ++ [reader "bob"] ++ [reader "ann"]) (.text "bob") [reader "bob"] .null =
        .ok [reader "ann", reader "ann", reader "bob"] ∧
      ¬KeepsPlace (.text "bob") [reader "ann"] [reader "bob"] [reader "ann"] := by
  have htogether : Together (.text "bob") [reader "ann"] [reader "bob"] [reader "ann"] :=
    ⟨by decide, List.cons_ne_nil _ _, by decide, by decide⟩
  have horder : Datum.null.isTrue = false := rfl
  have hplace := htogether.place_eq horder [reader "bob"]
  refine ⟨htogether, hplace, fun hkeeps => ?_⟩
  have hmoved := Except.ok.inj (hplace.symm.trans (hkeeps.same .null rfl))
  exact absurd (congrArg marks hmoved) (by decide)

end AccessControl
