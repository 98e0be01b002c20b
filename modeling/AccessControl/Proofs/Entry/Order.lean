import AccessControl.Privilege.Catalogue
import AccessControl.Proofs.Entry.Position

/-!
# Where entries are placed

New entries go between the two parts into which a position divides the entries of the
others. It is the position that an order means, or, without an order, the number of the
principal in the whole list, looked up among the others. The principals before it are not
touched, so it comes after the same principals there, although perhaps not after the same
entries: a principal keeps its place.

* `place_eq_ok_iff`, `place_eq_error_iff`: what an order does;
* `exists_divides_positionOf`: what comes before the place that a principal keeps;
* `place_toString`: keeping a place is the same as asking for it by its number;
* `place_exactly`: the entries go exactly where the order says, or where they were.
-/

namespace AccessControl

variable {acl acl' front back entries : List Entry} {principal q : Principal}
  {order : String} {position : Position} {e : Error}

/-! ## Placing -/

theorem placeAt_divides (hothers : othersThan principal acl = front ++ back)
    (h : position.Divides front back) :
    placeAt acl principal entries position = .ok (front ++ entries ++ back) := by
  rw [placeAt, hothers, Position.index_divides h]
  exact congrArg Except.ok (by rw [List.take_left, List.drop_left])

theorem placeAt_refuses (h : position.Refuses (othersThan principal acl) e) :
    placeAt acl principal entries position = .error e := by
  rw [placeAt, Position.index_refuses h]
  rfl

theorem place_text (horder : order ≠ "") :
    place acl principal entries (.text order) =
      (Position.ofText order).bind (placeAt acl principal entries) := by
  have htrue : (Datum.text order).isTrue = true := by simpa [Datum.isTrue] using horder
  rw [place, if_pos htrue]
  rfl

theorem place_divides (horder : order ≠ "") (hmeans : Position.Means order position)
    (hothers : othersThan principal acl = front ++ back) (h : position.Divides front back) :
    place acl principal entries (.text order) = .ok (front ++ entries ++ back) := by
  rw [place_text horder, Position.ofText_means hmeans]
  exact placeAt_divides hothers h

theorem place_refuses (horder : order ≠ "")
    (h : RefusesOrder (othersThan principal acl) order e) :
    place acl principal entries (.text order) = .error e := by
  rw [place_text horder]
  cases h with
  | meaningless hword hi => rw [Position.ofText_of_not_isWorded hword, hi]; rfl
  | means hmeans h =>
    rw [Position.ofText_means hmeans]
    exact placeAt_refuses h

/-- New entries are placed where the order divides the others, unless it is refused. -/
theorem place_cases (acl : List Entry) (principal : Principal) (entries : List Entry)
    (horder : order ≠ "") :
    (∃ position front back, Position.Means order position ∧
      othersThan principal acl = front ++ back ∧ position.Divides front back ∧
      place acl principal entries (.text order) = .ok (front ++ entries ++ back)) ∨
    ∃ e, RefusesOrder (othersThan principal acl) order e ∧
      place acl principal entries (.text order) = .error e := by
  rcases Position.exists_means_or order with ⟨position, hmeans⟩ | ⟨hword, hi⟩
  · rcases position.exists_divides_or_refuses (othersThan principal acl) with
      ⟨front, back, hothers, hdivides⟩ | ⟨e, hrefuses⟩
    · exact .inl ⟨position, front, back, hmeans, hothers, hdivides,
        place_divides horder hmeans hothers hdivides⟩
    · exact .inr ⟨e, .means hmeans hrefuses, place_refuses horder (.means hmeans hrefuses)⟩
  · exact .inr ⟨_, .meaningless hword hi, place_refuses horder (.meaningless hword hi)⟩

theorem place_eq_ok_iff (horder : order ≠ "") :
    place acl principal entries (.text order) = .ok acl' ↔
      ∃ position front back, Position.Means order position ∧
        othersThan principal acl = front ++ back ∧ position.Divides front back ∧
        acl' = front ++ entries ++ back := by
  constructor
  · intro h
    rcases place_cases acl principal entries horder with
      ⟨position, front, back, hmeans, hothers, hdivides, hplace⟩ | ⟨e, _, hplace⟩
    · exact ⟨position, front, back, hmeans, hothers, hdivides, Except.ok.inj (h.symm.trans hplace)⟩
    · cases h.symm.trans hplace
  · rintro ⟨position, front, back, hmeans, hothers, hdivides, rfl⟩
    exact place_divides horder hmeans hothers hdivides

theorem place_eq_error_iff (horder : order ≠ "") :
    place acl principal entries (.text order) = .error e ↔
      RefusesOrder (othersThan principal acl) order e := by
  refine ⟨fun h => ?_, place_refuses horder⟩
  rcases place_cases acl principal entries horder with
    ⟨position, front, back, _, _, _, hplace⟩ | ⟨e', hrefuses, hplace⟩
  · cases h.symm.trans hplace
  · rwa [Except.error.inj (h.symm.trans hplace)]

/-! ## Keeping a place -/

/-- Data that are not true are no order. -/
theorem place_unordered {order : Datum} (h : order.isTrue = false) :
    place acl principal entries order =
      placeAt acl principal entries (positionOf acl principal) := by
  rw [place, if_neg (by rw [h]; exact Bool.false_ne_true)]

/-- A principal keeps its place as if it were asked for by its number. -/
theorem place_toString {n : Nat} {order : Datum} (h : positionOf acl principal = .nth n)
    (hn : (toString n).length ≤ Text.maxDigits) (horder : order.isTrue = false) :
    place acl principal entries (.text (toString n)) = place acl principal entries order := by
  have hne : toString n ≠ "" := fun hempty => by
    have hnumber := Text.integer?_toString hn
    rw [hempty] at hnumber
    cases hnumber
  rw [place_text hne, Position.ofText_means (Position.means_toString hn), place_unordered horder,
    h]
  rfl

theorem findIdx?_principals (acl : List Entry) (q : Principal) :
    (principals acl).findIdx? (· == q) = (marks acl).eraseDups.findIdx? (· == q.mark) := by
  rw [← map_mark_principals, List.findIdx?_map]
  exact congrArg (List.findIdx? · (principals acl)) (funext fun p => (Scalar.beq_mark p q).symm)

theorem positionOf_eq_nth (h : FirstOf q front back) :
    positionOf (front ++ back) q = .nth (principals front).length := by
  obtain ⟨rest, hmarks, _⟩ := h.exists_marks
  have hunlike : ∀ m ∈ (marks front).eraseDups, (m == q.mark) = false := fun m hm =>
    beq_false_of_ne (ne_of_mem_of_not_mem (mem_of_mem_eraseDupsBy hm)
      (mark_notMem_marks_iff.2 h.unlike))
  rw [positionOf, findIdx?_principals, hmarks, List.findIdx?_append,
    List.findIdx?_eq_none_iff.2 hunlike, Option.none_or, List.findIdx?_cons, if_pos BEq.rfl,
    Option.map_some, Nat.zero_add, length_principals]

theorem positionOf_eq_last (h : ∀ a ∈ acl, (a.principal == q) = false) :
    positionOf acl q = .last := by
  have hunlike : ∀ p ∈ principals acl, (p == q) = false := fun p hp => by
    obtain ⟨a, ha, rfl⟩ := List.mem_map.1 (mem_of_mem_eraseDupsBy hp)
    exact h a ha
  rw [positionOf, List.findIdx?_eq_none_iff.2 hunlike]

/-- The place with a number comes after as many principals. -/
theorem Position.Divides.length_principals {n : Nat} (h : Divides (.nth n) front back)
    (hn : n ≤ (principals (front ++ back)).length) : (principals front).length = n := by
  cases h with
  | @nth _ p _ _ _ hi hq =>
    obtain ⟨rest, hmarks, _⟩ := hq.exists_marks
    have hnumber := congrArg (Option.map Scalar.mark) hi
    rw [← List.getElem?_map, map_mark_principals, Option.map_some] at hnumber
    have hplace : (marks (front ++ back)).eraseDups[(marks front).eraseDups.length]? =
        some p.mark := by
      rw [hmarks, List.getElem?_append_right (Nat.le_refl _), Nat.sub_self, List.getElem?_cons_zero]
    rw [AccessControl.length_principals]
    exact (List.getElem?_inj (List.getElem?_eq_some_iff.1 hplace).1
      (Catalogue.nodup_eraseDups _)).1 (hplace.trans hnumber.symm)
  | beyond hnone hle =>
    rw [List.append_nil] at hn
    omega

/-- The principals of a list, in the order of their first entries; one that has none comes
    last. -/
def principalsWith (acl : List Entry) (principal : Principal) : List Principal :=
  if (principals acl).contains principal then principals acl else principals acl ++ [principal]

theorem map_mark_principalsWith_of_firstOf (h : FirstOf q front back) :
    (principalsWith (front ++ back) q).map Scalar.mark = (marks (front ++ back)).eraseDups := by
  obtain ⟨a, ha, hq⟩ := h.mem
  have hmem : q.mark ∈ marks (front ++ back) :=
    mark_mem_marks_iff.2 ⟨a, List.mem_append_right _ ha, hq⟩
  rw [principalsWith, if_pos (contains_principals.2 hmem), map_mark_principals]

theorem map_mark_principalsWith_of_none (h : ∀ a ∈ acl, (a.principal == q) = false) :
    (principalsWith acl q).map Scalar.mark = (marks acl).eraseDups ++ [q.mark] := by
  rw [principalsWith, if_neg (contains_principals.not.2 (mark_notMem_marks_iff.2 h)),
    List.map_append, map_mark_principals, List.map_singleton]

/-- The position of a principal comes after the same principals among the others as in the
    whole list. -/
theorem exists_divides_positionOf (acl : List Entry) (q : Principal) :
    ∃ front back rest, othersThan q acl = front ++ back ∧ (positionOf acl q).Divides front back ∧
      (marks (front ++ back)).eraseDups = (marks front).eraseDups ++ rest ∧
      (principalsWith acl q).map Scalar.mark = (marks front).eraseDups ++ q.mark :: rest := by
  by_cases h : ∃ a ∈ acl, (a.principal == q) = true
  · obtain ⟨before, after, rfl, hq⟩ := exists_firstOf h
    obtain ⟨rest, hwhole, hothers⟩ := hq.exists_marks
    have hsplit : othersThan q (before ++ after) = before ++ othersThan q after := by
      rw [othersThan_append, othersThan_foreign hq.unlike]
    have hcount :
        (principals before).length ≤ (principals (before ++ othersThan q after)).length := by
      rw [length_principals, length_principals, hothers, List.length_append]
      exact Nat.le_add_right _ _
    rw [hsplit, positionOf_eq_nth hq, map_mark_principalsWith_of_firstOf hq, hwhole]
    rcases Position.exists_divides_or_refuses (before ++ othersThan q after)
      (.nth (principals before).length) with ⟨front, back, heq, hdivides⟩ | ⟨e, hrefuses⟩
    · -- Both are beginnings of the same list, and have the same number of principals.
      have hlength := hdivides.length_principals (heq ▸ hcount)
      rw [length_principals, length_principals] at hlength
      rw [heq] at hothers
      have hfront : (marks front).eraseDups = (marks before).eraseDups := by
        rw [marks_append, List.eraseDups_append] at hothers
        exact (List.append_inj hothers hlength).1
      exact ⟨front, back, rest, heq, hdivides, by rw [hfront, hothers], by rw [hfront]⟩
    · cases hrefuses with
      | nth hlarge =>
        have hle := length_principals_le (before ++ othersThan q after)
        omega
  · have hnone : ∀ a ∈ acl, (a.principal == q) = false := by simpa using h
    rw [positionOf_eq_last hnone, othersThan_foreign hnone,
      map_mark_principalsWith_of_none hnone]
    exact ⟨acl, [], [], (List.append_nil _).symm, .last, by rw [List.append_nil, List.append_nil],
      rfl⟩

theorem forall₂_beq_of_map_mark_eq {ps qs : List Principal}
    (h : ps.map Scalar.mark = qs.map Scalar.mark) : List.Forall₂ (fun p q => p == q) ps qs := by
  have hmarks : List.Forall₂ (fun p q => p.mark = q.mark) ps qs := by
    rw [← List.forall₂_map_right_iff, ← List.forall₂_map_left_iff, List.forall₂_eq_eq_eq]
    exact h
  exact hmarks.imp fun p q => Scalar.beq_iff_mark_eq.2

/-- Without an order the new entries come after the same principals as the old ones. -/
theorem placeAt_positionOf (acl : List Entry)
    (hown : ∀ a ∈ entries, (a.principal == principal) = true) :
    ∃ front back, othersThan principal acl = front ++ back ∧
      placeAt acl principal entries (positionOf acl principal) =
        .ok (front ++ entries ++ back) ∧
      (entries ≠ [] → List.Forall₂ (fun p q => p == q) (principals (front ++ entries ++ back))
        (principalsWith acl principal)) := by
  obtain ⟨front, back, rest, hothers, hdivides, hkept, hwith⟩ :=
    exists_divides_positionOf acl principal
  refine ⟨front, back, hothers, placeAt_divides hothers hdivides, fun hne => ?_⟩
  have hforeign : ∀ a ∈ front ++ back, (a.principal == principal) = false := fun a ha =>
    (mem_othersThan.1 (hothers ▸ ha)).2
  have hfirst : FirstOf principal front (entries ++ back) := by
    refine ⟨fun a ha => hforeign a (List.mem_append_left _ ha), entries.head hne, ?_,
      hown _ (List.head_mem hne)⟩
    rw [List.head?_append_of_ne_nil _ hne, List.head?_eq_some_head hne]
    rfl
  obtain ⟨rest', hnew, hold⟩ := hfirst.exists_marks
  rw [othersThan_append, othersThan_own hown, List.nil_append,
    othersThan_foreign fun a ha => hforeign a (List.mem_append_right _ ha), hkept] at hold
  refine forall₂_beq_of_map_mark_eq ?_
  rw [map_mark_principals, List.append_assoc, hnew, hwith, List.append_cancel_left hold]

/-- What it means that new entries are placed exactly. Wherever they go, they go between two
    parts of the entries of the others. Data that are not true, such as the empty text, are no
    order. -/
structure PlacesExactly (acl : List Entry) (principal : Principal) (entries : List Entry) :
    Prop where
  /-- With an order, a list results if the order means a position of the others, and it is
      the one with the new entries at this position. -/
  placed (order : String) : order ≠ "" → ∀ acl' : List Entry,
    place acl principal entries (.text order) = .ok acl' ↔
      ∃ position front back, Position.Means order position ∧
        othersThan principal acl = front ++ back ∧ position.Divides front back ∧
        acl' = front ++ entries ++ back
  /-- There is an error if the order is of no use for the others. -/
  refused (order : String) : order ≠ "" → ∀ e : Error,
    place acl principal entries (.text order) = .error e ↔
      RefusesOrder (othersThan principal acl) order e
  /-- The error is about the order. -/
  invalid (order : String) (e : Error) :
    place acl principal entries (.text order) = .error e → e.kind = .invalidOrder
  /-- Without an order there is no error, and the principals come in the order in which they
      came before. -/
  kept (order : Datum) : order.isTrue = false →
    ∃ front back, othersThan principal acl = front ++ back ∧
      place acl principal entries order = .ok (front ++ entries ++ back) ∧
      (entries ≠ [] → List.Forall₂ (fun p q => p == q) (principals (front ++ entries ++ back))
        (principalsWith acl principal))

/-- Entries of a principal are placed exactly where the order says, or where the principal was. -/
theorem place_exactly (acl : List Entry) (principal : Principal) (entries : List Entry)
    (hown : ∀ a ∈ entries, (a.principal == principal) = true) :
    PlacesExactly acl principal entries := by
  refine ⟨fun order horder acl' => place_eq_ok_iff horder,
    fun order horder e => place_eq_error_iff horder, fun order e h => ?_, fun order horder => ?_⟩
  · by_cases horder : order = ""
    · -- The empty text is no order.
      obtain ⟨_, _, _, hplace, _⟩ := placeAt_positionOf acl hown
      rw [horder, place_unordered rfl, hplace] at h
      cases h
    · exact ((place_eq_error_iff horder).1 h).kind
  · rw [place_unordered horder]
    exact placeAt_positionOf acl hown

/-- An entry that allows reading. -/
def reader (name : String) : Entry := ⟨.text name, .allow, [.atomic "doc:read"], ∅⟩

/-- Entries of several principals, interleaved. -/
def interleaved : List Entry := ["bob", "ann", "cat", "bob", "ann", "dan", "cat"].map reader

/-- After the last of several entries, before a principal that is given by its number, nowhere,
    and where the old entries were. -/
theorem place_exactly_interleaved :
    (∀ a ∈ [reader "ann"], (a.principal == .text "ann") = true) ∧
    place interleaved (.text "ann") [reader "ann"] (.text (Position.afterWord ++ "cat")) =
      .ok (["bob", "cat", "bob", "dan", "cat", "ann"].map reader) ∧
    place interleaved (.text "ann") [reader "ann"] (.text (toString 2)) =
      .ok (["bob", "cat", "bob", "ann", "dan", "cat"].map reader) ∧
    place interleaved (.text "ann") [reader "ann"] (.text (Position.beforeWord ++ "eve")) =
      .error (.noEntryOf "eve") ∧
    ∃ front back, ["bob", "cat", "bob", "dan", "cat"].map reader = front ++ back ∧
      place interleaved (.text "ann") [reader "ann"] .null =
        .ok (front ++ [reader "ann"] ++ back) ∧
      List.Forall₂ (fun p q => p == q) (principals (front ++ [reader "ann"] ++ back))
        [.text "bob", .text "ann", .text "cat", .text "dan"] := by
  have hown : ∀ a ∈ [reader "ann"], (a.principal == .text "ann") = true := by
    rintro a (_ | ⟨_, ⟨⟩⟩)
    exact BEq.rfl
  have hexact := place_exactly interleaved (.text "ann") [reader "ann"] hown
  refine ⟨hown, (hexact.placed _ (by decide) _).2 ?_, (hexact.placed _ (by decide) _).2 ?_,
    (hexact.refused _ (by decide) _).2 (.means .before (.before (by decide))), ?_⟩
  · exact ⟨.after "cat", ["bob", "cat", "bob", "dan", "cat"].map reader, [], .after, rfl,
      .after ⟨⟨_, rfl, rfl⟩, by decide⟩, rfl⟩
  · exact ⟨.nth 2, ["bob", "cat", "bob"].map reader, ["dan", "cat"].map reader,
      Position.means_toString (by decide), rfl,
      .nth (by decide) (by decide : _ = some (.text "dan")) ⟨by decide, _, rfl, rfl⟩, rfl⟩
  · obtain ⟨front, back, hothers, hplace, hprincipals⟩ := hexact.kept .null rfl
    exact ⟨front, back, hothers, hplace, hprincipals (List.cons_ne_nil _ _)⟩

end AccessControl
