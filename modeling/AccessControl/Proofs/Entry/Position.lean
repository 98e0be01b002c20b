import AccessControl.Proofs.Datum.Scalar
import AccessControl.Proofs.Distinct
import AccessControl.Proofs.Entry.Placement
import AccessControl.Proofs.Text.Numeral

/-!
# Positions in a list of entries

A position divides a list of entries in two. A number is that of a principal, counted by
first entries; it is refused if it exceeds the number of entries.

* `Position.Divides`, `Position.Refuses`: where a position divides a list, and which
  positions a list does not have;
* `Position.index_divides`, `Position.index_refuses`: a position is found where it divides the
  list, unless it is refused;
* `FirstOf.exists_marks`: the principals of a list around a first entry;
* `Position.Means`, `Position.ofText_means`: what an order means.
-/

namespace AccessControl

variable {acl front back others : List Entry} {principal q : Principal} {order : String}
  {position : Position} {e : Error}

/-! ## Gaps between entries -/

/-- A list is divided right before the first entry of a principal. -/
structure FirstOf (q : Principal) (front back : List Entry) : Prop where
  /-- No entry before is about the principal. -/
  unlike : ∀ a ∈ front, (a.principal == q) = false
  /-- The next one is. -/
  next : ∃ a ∈ back.head?, (a.principal == q) = true

/-- A list is divided right after the last entry of a principal. -/
structure LastOf (q : Principal) (front back : List Entry) : Prop where
  /-- The previous entry is about the principal. -/
  previous : ∃ a ∈ front.getLast?, (a.principal == q) = true
  /-- No entry after it is. -/
  unlike : ∀ a ∈ back, (a.principal == q) = false

theorem lastOf_iff_reverse : LastOf q front back ↔ FirstOf q back.reverse front.reverse := by
  constructor
  · rintro ⟨hprevious, hunlike⟩
    exact ⟨fun a ha => hunlike a (List.mem_reverse.1 ha), by rwa [List.head?_reverse]⟩
  · rintro ⟨hunlike, hnext⟩
    exact ⟨by rwa [List.head?_reverse] at hnext, fun a ha => hunlike a (List.mem_reverse.2 ha)⟩

theorem exists_firstOf (h : ∃ a ∈ acl, (a.principal == q) = true) :
    ∃ front back, acl = front ++ back ∧ FirstOf q front back := by
  obtain ⟨a, ha⟩ := Option.isSome_iff_exists.1 (List.find?_isSome.2 h)
  obtain ⟨hq, front, back, rfl, hunlike⟩ := List.find?_eq_some_iff_append.1 ha
  exact ⟨front, a :: back, rfl, fun b hb => by simpa using hunlike b hb, a, rfl, hq⟩

theorem exists_lastOf (h : ∃ a ∈ acl, (a.principal == q) = true) :
    ∃ front back, acl = front ++ back ∧ LastOf q front back := by
  obtain ⟨a, ha, hq⟩ := h
  obtain ⟨back, front, hacl, hfirst⟩ := exists_firstOf ⟨a, List.mem_reverse.2 ha, hq⟩
  refine ⟨front.reverse, back.reverse, ?_, lastOf_iff_reverse.2 ?_⟩
  · rw [← List.reverse_append, ← hacl, List.reverse_reverse]
  · rwa [List.reverse_reverse, List.reverse_reverse]

theorem FirstOf.mem (h : FirstOf q front back) : ∃ a ∈ back, (a.principal == q) = true :=
  h.next.imp fun _ => And.imp_left List.mem_of_mem_head?

namespace Position

theorem firstOf?_append (h : FirstOf q front back) :
    firstOf? (front ++ back) q = some front.length := by
  obtain ⟨a, ha, hq⟩ := h.next
  obtain ⟨back, rfl⟩ := List.head?_eq_some_iff.1 ha
  rw [firstOf?, List.findIdx?_append, List.findIdx?_eq_none_iff.2 h.unlike, Option.none_or,
    List.findIdx?_cons, if_pos hq, Option.map_some, Nat.zero_add]

theorem firstOf?_eq_none (h : ∀ a ∈ acl, (a.principal == q) = false) : firstOf? acl q = none :=
  List.findIdx?_eq_none_iff.2 h

theorem lastOf?_append (h : LastOf q front back) :
    lastOf? (front ++ back) q = some front.length := by
  rw [lastOf?, List.reverse_append, firstOf?_append (lastOf_iff_reverse.1 h), Option.map_some,
    List.length_append, List.length_reverse, Nat.add_sub_cancel]

theorem lastOf?_eq_none (h : ∀ a ∈ acl, (a.principal == q) = false) : lastOf? acl q = none := by
  rw [lastOf?, firstOf?_eq_none fun a ha => h a (List.mem_reverse.1 ha), Option.map_none]

end Position

/-! ## Principals of a list -/

/-- What the principals of entries are told apart by. -/
def marks (acl : List Entry) : List (Nat × Int × String) := acl.map fun a => a.principal.mark

theorem marks_append (l l' : List Entry) : marks (l ++ l') = marks l ++ marks l' :=
  List.map_append

theorem marks_othersThan (acl : List Entry) :
    marks (othersThan principal acl) = (marks acl).filter (· != principal.mark) := by
  rw [marks, marks, othersThan, List.filter_map]
  refine congrArg _ (List.filter_congr fun a _ => ?_)
  rw [Function.comp_apply, bne, bne, Scalar.beq_mark]

theorem mark_mem_marks_iff :
    q.mark ∈ marks acl ↔ ∃ a ∈ acl, (a.principal == q) = true := by
  rw [marks, List.mem_map]
  exact exists_congr fun a => and_congr_right' Scalar.beq_iff_mark_eq.symm

theorem mark_notMem_marks_iff :
    q.mark ∉ marks acl ↔ ∀ a ∈ acl, (a.principal == q) = false := by
  rw [mark_mem_marks_iff]
  simp

theorem map_mark_principals (acl : List Entry) :
    (principals acl).map Scalar.mark = (marks acl).eraseDups := by
  rw [principals, marks, ← Function.comp_def, ← List.map_map]
  exact (eraseDupsBy_map Scalar.beq_mark _).symm

theorem length_principals (acl : List Entry) :
    (principals acl).length = (marks acl).eraseDups.length := by
  rw [← map_mark_principals, List.length_map]

theorem length_principals_le (acl : List Entry) : (principals acl).length ≤ acl.length := by
  rw [principals, ← List.length_map Entry.principal]
  exact (sublist_eraseDupsBy _).length_le

theorem exists_of_mem_principals (h : q ∈ principals acl) :
    ∃ a ∈ acl, (a.principal == q) = true := by
  obtain ⟨a, ha, rfl⟩ := List.mem_map.1 (mem_of_mem_eraseDupsBy h)
  exact ⟨a, ha, BEq.rfl⟩

theorem contains_principals : (principals acl).contains q = true ↔ q.mark ∈ marks acl := by
  rw [← List.mem_eraseDups, ← map_mark_principals, List.mem_map,
    List.contains_iff_exists_mem_beq]
  exact exists_congr fun p => and_congr_right' (Scalar.beq_iff_mark_eq.trans eq_comm)

/-- The principals before the first entry of one come first, and then that one. -/
theorem FirstOf.exists_marks (h : FirstOf q front back) :
    ∃ rest, (marks (front ++ back)).eraseDups = (marks front).eraseDups ++ q.mark :: rest ∧
      (marks (front ++ othersThan q back)).eraseDups = (marks front).eraseDups ++ rest := by
  obtain ⟨a, ha, hq⟩ := h.next
  obtain ⟨back, rfl⟩ := List.head?_eq_some_iff.1 ha
  have hmark : marks (a :: back) = q.mark :: marks back := by
    rw [marks, List.map_cons, Scalar.beq_iff_mark_eq.1 hq]
    rfl
  have hkept : othersThan q (a :: back) = othersThan q back :=
    List.filter_cons_of_neg (by rw [bne, hq]; exact Bool.false_ne_true)
  rw [marks_append, marks_append, hkept, hmark, marks_othersThan]
  exact exists_eraseDups_append_cons (mark_notMem_marks_iff.2 h.unlike) _

/-! ## Positions -/

namespace Position

/-- Where a position divides a list of entries. -/
inductive Divides : Position → List Entry → List Entry → Prop
  | first {back : List Entry} : Divides first [] back
  | last {front : List Entry} : Divides last front []
  | before {q : String} {front back : List Entry} :
    FirstOf (.text q) front back → Divides (before q) front back
  | after {q : String} {front back : List Entry} :
    LastOf (.text q) front back → Divides (after q) front back
  /-- A number is that of a principal. -/
  | nth {i : Int} {q : Principal} {front back : List Entry} : 0 ≤ i →
    (principals (front ++ back))[i.toNat]? = some q → FirstOf q front back →
    Divides (nth i) front back
  /-- Any other number means the end, up to the number of entries. -/
  | beyond {i : Int} {front : List Entry} : ¬(0 ≤ i ∧ i < (principals front).length) →
    i ≤ front.length → Divides (nth i) front []

/-- The positions that a list of entries does not have, with the error that says so. -/
inductive Refuses (acl : List Entry) : Position → Error → Prop
  | before {q : String} : (∀ a ∈ acl, (a.principal == .text q) = false) →
    Refuses acl (before q) (.noEntryOf q)
  | after {q : String} : (∀ a ∈ acl, (a.principal == .text q) = false) →
    Refuses acl (after q) (.noEntryOf q)
  | nth {i : Int} : acl.length < i → Refuses acl (nth i) (.orderTooLarge i)

theorem index_divides (h : Divides position front back) :
    index (front ++ back) position = .ok front.length := by
  cases h with
  | first => rfl
  | last => rw [index, List.append_nil]
  | before hq => rw [index, firstOf?_append hq]
  | after hq => rw [index, lastOf?_append hq]
  | nth h0 hi hq =>
    obtain ⟨hlt, _⟩ := List.getElem?_eq_some_iff.1 hi
    have hle := length_principals_le (front ++ back)
    rw [index, if_neg (by omega), if_neg (by omega), hi]
    dsimp only
    rw [firstOf?_append hq, Option.getD_some]
  | beyond hnone hle =>
    rw [List.append_nil, index, if_neg (by omega)]
    split
    · rfl
    · rw [List.getElem?_eq_none (by omega)]

theorem index_refuses (h : Refuses others position e) : index others position = .error e := by
  cases h with
  | before hq => rw [index, firstOf?_eq_none hq]
  | after hq => rw [index, lastOf?_eq_none hq]
  | nth hi => rw [index, if_pos hi]

/-- A list is divided by a position, or refuses it. -/
theorem exists_divides_or_refuses (others : List Entry) (position : Position) :
    (∃ front back, others = front ++ back ∧ Divides position front back) ∨
      ∃ e, Refuses others position e := by
  have hnone {q : Principal} (h : ¬∃ a ∈ others, (a.principal == q) = true) :
      ∀ a ∈ others, (a.principal == q) = false := by simpa using h
  cases position with
  | first => exact .inl ⟨[], others, rfl, .first⟩
  | last => exact .inl ⟨others, [], (List.append_nil _).symm, .last⟩
  | before q =>
    by_cases h : ∃ a ∈ others, (a.principal == .text q) = true
    · obtain ⟨front, back, rfl, hq⟩ := exists_firstOf h
      exact .inl ⟨front, back, rfl, .before hq⟩
    · exact .inr ⟨_, .before (hnone h)⟩
  | after q =>
    by_cases h : ∃ a ∈ others, (a.principal == .text q) = true
    · obtain ⟨front, back, rfl, hq⟩ := exists_lastOf h
      exact .inl ⟨front, back, rfl, .after hq⟩
    · exact .inr ⟨_, .after (hnone h)⟩
  | nth i =>
    by_cases hlarge : others.length < i
    · exact .inr ⟨_, .nth hlarge⟩
    by_cases hi : 0 ≤ i ∧ i < (principals others).length
    · have hlt : i.toNat < (principals others).length := by omega
      obtain ⟨front, back, hothers, hq⟩ :=
        exists_firstOf (exists_of_mem_principals (List.getElem_mem hlt))
      refine .inl ⟨front, back, hothers, .nth hi.1 ?_ hq⟩
      rw [← hothers, List.getElem?_eq_getElem hlt]
    · exact .inl ⟨others, [], (List.append_nil _).symm, .beyond hi (by omega)⟩

/-! ## Orders -/

/-- The orders that are words, or begin with one. -/
def IsWorded (order : String) : Prop :=
  order = firstWord ∨ order = lastWord ∨ (∃ q, order = beforeWord ++ q) ∨
    ∃ q, order = afterWord ++ q

/-- What an order means. -/
inductive Means : String → Position → Prop
  | first : Means firstWord first
  | last : Means lastWord last
  | before {q : String} : Means (beforeWord ++ q) (before q)
  | after {q : String} : Means (afterWord ++ q) (after q)
  | nth {order : String} {i : Int} : ¬IsWorded order → Text.integer? order = some i →
    Means order (nth i)

end Position

/-- The orders that are of no use for a list of entries, with the error that says so. -/
inductive RefusesOrder (acl : List Entry) : String → Error → Prop
  | meaningless {order : String} : ¬Position.IsWorded order → Text.integer? order = none →
    RefusesOrder acl order (.illegalOrder order)
  | means {order : String} {position : Position} {e : Error} : Position.Means order position →
    position.Refuses acl e → RefusesOrder acl order e

theorem RefusesOrder.kind (h : RefusesOrder others order e) : e.kind = .invalidOrder := by
  cases h with
  | meaningless => rfl
  | means _ h => cases h <;> rfl

namespace Position

theorem afterText?_eq_none {lead : String} (h : ¬∃ q, order = lead ++ q) :
    Text.afterText? lead order = none :=
  Option.eq_none_iff_forall_ne_some.2 fun _ hq => h ⟨_, Text.afterText?_eq_some_iff.1 hq⟩

theorem append_ne {lead word q : String} (h : Text.afterText? lead word = none) :
    lead ++ q ≠ word := by
  rintro rfl
  rw [Text.afterText?_eq_some_iff.2 rfl] at h
  cases h

/-- Without a word there must be a number. -/
theorem ofText_of_not_isWorded (h : ¬IsWorded order) :
    ofText order =
      (Text.integer? order).elim (.error (.illegalOrder order)) fun i => .ok (nth i) := by
  rw [IsWorded, not_or, not_or, not_or] at h
  obtain ⟨hfirst, hlast, hbefore, hafter⟩ := h
  simp only [ofText, if_neg hfirst, if_neg hlast, afterText?_eq_none hbefore,
    afterText?_eq_none hafter]
  cases Text.integer? order <;> rfl

theorem ofText_means (h : Means order position) : ofText order = .ok position := by
  cases h with
  | first => rfl
  | last => rfl
  | before =>
    rw [ofText, if_neg (append_ne rfl), if_neg (append_ne rfl), Text.afterText?_eq_some_iff.2 rfl]
  | @after q =>
    have hother : Text.afterText? beforeWord (afterWord ++ q) = none := by
      rw [Text.afterText?, String.toList_append]
      rfl
    rw [ofText, if_neg (append_ne rfl), if_neg (append_ne rfl), hother]
    simp only [Text.afterText?_eq_some_iff.2 rfl]
  | nth hword hi => rw [ofText_of_not_isWorded hword, hi, Option.elim_some]

theorem exists_means_of_isWorded (h : IsWorded order) : ∃ position, Means order position := by
  rcases h with rfl | rfl | ⟨q, rfl⟩ | ⟨q, rfl⟩
  · exact ⟨_, .first⟩
  · exact ⟨_, .last⟩
  · exact ⟨_, .before⟩
  · exact ⟨_, .after⟩

theorem IsWorded.exists_not_isDigit (h : IsWorded order) :
    ∃ c ∈ order.toList, c.isDigit = false := by
  rcases h with rfl | rfl | ⟨q, rfl⟩ | ⟨q, rfl⟩
  · exact ⟨'f', by decide, rfl⟩
  · exact ⟨'l', by decide, rfl⟩
  · exact ⟨'b', String.toList_append ▸ List.mem_append_left _ (by decide), rfl⟩
  · exact ⟨'a', String.toList_append ▸ List.mem_append_left _ (by decide), rfl⟩

/-- A number that is written as an order means its position. -/
theorem means_toString {n : Nat} (h : (toString n).length ≤ Text.maxDigits) :
    Means (toString n) (nth n) := by
  refine .nth (fun hword => ?_) (Text.integer?_toString h)
  obtain ⟨c, hc, hdigit⟩ := hword.exists_not_isDigit
  rw [Nat.toString_eq_ofList_toDigits, String.toList_ofList] at hc
  rw [Nat.isDigit_of_mem_toDigits (by decide) (by decide) hc] at hdigit
  cases hdigit

/-- An order means a position, or nothing at all. -/
theorem exists_means_or (order : String) :
    (∃ position, Means order position) ∨ ¬IsWorded order ∧ Text.integer? order = none := by
  by_cases h : IsWorded order
  · exact .inl (exists_means_of_isWorded h)
  · cases hi : Text.integer? order with
    | none => exact .inr ⟨h, rfl⟩
    | some i => exact .inl ⟨_, .nth h hi⟩

end Position

end AccessControl
