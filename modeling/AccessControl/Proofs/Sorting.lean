import Mathlib.Data.List.Forall2
import Mathlib.Data.List.Sort

/-!
# Sorting

A list is sorted in one way only as far as its order tells its members apart. So what
is sorted depends on the members of a list, and not on where they stood before. Members
at the same place of the order stay as they stood.

* `mergeSort_eq_insertionSort`: sorting puts one member after the other in its place;
* `mergeSort_eq_of_perm`: sorting does not depend on the order in a list;
* `forall₂_mergeSort`: lists that agree member by member still do when they are sorted.
-/

namespace AccessControl

variable {α : Type} {le : α → α → Bool}

/-- Of two members one does not come after the other. -/
theorem isLE_total {cmp : α → α → Ordering} [Std.OrientedCmp cmp] (a b : α) :
    ((cmp a b).isLE || (cmp b a).isLE) = true := by
  have hswap : cmp b a = (cmp a b).swap := Std.OrientedCmp.eq_swap
  rw [hswap]
  cases cmp a b <;> rfl

/-- Sorting is to put the members of a list in their places one after the other, the last
    one first. -/
theorem mergeSort_eq_insertionSort
    (htrans : ∀ a b c, le a b = true → le b c = true → le a c = true)
    (htotal : ∀ a b, (le a b || le b a) = true) (l : List α) :
    l.mergeSort le = l.insertionSort fun a b => le a b = true := by
  induction l with
  | nil => rw [List.mergeSort_nil, List.insertionSort_nil]
  | cons a l ih =>
    obtain ⟨l₁, l₂, hcons, hl, hlt⟩ := List.mergeSort_cons htrans htotal a l
    have hsorted := List.pairwise_mergeSort htrans htotal (a :: l)
    rw [hcons, List.pairwise_append, List.pairwise_cons] at hsorted
    -- The first member goes behind what it is not to come before.
    have hbefore : ∀ b ∈ l₁, (decide ¬ le a b = true) = true := fun b hb => by
      simpa using hlt b hb
    have hafter : l₂.takeWhile (fun b => decide ¬ le a b = true) = [] ∧
        l₂.dropWhile (fun b => decide ¬ le a b = true) = l₂ := by
      cases l₂ with
      | nil => exact ⟨rfl, rfl⟩
      | cons b l₂ =>
        have hab := hsorted.2.1.1 b List.mem_cons_self
        exact ⟨List.takeWhile_cons_of_neg (by simp [hab]),
          List.dropWhile_cons_of_neg (by simp [hab])⟩
    rw [List.insertionSort_cons, ← ih, hcons, hl, List.orderedInsert_eq_take_drop,
      List.takeWhile_append_of_pos hbefore, List.dropWhile_append_of_pos hbefore, hafter.1,
      hafter.2, List.append_nil]

/-- Lists with the same members are sorted alike, if the order tells these apart. -/
theorem mergeSort_eq_of_perm (htrans : ∀ a b c, le a b = true → le b c = true → le a c = true)
    (htotal : ∀ a b, (le a b || le b a) = true)
    (hantisymm : ∀ a b, le a b = true → le b a = true → a = b) {l l' : List α} (h : l.Perm l') :
    l.mergeSort le = l'.mergeSort le :=
  List.Perm.eq_of_pairwise (fun a b _ _ => hantisymm a b) (List.pairwise_mergeSort htrans htotal l)
    (List.pairwise_mergeSort htrans htotal l')
    (((List.mergeSort_perm l le).trans h).trans (List.mergeSort_perm l' le).symm)


/-- Lists that agree member by member are sorted alike, by orders that agree. -/
theorem forall₂_mergeSort {β : Type} {R : α → β → Prop} {le' : β → β → Bool}
    (hle : ∀ a a' b b', R a b → R a' b' → le a a' = le' b b') {as : List α} {bs : List β}
    (h : List.Forall₂ R as bs) : List.Forall₂ R (as.mergeSort le) (bs.mergeSort le') := by
  -- Both lists are read from the list of the pairs, which is sorted like either.
  have hzip : ∀ z ∈ as.zip bs, R z.1 z.2 := fun z hz => List.forall₂_zip h hz
  have hfst : as.mergeSort le = ((as.zip bs).mergeSort fun y z => le y.1 z.1).map Prod.fst := by
    rw [List.map_mergeSort (f := Prod.fst) (s := le) fun _ _ _ _ => rfl,
      List.map_fst_zip h.length_eq.le]
  have hsnd : bs.mergeSort le' = ((as.zip bs).mergeSort fun y z => le y.1 z.1).map Prod.snd := by
    rw [List.map_mergeSort (f := Prod.snd) (s := le')
      fun y hy z hz => hle _ _ _ _ (hzip y hy) (hzip z hz), List.map_snd_zip h.length_eq.ge]
  rw [hfst, hsnd, List.forall₂_map_left_iff, List.forall₂_map_right_iff, List.forall₂_same]
  exact fun z hz => hzip z (List.mem_mergeSort.1 hz)

end AccessControl
