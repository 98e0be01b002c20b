import Mathlib.Data.List.Forall2
import Mathlib.Data.List.Induction

/-!
# Lists of which only the first of what is the same counts

Of the members of a list that are the same, `List.eraseDupsBy` keeps the first one.
What counts as the same need not be equal. Of the members with one name, the first one is
found under this name (`List.lookup`); if no name is repeated, every member is.

* `exists_mem_eraseDupsBy`: of every member there is one that is the same;
* `pairwise_eraseDupsBy`: no two of those that are kept are the same;
* `find?_of_mem_eraseDupsBy`, `flatMap_eraseDupsBy_perm`: what is kept is the first one of its kind,
  and the members fall into these kinds;
* `forall₂_eraseDupsBy`: lists that agree keep members that agree;
* `eraseDupsBy_map`, `eraseDups_of_nodup`: lists that are renamed, or have no repetitions;
* `exists_eraseDups_append_cons`: lists of which one member is dropped;
* `eraseDups_append_congr`, `pairwise_idxOf_eraseDups`: what is kept is what is met first;
* `lookup_eq_some_of_mem`: members are found under their names.
-/

namespace AccessControl

variable {α : Type} {r : α → α → Bool} {l : List α} {a : α}

/-- Induction along the recursion of `eraseDupsBy`: what is the same as the head is
    dropped before the tail is looked at. -/
theorem eraseDupsBy_induction {P : List α → Prop} (nil : P [])
    (cons : ∀ a l, P (l.filter fun b => r b a = false) → P (a :: l)) (l : List α) : P l := by
  induction h : l.length using Nat.strongRecOn generalizing l with
  | ind n ih =>
    cases l with
    | nil => exact nil
    | cons a l =>
      refine cons a l (ih _ ?_ _ rfl)
      have := List.length_filter_le (fun b => decide (r b a = false)) l
      rw [List.length_cons] at h
      omega

theorem sublist_eraseDupsBy (l : List α) : (l.eraseDupsBy r).Sublist l := by
  induction l using eraseDupsBy_induction (r := r) with
  | nil => exact .slnil
  | cons a l ih =>
    rw [List.eraseDupsBy_cons]
    exact (ih.trans List.filter_sublist).cons_cons a

theorem mem_of_mem_eraseDupsBy (h : a ∈ l.eraseDupsBy r) : a ∈ l :=
  (sublist_eraseDupsBy l).subset h

theorem exists_mem_eraseDupsBy (hr : ∀ a, r a a = true) (h : a ∈ l) :
    ∃ b ∈ l.eraseDupsBy r, r a b = true := by
  induction l using eraseDupsBy_induction (r := r) with
  | nil => cases h
  | cons b l ih =>
    rw [List.eraseDupsBy_cons]
    by_cases hab : r a b = true
    · exact ⟨b, List.mem_cons_self, hab⟩
    · -- What differs from the head is in the tail, and is not dropped from it.
      have hal : a ∈ l := by
        rcases List.mem_cons.1 h with rfl | h
        · exact absurd (hr a) hab
        · exact h
      obtain ⟨c, hc, hac⟩ := ih (List.mem_filter.2 ⟨hal, by simpa using hab⟩)
      exact ⟨c, List.mem_cons_of_mem _ hc, hac⟩

theorem pairwise_eraseDupsBy (l : List α) :
    (l.eraseDupsBy r).Pairwise fun a b => r b a = false := by
  induction l using eraseDupsBy_induction (r := r) with
  | nil => exact .nil
  | cons b l ih =>
    rw [List.eraseDupsBy_cons, List.pairwise_cons]
    exact ⟨fun c hc => by simpa using (List.mem_filter.1 (mem_of_mem_eraseDupsBy hc)).2, ih⟩

/-- One member more is kept if it is not the same as one that is kept before it. -/
theorem eraseDupsBy_concat (l : List α) (b : α) : (l ++ [b]).eraseDupsBy r =
    if (l.eraseDupsBy r).any (r b) then l.eraseDupsBy r else l.eraseDupsBy r ++ [b] := by
  induction l using eraseDupsBy_induction (r := r) with
  | nil => rfl
  | cons a l ih =>
    rw [List.cons_append, List.eraseDupsBy_cons, List.eraseDupsBy_cons, List.filter_append,
      List.any_cons]
    cases hba : r b a with
    | true => simp [hba]
    | false =>
      have hkept : [b].filter (fun c => r c a = false) = [b] := by simp [hba]
      rw [hkept, ih, Bool.false_or]
      split
      · rfl
      · rw [List.cons_append]

section Equivalence

variable {b : α} (hr : Equivalence fun a b => r a b = true)
include hr

/-- Without what is the same as one thing, what is the same as another one is all there. -/
theorem filter_differing_filter_same (h : r b a = false) (l : List α) :
    (l.filter fun c => r c a = false).filter (r · b) = l.filter (r · b) := by
  rw [List.filter_filter]
  refine List.filter_congr fun c _ => ?_
  cases hcb : r c b with
  | false => rfl
  | true =>
    have hca : r c a = false := by
      rw [Bool.eq_false_iff] at h ⊢
      exact fun hca => h (hr.trans (hr.symm hcb) hca)
    rw [hca]
    rfl

/-- What is kept is the first one of its kind. -/
theorem find?_of_mem_eraseDupsBy (h : a ∈ l.eraseDupsBy r) : l.find? (r · a) = some a := by
  induction l using eraseDupsBy_induction (r := r) with
  | nil => cases h
  | cons b l ih =>
    rw [List.eraseDupsBy_cons] at h
    rcases List.mem_cons.1 h with rfl | h
    · exact List.find?_cons_of_pos (hr.refl a)
    · have hab : r a b = false := by simpa using (List.mem_filter.1 (mem_of_mem_eraseDupsBy h)).2
      have hba : ¬ r b a = true := fun hba => Bool.eq_false_iff.1 hab (hr.symm hba)
      rw [List.find?_cons_of_neg (p := (r · a)) hba, ← List.head?_filter,
        ← filter_differing_filter_same hr hab, List.head?_filter]
      exact ih h

/-- Of each kind there is only one that is kept. -/
theorem eq_of_mem_eraseDupsBy (ha : a ∈ l.eraseDupsBy r) (hb : b ∈ l.eraseDupsBy r)
    (hab : r a b = true) : a = b := by
  have hfound : (r · a) = (r · b) := by
    refine funext fun c => Bool.eq_iff_iff.2 ⟨fun h => hr.trans h hab, fun h => ?_⟩
    exact hr.trans h (hr.symm hab)
  have hfind := find?_of_mem_eraseDupsBy hr ha
  rw [hfound, find?_of_mem_eraseDupsBy hr hb] at hfind
  exact (Option.some.inj hfind).symm

/-- The members fall into those that are the same as one that is kept, for each of these. -/
theorem flatMap_eraseDupsBy_perm (l : List α) :
    ((l.eraseDupsBy r).flatMap fun a => l.filter (r · a)).Perm l := by
  induction l using eraseDupsBy_induction (r := r) with
  | nil => exact .nil
  | cons a l ih =>
    -- Of the other kinds the head and what is the same as the head have no member.
    have hrest : ∀ b ∈ (l.filter fun c => r c a = false).eraseDupsBy r,
        (a :: l).filter (r · b) = (l.filter fun c => r c a = false).filter (r · b) := by
      intro b hb
      have hba : r b a = false := by simpa using (List.mem_filter.1 (mem_of_mem_eraseDupsBy hb)).2
      have hab : ¬ r a b = true := fun hab => Bool.eq_false_iff.1 hba (hr.symm hab)
      rw [List.filter_cons_of_neg (p := (r · b)) hab, filter_differing_filter_same hr hba]
    have hsplit := List.filter_append_perm (r · a) l
    rw [List.eraseDupsBy_cons, List.flatMap_cons, List.flatMap_congr hrest,
      List.filter_cons_of_pos (p := (r · a)) (hr.refl a), List.cons_append]
    refine ((ih.append_left _).trans ?_).cons a
    simpa using hsplit

end Equivalence

/-- Lists that agree element by element keep the same elements. -/
theorem forall₂_eraseDupsBy {R : α → α → Prop} {l l' : List α}
    (hr : ∀ a a' b b', R a a' → R b b' → r a b = r a' b') (h : List.Forall₂ R l l') :
    List.Forall₂ R (l.eraseDupsBy r) (l'.eraseDupsBy r) := by
  induction l using eraseDupsBy_induction (r := r) generalizing l' with
  | nil =>
    cases h
    exact .nil
  | cons a l ih =>
    cases h with
    | cons ha hl =>
      rw [List.eraseDupsBy_cons, List.eraseDupsBy_cons]
      refine .cons ha (ih (List.rel_filter (fun b b' hb => ?_) hl))
      dsimp only
      rw [hr b b' a _ hb ha]

/-- What is told apart alike before and after a renaming is kept alike. -/
theorem eraseDupsBy_map {β : Type} {s : β → β → Bool} {f : α → β}
    (h : ∀ a b, s (f a) (f b) = r a b) (l : List α) :
    (l.map f).eraseDupsBy s = (l.eraseDupsBy r).map f := by
  induction l using eraseDupsBy_induction (r := r) with
  | nil => rfl
  | cons a l ih =>
    rw [List.map_cons, List.eraseDupsBy_cons, List.eraseDupsBy_cons, List.map_cons, ← ih,
      List.filter_map]
    simp only [Function.comp_def, h]

/-- Where a member comes first, it is kept, and the rest is kept as without it. -/
theorem exists_eraseDups_append_cons [BEq α] [LawfulBEq α] {k : α} {front : List α}
    (hk : k ∉ front) (back : List α) :
    ∃ rest, (front ++ k :: back).eraseDups = front.eraseDups ++ k :: rest ∧
      (front ++ back.filter (· != k)).eraseDups = front.eraseDups ++ rest := by
  have hkept : (!front.elem k) = true := by simpa using hk
  refine ⟨((back.filter (· != k)).removeAll front).eraseDups, ?_, List.eraseDups_append⟩
  rw [List.eraseDups_append, List.removeAll, List.filter_cons, if_pos hkept, List.eraseDups_cons,
    List.filter_comm]
  rfl

section FirstMet

variable [BEq α] [LawfulBEq α]

theorem eraseDups_concat (l : List α) (b : α) :
    (l ++ [b]).eraseDups = if b ∈ l then l.eraseDups else l.eraseDups ++ [b] := by
  have hany : l.eraseDups.any (b == ·) = true ↔ b ∈ l := by
    rw [List.any_beq, List.contains_iff_mem, List.mem_eraseDups]
  exact (eraseDupsBy_concat l b).trans (if_congr hany rfl rfl)

/-- It makes no difference whether some members are dropped before or after. -/
theorem eraseDups_filter (f : α → Bool) (l : List α) :
    (l.filter f).eraseDups = l.eraseDups.filter f := by
  induction l using List.reverseRecOn with
  | nil => rfl
  | append_singleton l b ih =>
    rw [List.filter_append, eraseDups_concat, List.filter_singleton]
    cases hb : f b with
    | false =>
      rw [cond_false, List.append_nil, ih]
      split <;> simp [hb]
    | true =>
      rw [cond_true, eraseDups_concat, ih]
      by_cases hmem : b ∈ l <;> simp [hmem, hb]

/-- What is kept of two lists depends on what is kept of each. -/
theorem eraseDups_append_congr {l l' m m' : List α} (hl : l.eraseDups = l'.eraseDups)
    (hm : m.eraseDups = m'.eraseDups) : (l ++ m).eraseDups = (l' ++ m').eraseDups := by
  have hmem (a : α) : a ∈ l ↔ a ∈ l' := by rw [← List.mem_eraseDups, hl, List.mem_eraseDups]
  have hnew : (fun a => !l.elem a) = fun a => !l'.elem a :=
    funext fun a => congrArg Bool.not (Bool.eq_iff_iff.2 (by simpa using hmem a))
  rw [List.eraseDups_append, List.eraseDups_append, List.removeAll, List.removeAll, hl, hnew,
    eraseDups_filter, eraseDups_filter, hm]

/-- What is kept is in the order in which it is met first. -/
theorem pairwise_idxOf_eraseDups (l : List α) :
    l.eraseDups.Pairwise fun a b => l.idxOf a < l.idxOf b := by
  induction l using List.reverseRecOn with
  | nil => exact .nil
  | append_singleton l b ih =>
    have hold : l.eraseDups.Pairwise fun a c => (l ++ [b]).idxOf a < (l ++ [b]).idxOf c := by
      refine ih.imp_of_mem fun {a c} ha hc hlt => ?_
      rwa [List.idxOf_append_of_mem (List.mem_eraseDups.1 ha),
        List.idxOf_append_of_mem (List.mem_eraseDups.1 hc)]
    rw [eraseDups_concat]
    split
    next => exact hold
    next hb =>
      refine List.pairwise_append.2 ⟨hold, List.pairwise_singleton _ _, fun a ha c hc => ?_⟩
      obtain rfl := List.mem_singleton.1 hc
      have ha := List.mem_eraseDups.1 ha
      rw [List.idxOf_append_of_mem ha, List.idxOf_append_of_notMem hb]
      exact Nat.lt_add_right _ (List.idxOf_lt_length_of_mem ha)

end FirstMet

/-- A list without repetitions is kept as it is. -/
theorem eraseDups_of_nodup [BEq α] [LawfulBEq α] (h : l.Nodup) : l.eraseDups = l := by
  induction l with
  | nil => rfl
  | cons a l ih =>
    rw [List.nodup_cons] at h
    have hkept : (l.filter fun b => !b == a) = l := by
      refine List.filter_eq_self.2 fun b hb => bne_iff_ne.2 ?_
      rintro rfl
      exact h.1 hb
    rw [List.eraseDups_cons, hkept, ih h.2]

theorem lookup_eq_some_of_mem {l : List (String × α)} (h : (l.map Prod.fst).Nodup) {k : String}
    {a : α} (hm : (k, a) ∈ l) : l.lookup k = some a := by
  obtain ⟨l₁, l₂, rfl⟩ := List.append_of_mem hm
  rw [List.map_append, List.nodup_append] at h
  refine List.lookup_eq_some_iff.2 ⟨l₁, l₂, rfl, fun d hd => ?_⟩
  have hne := h.2.2 d.1 (List.mem_map_of_mem hd) k List.mem_cons_self
  simpa using Ne.symm hne

end AccessControl
