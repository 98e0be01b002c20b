import AccessControl.Text.Blank
import Mathlib.Data.List.DropRight

/-!
# Blanks around words

Trimming a text takes blanks away at both ends, and nothing between them. It makes no difference
to the words of the text, nor whether the blanks at one end are gone already.

* `trimRight_append_cons`: what is not blank stays, with all before it;
* `trim_trimRight`: the blanks at the end are taken away once;
* `words_trim`: the words are all there;
* `words_intercalate`: words with blanks between them.
-/

namespace AccessControl.Text

variable {c : Char} {cs : List Char}

/-! ## Trimming -/

theorem trimRight_eq_rdropWhile (cs : List Char) : trimRight cs = cs.rdropWhile isBlank := rfl

theorem trimRight_concat (hc : isBlank c = true) (cs : List Char) :
    trimRight (cs ++ [c]) = trimRight cs :=
  List.rdropWhile_concat_pos _ _ _ hc

/-- What is not blank stays, with all before it. -/
theorem trimRight_append_cons (hc : isBlank c = false) (as bs : List Char) :
    trimRight (as ++ c :: bs) = as ++ c :: trimRight bs := by
  have hkept : ¬ isBlank c = true := Bool.eq_false_iff.1 hc
  induction bs using List.reverseRecOn with
  | nil => exact List.rdropWhile_concat_neg _ _ _ hkept
  | append_singleton bs b ih =>
    have hsplit : as ++ c :: (bs ++ [b]) = as ++ c :: bs ++ [b] := by simp
    by_cases hb : isBlank b = true
    · rw [hsplit, trimRight_concat hb, trimRight_concat hb, ih]
    · rw [hsplit, trimRight_eq_rdropWhile, trimRight_eq_rdropWhile,
        List.rdropWhile_concat_neg _ _ _ hb, List.rdropWhile_concat_neg _ _ _ hb, hsplit]

theorem trim_cons (hc : isBlank c = true) (cs : List Char) : trim (c :: cs) = trim cs := by
  rw [trim, List.dropWhile_cons_of_pos hc, trim]

theorem trim_eq_trimRight (hc : isBlank c = false) (cs : List Char) :
    trim (c :: cs) = trimRight (c :: cs) := by
  rw [trim, List.dropWhile_cons_of_neg (Bool.eq_false_iff.1 hc)]

theorem trim_concat (hc : isBlank c = true) (cs : List Char) : trim (cs ++ [c]) = trim cs := by
  rw [trim, trim, List.dropWhile_append]
  split
  next hnil => rw [List.isEmpty_iff.1 hnil, List.dropWhile_cons_of_pos hc, List.dropWhile_nil]
  next => exact trimRight_concat hc _

/-- The blanks at the end are taken away once. -/
theorem trim_trimRight (cs : List Char) : trim (trimRight cs) = trim cs := by
  induction cs using List.reverseRecOn with
  | nil => rfl
  | append_singleton cs c ih =>
    cases hc : isBlank c with
    | true => rw [trimRight_concat hc, ih, trim_concat hc]
    | false => rw [trimRight_append_cons hc cs []]; rfl

theorem trimRight_trim (cs : List Char) : trimRight (trim cs) = trim cs :=
  List.rdropWhile_idempotent _ _

/-! A text without blanks is left as it is. -/

theorem trimRight_of_forall (h : ∀ c ∈ cs, isBlank c = false) : trimRight cs = cs :=
  List.rdropWhile_eq_self_iff.2 fun hne => Bool.eq_false_iff.1 (h _ (List.getLast_mem hne))

theorem trim_of_forall (h : ∀ c ∈ cs, isBlank c = false) : trim cs = cs := by
  cases cs with
  | nil => rfl
  | cons c cs => rw [trim_eq_trimRight (h c List.mem_cons_self), trimRight_of_forall h]

/-! ## Texts without other blanks than spaces -/

/-- The only blanks of a text are spaces. -/
def Spaced (s : String) : Prop := ∀ c ∈ s.toList, isBlank c = true → c = ' '

instance (s : String) : Decidable (Spaced s) :=
  decidable_of_iff (s.toList.all fun c => !isBlank c || c == ' ') (by
    simp [Spaced, ← Bool.not_eq_true, imp_iff_not_or])

theorem Spaced.append {s t : String} (hs : Spaced s) (ht : Spaced t) : Spaced (s ++ t) := by
  intro c hc
  rw [String.toList_append, List.mem_append] at hc
  rcases hc with hc | hc
  · exact hs c hc
  · exact ht c hc

/-- A character between or in texts that are put together. -/
theorem mem_intercalate {c : Char} {sep : String} {ws : List String}
    (h : c ∈ (String.intercalate sep ws).toList) : c ∈ sep.toList ∨ ∃ w ∈ ws, c ∈ w.toList := by
  induction ws with
  | nil => simp at h
  | cons w ws ih =>
    cases ws with
    | nil =>
      rw [String.intercalate_singleton] at h
      exact .inr ⟨w, List.mem_singleton_self w, h⟩
    | cons v vs =>
      rw [String.intercalate_cons_cons, String.toList_append, String.toList_append,
        List.mem_append, List.mem_append] at h
      rcases h with (h | h) | h
      · exact .inr ⟨w, List.mem_cons_self, h⟩
      · exact .inl h
      · exact (ih h).imp_right fun ⟨u, hu, hc⟩ => ⟨u, List.mem_cons_of_mem _ hu, hc⟩

theorem spaced_intercalate {sep : String} {ws : List String} (hsep : Spaced sep)
    (h : ∀ w ∈ ws, Spaced w) : Spaced (String.intercalate sep ws) := by
  intro c hc
  rcases mem_intercalate hc with hc | ⟨w, hw, hc⟩
  · exact hsep c hc
  · exact h w hw c hc

/-! ## Words -/

theorem words_cons (hc : isBlank c = true) (cs : List Char) : words (c :: cs) = words cs :=
  words_append_blank hc [] cs

theorem words_concat (hc : isBlank c = true) (cs : List Char) : words (cs ++ [c]) = words cs := by
  rw [words_append_blank hc]
  exact List.append_nil _

theorem words_trimRight (cs : List Char) : words (trimRight cs) = words cs := by
  induction cs using List.reverseRecOn with
  | nil => rfl
  | append_singleton cs c ih =>
    cases hc : isBlank c with
    | true => rw [trimRight_concat hc, ih, words_concat hc]
    | false => rw [trimRight_append_cons hc cs []]; rfl

/-- The words of a text are all there when it has been trimmed. -/
theorem words_trim (cs : List Char) : words (trim cs) = words cs := by
  rw [trim, words_trimRight]
  induction cs with
  | nil => rfl
  | cons c cs ih =>
    cases hc : isBlank c with
    | true => rw [List.dropWhile_cons_of_pos hc, ih, words_cons hc]
    | false => rw [List.dropWhile_cons_of_neg (Bool.eq_false_iff.1 hc)]

/-- A text that is a word: it is not empty, and none of its characters is blank. -/
structure IsWord (s : String) : Prop where
  /-- There is something. -/
  ne_empty : s ≠ ""
  /-- There is no blank in it. -/
  isBlank_eq : ∀ c ∈ s.toList, isBlank c = false

instance (s : String) : Decidable (IsWord s) :=
  decidable_of_iff (s ≠ "" ∧ s.toList.all fun c => !isBlank c)
    ⟨fun ⟨hne, hall⟩ => ⟨hne, by simpa using hall⟩, fun h => ⟨h.1, by simpa using h.2⟩⟩

namespace IsWord

variable {s : String}

theorem trimRight_eq (h : IsWord s) : trimRight s.toList = s.toList :=
  trimRight_of_forall h.isBlank_eq

theorem trim_eq (h : IsWord s) : trim s.toList = s.toList := trim_of_forall h.isBlank_eq

theorem spaced (h : IsWord s) : Spaced s :=
  fun c hc hblank => absurd hblank (Bool.eq_false_iff.1 (h.isBlank_eq c hc))

theorem toList_ne_nil (h : IsWord s) : s.toList ≠ [] :=
  fun hnil => h.ne_empty (String.toList_eq_nil_iff.1 hnil)

theorem words_eq (h : IsWord s) : words s.toList = [s.toList] :=
  words_eq_singleton h.toList_ne_nil h.isBlank_eq

end IsWord

/-- Words with blanks between them are read back. -/
theorem words_intercalate {ws : List String} (h : ∀ w ∈ ws, IsWord w) :
    (words (String.intercalate " " ws).toList).map String.ofList = ws := by
  induction ws with
  | nil => rfl
  | cons w ws ih =>
    have hw : (words w.toList).map String.ofList = [w] := by
      rw [(h w List.mem_cons_self).words_eq, List.map_singleton, String.ofList_toList]
    cases ws with
    | nil => rwa [String.intercalate_singleton]
    | cons v vs =>
      have hrest := ih fun u hu => h u (List.mem_cons_of_mem _ hu)
      have hblank : (w ++ " " ++ String.intercalate " " (v :: vs)).toList =
          w.toList ++ ' ' :: (String.intercalate " " (v :: vs)).toList := by simp
      rw [String.intercalate_cons_cons, hblank, words_append_blank (by decide), List.map_append,
        hw, hrest, List.singleton_append]

end AccessControl.Text
