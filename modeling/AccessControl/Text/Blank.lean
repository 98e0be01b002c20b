/-!
# Blank characters

Which characters count as blank, and the two things the library does with them:
a text is *trimmed* of the blanks around it, and *split* into the words between
them.

* `words_append_blank`: the words of a text are those before and those after any
  of its blanks;
* `words_eq_singleton`: a text without blanks is its own only word.
-/

namespace AccessControl.Text

/-- A character is blank when it separates words: the white space of the
    Unicode standard, together with the four information separators. The
    zero-width characters and the byte order mark are not blank. -/
def isBlank (c : Char) : Bool :=
  let n := c.toNat
  (0x09 ≤ n && n ≤ 0x0D) || (0x1C ≤ n && n ≤ 0x20) || n == 0x85 || n == 0xA0 || n == 0x1680 ||
    (0x2000 ≤ n && n ≤ 0x200A) || n == 0x2028 || n == 0x2029 || n == 0x202F || n == 0x205F ||
    n == 0x3000

/-- A text without the blanks at its end. -/
def trimRight (cs : List Char) : List Char := (cs.reverse.dropWhile isBlank).reverse

/-- A text without the blanks around it. -/
def trim (cs : List Char) : List Char := trimRight (cs.dropWhile isBlank)

/-- The words of a text: what stands between its blanks, in order. -/
def words (cs : List Char) : List (List Char) :=
  (cs.splitOnP isBlank).filter fun w => !w.isEmpty

/-- The words of a text are those before and those after any of its blanks. -/
theorem words_append_blank {c : Char} (hc : isBlank c = true) (as bs : List Char) :
    words (as ++ c :: bs) = words as ++ words bs := by
  rw [words, List.splitOnP_append_cons as bs hc, List.filter_append, words, words]

/-- A text without blanks is its own only word. -/
theorem words_eq_singleton {cs : List Char} (hne : cs ≠ []) (h : ∀ c ∈ cs, isBlank c = false) :
    words cs = [cs] := by
  rw [words, List.splitOnP_eq_singleton h]
  simp [hne]

end AccessControl.Text
