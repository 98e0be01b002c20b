/-!
# Parts of a text

Taking a text apart at a given beginning or end.

* `after?_eq_some_iff`, `upTo?_eq_some_iff`, `afterText?_eq_some_iff`: what is left
  of a text is what has to be put back to get the text.
-/

namespace AccessControl.Text

/-- What follows `lead` in a text that starts with it. -/
def after? : (lead : List Char) → List Char → Option (List Char)
  | [], cs => some cs
  | _ :: _, [] => none
  | a :: as, c :: cs => if a = c then after? as cs else none

/-- What stands before `trail` in a text that ends with it. -/
def upTo? (trail cs : List Char) : Option (List Char) :=
  (after? trail.reverse cs.reverse).map List.reverse

theorem after?_eq_some_iff {lead cs rest : List Char} :
    after? lead cs = some rest ↔ cs = lead ++ rest := by
  fun_induction after? lead cs with
  | case1 cs => simp
  | case2 a as => simp
  | case3 a as cs ih => simp [ih]
  | case4 a as c cs h => simp [Ne.symm h]

theorem upTo?_eq_some_iff {trail cs rest : List Char} :
    upTo? trail cs = some rest ↔ cs = rest ++ trail := by
  -- Read from its end, the text starts with the reversed end.
  rw [upTo?, Option.map_eq_some_iff]
  constructor
  · rintro ⟨r, hr, rfl⟩
    rw [← List.reverse_reverse cs, after?_eq_some_iff.1 hr, List.reverse_append,
      List.reverse_reverse]
  · rintro rfl
    exact ⟨rest.reverse, after?_eq_some_iff.2 List.reverse_append, List.reverse_reverse _⟩

/-- What follows `lead` in a text that starts with it. -/
def afterText? (lead text : String) : Option String :=
  (after? lead.toList text.toList).map String.ofList

theorem afterText?_eq_some_iff {lead text rest : String} :
    afterText? lead text = some rest ↔ text = lead ++ rest := by
  rw [afterText?, Option.map_eq_some_iff]
  constructor
  · rintro ⟨cs, hcs, rfl⟩
    rw [String.ext_iff, String.toList_append, String.toList_ofList, after?_eq_some_iff.1 hcs]
  · rintro rfl
    exact ⟨rest.toList, after?_eq_some_iff.2 String.toList_append, String.ofList_toList⟩

end AccessControl.Text
