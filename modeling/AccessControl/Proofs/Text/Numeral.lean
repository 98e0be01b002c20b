import AccessControl.Text.Numeral

/-!
# Reading numbers that were written

A number is written in the digits of one script only, with nothing between or around them,
and is read back if they are not too many (`integer?_toString`).
-/

namespace AccessControl.Text

variable {c : Char} {cs : List Char} {n : Nat}

/-- What holds of ten characters holds of each digit. -/
theorem forall_isDigit {P : Char → Prop} (h : ∀ d < 10, P (Char.ofNat (48 + d)))
    (hc : c.isDigit = true) : P c := by
  have hrange : 48 ≤ c.toNat ∧ c.toNat ≤ 57 := by simpa [Char.isDigit_iff_toNat] using hc
  have hdigit := h (c.toNat - 48) (by omega)
  rwa [Nat.add_sub_cancel' hrange.1, Char.ofNat_toNat] at hdigit

theorem digitValue?_of_isDigit (h : c.isDigit = true) : digitValue? c = some (c.toNat - 48) :=
  forall_isDigit (P := fun c => digitValue? c = some (c.toNat - 48)) (by decide) h

theorem isSpacing_of_isDigit (h : c.isDigit = true) : isSpacing c = false :=
  forall_isDigit (P := fun c => isSpacing c = false) (by decide) h

theorem dropWhile_isSpacing (h : ∀ c ∈ cs, c.isDigit = true) : cs.dropWhile isSpacing = cs := by
  cases cs with
  | nil => rfl
  | cons c cs =>
    rw [List.dropWhile_cons, isSpacing_of_isDigit (h c List.mem_cons_self)]
    rfl

/-- Digits without underscores are read one by one. -/
theorem digits?_of_isDigit (hne : cs ≠ []) (h : ∀ c ∈ cs, c.isDigit = true) :
    digits? cs = some (cs.map fun c => c.toNat - 48) := by
  fun_induction digits? cs with
  | case1 => exact absurd rfl hne
  | case2 c => rw [digitValue?_of_isDigit (h c List.mem_cons_self)]; rfl
  | case3 c cs ih =>
    have hunderscore := h '_' (List.mem_cons_of_mem _ List.mem_cons_self)
    cases hunderscore
  | case4 c cs hcs _ ih =>
    have hrest := ih hcs fun d hd => h d (List.mem_cons_of_mem _ hd)
    rw [digitValue?_of_isDigit (h c List.mem_cons_self), hrest]
    rfl

theorem signed?_of_isDigit (h : ∀ c ∈ cs, c.isDigit = true) :
    signed? cs = (unsigned? cs).map Int.ofNat := by
  fun_cases signed? cs with
  | case1 cs => cases h '+' List.mem_cons_self
  | case2 cs => cases h '-' List.mem_cons_self
  | case3 => rfl

theorem integer?_toString (h : (toString n).length ≤ maxDigits) :
    integer? (toString n) = some n := by
  have hdigits : ∀ c ∈ Nat.toDigits 10 n, c.isDigit = true := fun c hc =>
    Nat.isDigit_of_mem_toDigits (by decide) (by decide) hc
  rw [Nat.toString_eq_ofList_toDigits] at h ⊢
  have hshort : ((Nat.toDigits 10 n).map fun c => c.toNat - 48).length ≤ maxDigits := by
    rwa [List.length_map, ← String.length_ofList]
  have hvalue : ofDigits ((Nat.toDigits 10 n).map fun c => c.toNat - 48) = n := by
    rw [ofDigits, List.foldl_map]
    exact Nat.ofDigitChars_eq_foldl.symm.trans Nat.ofDigitChars_ten_toDigits
  rw [integer?, String.toList_ofList, dropWhile_isSpacing hdigits,
    dropWhile_isSpacing fun c hc => hdigits c (List.mem_reverse.1 hc), List.reverse_reverse,
    signed?_of_isDigit hdigits, unsigned?, digits?_of_isDigit Nat.toDigits_ne_nil hdigits,
    Option.bind_some, if_pos hshort, hvalue]
  rfl

end AccessControl.Text
