import AccessControl.Datum.Scalar

/-!
# Which single values are the same

A text is the same as itself only, although a truth value is the same as a number. Values
that are the same have equal marks.
-/

namespace AccessControl.Scalar

/-- What single values are told apart by. -/
def mark (s : Scalar) : Nat × Int × String := (s.rank, s.amount, s.textPart)

theorem beq_iff {a b : Scalar} :
    (a == b) = true ↔ a.rank = b.rank ∧ a.amount = b.amount ∧ a.textPart = b.textPart := by
  rw [← Std.compare_eq_iff_beq]
  change order a b = .eq ↔ _
  rw [order, compareLex_eq_eq, compareLex_eq_eq, compareOn, compareOn, compareOn,
    Std.LawfulEqOrd.compare_eq_iff_eq, Std.LawfulEqOrd.compare_eq_iff_eq,
    Std.LawfulEqOrd.compare_eq_iff_eq]

theorem beq_iff_mark_eq {a b : Scalar} : (a == b) = true ↔ a.mark = b.mark := by
  rw [beq_iff, mark, mark, Prod.mk.injEq, Prod.mk.injEq]

theorem beq_mark (a b : Scalar) : (a.mark == b.mark) = (a == b) := by
  rw [Bool.eq_iff_iff, beq_iff_eq, beq_iff_mark_eq]

theorem beq_text_iff {s t : String} : (text s == text t) = true ↔ s = t := by
  rw [beq_iff]
  exact ⟨fun h => h.2.2, fun h => ⟨rfl, rfl, h⟩⟩

theorem eq_text_of_beq {s : String} {a : Scalar} (h : (text s == a) = true) : a = text s := by
  obtain ⟨hrank, -, htext⟩ := beq_iff.1 h
  cases a with
  | text t => exact congrArg text htext.symm
  | _ => cases hrank

end AccessControl.Scalar
