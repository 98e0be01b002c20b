import AccessControl.Entry.Basic
import AccessControl.Proofs.Datum.Scalar
import AccessControl.Proofs.Decision.Reachable

/-!
# Loading entries

Entries about privileges of a registry can always be loaded. Seen from a leaf,
loading does what those entries of the principal say that cover it, one after the
other.

* `Registry.Admits`: the entries that a registry makes sense of;
* `DecisionMap.exists_ofEntries`: what they load into;
* `DecisionMap.ofEntries_congr`: only the entries of the principal matter.
-/

namespace AccessControl

namespace Entry

variable {a : Entry}

/-- Whether an entry says something of a leaf. -/
def covers (a : Entry) (leaf : String) : Bool := a.privileges.any (·.covers leaf)

/-- What an entry does with the leaves it covers. -/
def operation (a : Entry) : Operation := .set a.effect a.restrictions

/-- What entries make of the decision about a leaf, if all of them cover it. -/
def replay (entries : List Entry) (o : Option Decision) : Option Decision :=
  entries.foldl (fun o a => a.operation.act o) o

theorem isOf_text (p : String) (a : Entry) : a.isOf (.text p) = (a.principal == .text p) := by
  rw [isOf]
  rfl

end Entry

/-- The entries of a list are about privileges of the registry. -/
def Registry.Admits (r : Registry) (entries : List Entry) : Prop :=
  ∀ a ∈ entries, ∀ p ∈ a.privileges, p ∈ r.privileges

namespace DecisionMap

variable {r : Registry} {entries others : List Entry}

/-- Loading entries into a map goes leaf by leaf. -/
theorem exists_foldlM_perform (h : r.Admits entries) (m : DecisionMap) :
    ∃ n, entries.foldlM (fun m a => m.perform (.set a.effect a.restrictions) a.privileges) m =
        .ok n ∧ (m.Reachable r → n.Reachable r) ∧
      ∀ k, n.get? k = Entry.replay (entries.filter (·.covers k)) (m.get? k) := by
  induction entries generalizing m with
  | nil => exact ⟨m, rfl, id, fun k => rfl⟩
  | cons a entries ih =>
    have ha := h a List.mem_cons_self
    obtain ⟨ls, _, _, hperform⟩ := exists_perform m a.operation ha
    obtain ⟨n, hn, hreach, hget⟩ := ih (fun b hb => h b (List.mem_cons_of_mem _ hb))
      (m.performOnLeaves a.operation ls)
    refine ⟨n, ?_, fun hm => hreach (hm.perform _ ha hperform), fun k => ?_⟩
    · rw [List.foldlM_cons]
      change (m.perform a.operation a.privileges >>= _) = _
      rw [hperform]
      exact hn
    · -- The first entry acts on a leaf it covers, and is left out for any other.
      rw [hget, get?_perform ha hperform, List.filter_cons, Entry.covers]
      split <;> rfl

/-- Entries that a registry makes sense of can be loaded. -/
theorem exists_ofEntries (h : r.Admits entries) (principal : Principal) :
    ∃ n, ofEntries entries principal = .ok n ∧ n.Reachable r ∧
      ∀ k, n.get? k =
        Entry.replay ((entries.filter (·.isOf principal)).filter (·.covers k)) none := by
  obtain ⟨n, hn, hreach, hget⟩ :=
    exists_foldlM_perform (fun a ha => h a (List.mem_filter.1 ha).1) ∅
  exact ⟨n, hn, hreach .empty, hget⟩

/-- Loading looks at the entries of the principal only. -/
theorem ofEntries_congr {principal : Principal}
    (h : entries.filter (·.isOf principal) = others.filter (·.isOf principal)) :
    ofEntries entries principal = ofEntries others principal := by
  rw [ofEntries, ofEntries, h]

end DecisionMap

end AccessControl
