import AccessControl.Proofs.Decision.Unambiguous
import AccessControl.Proofs.Modification.Deleting

/-!
# One restriction of a name, whatever is requested

A request adds one restriction at a time, however many its parameters give and however many of
them are of one name: the last one takes the place of those before. So if no stored entry
has two restrictions of one name, no entry does afterwards.

* `Parameter.AsksFor.unambiguous_added`: what a parameter adds;
* `Registry.Carries.unambiguous`: what a request has done with decisions;
* `Registry.unambiguous_throughout`: calls, stored entries and requests put together.
-/

namespace AccessControl

/-- No parameter asks for an operation that is given two restrictions of one name. -/
theorem Parameter.AsksFor.unambiguous_added {r : Registry} {p : Parameter} {ed : Edit}
    (h : p.AsksFor r ed) : ed.operation.added.Unambiguous := by
  rcases h.added with hnone | ⟨_, restriction, _, _, hone⟩
  · rw [hnone]
    exact RestrictionSet.unambiguous_empty
  · rw [hone]
    exact RestrictionSet.unambiguous_single restriction

namespace Registry

/-- A request leaves at most one restriction of each name. -/
theorem Carries.unambiguous {r : Registry} {parameters : List (String × Datum)}
    {m n : DecisionMap} {edits : List Edit} (h : r.Carries parameters m n edits)
    (hm : m.Unambiguous) : n.Unambiguous := by
  refine DecisionMap.unambiguous_of_onSides fun k => ?_
  rw [h.get?]
  refine Edit.replay_induction (P := fun o => ∀ d ∈ o, d.OnSides RestrictionSet.Unambiguous)
    (fun ed hed o ho => ?_) (hm.sides k)
  obtain ⟨p, _, hasks⟩ := h.asked ed (List.mem_filter.1 hed).1
  exact Operation.unambiguous_act hasks.unambiguous_added ho

/-! ## Main result -/

/-- Calls that are not given two restrictions of one name lead to decisions, and to entries,
    with at most one restriction of each name. Stored entries that have at most one are replayed
    by such calls, and remain so whatever a request holds. -/
theorem unambiguous_throughout (r : Registry) (provider : Provider) (acl : List Entry)
    (principal : Principal) (path : Option String) :
    (∀ m : DecisionMap, m.Arises → m.Unambiguous) ∧
      ((∀ a ∈ acl, a.isOf principal = true → a.restrictions.Unambiguous) →
        (∀ m, DecisionMap.ofEntries acl principal = .ok m → m.Arises) ∧
        ∀ (parameters : List (String × Datum)) (entries : List Entry),
          (r.modify provider acl principal path parameters).result = .ok entries →
          ∀ a ∈ entries, a.restrictions.Unambiguous) := by
  refine ⟨fun m hm => hm.unambiguous, fun hacl => ?_⟩
  have hloaded : ∀ m, DecisionMap.ofEntries acl principal = .ok m → m.Arises :=
    fun m hm => DecisionMap.arises_of_ofEntries hacl hm
  refine ⟨hloaded, fun parameters entries h => ?_⟩
  obtain ⟨m, n, edits, hm, hcarries, rfl⟩ := exists_of_modify h
  have hn : n.Unambiguous := hcarries.unambiguous (hloaded m hm).unambiguous
  exact (hn.consolidate r.depths r).entries r.depths principal

/-- A restriction is given twice for everything, and once more for each side of a privilege. -/
def insisting : List (String × Datum) :=
  [("privilege@doc:edit", .list [.text "allow"]),
    ("restriction@rep:glob", .list [.text "/a", .text "/b"]),
    ("restriction@rep:glob", .text "/c"),
    ("restriction@doc:view@rep:glob@Allow", .text "/d"),
    ("restriction@doc:view@rep:glob@Deny", .text "/e")]

/-- Each time it takes the place of what there is of its name. -/
theorem unambiguous_throughout_scattered :
    (∃ m, DecisionMap.ofEntries scatteredEntries (.text "guest") = .ok m ∧ m.Unambiguous) ∧
    ∃ entries, (diamond.modify .standard scatteredEntries (.text "guest") (some "/")
        insisting).result = .ok entries ∧ ∀ a ∈ entries, a.restrictions.Unambiguous := by
  obtain ⟨harises, hstored⟩ := unambiguous_throughout diamond .standard scatteredEntries
    (.text "guest") (some "/")
  obtain ⟨hloaded, hmodify⟩ := hstored (by decide +kernel)
  constructor
  · obtain ⟨m, hm⟩ := exists_of_isSome_toOption
      (x := DecisionMap.ofEntries scatteredEntries (.text "guest")) (by decide +kernel)
    exact ⟨m, hm, harises m (hloaded m hm)⟩
  · obtain ⟨entries, h⟩ := exists_of_isSome_toOption
      (x := (diamond.modify .standard scatteredEntries (.text "guest") (some "/")
        insisting).result) (by decide +kernel)
    exact ⟨entries, h, hmodify insisting entries h⟩

end Registry

end AccessControl
