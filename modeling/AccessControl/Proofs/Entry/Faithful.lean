import AccessControl.Proofs.Entry.RoundTrip

/-!
# Decisions can be told from their entries

Different decisions about leaves are written as different entries, although they are
folded first: what is in force for a leaf can be told from the one entry of an effect that
covers it. So two ways to decide may be compared by the entries they lead to.

* `Entry.tells`: what an entry is about, told from the names in it;
* `DecisionMap.filter_tells`: the entries about a leaf, among all that are written;
* `DecisionMap.same_of_entries`: the same entries stand for the same decisions.
-/

namespace AccessControl

namespace Entry

variable {a b : Entry}

theorem same_iff : a.same b = true ↔
    (a.principal == b.principal) = true ∧ a.effect = b.effect ∧
    a.privileges.map Privilege.id = b.privileges.map Privilege.id ∧
    a.restrictions.same b.restrictions = true := by
  simp [same, and_assoc]

theorem same_refl (a : Entry) : a.same a = true := by simp [same]

/-- Whether an entry has an effect on a leaf, told from the names in it. -/
def tells (r : Registry) (e : Effect) (leaf : String) (a : Entry) : Bool :=
  a.effect == e && (a.privileges.map Privilege.id).any fun p => r.covers p leaf

theorem tells_congr (r : Registry) (e : Effect) (leaf : String) (h : a.same b = true) :
    a.tells r e leaf = b.tells r e leaf := by
  obtain ⟨_, heffect, hids, _⟩ := same_iff.1 h
  simp only [tells, heffect, hids]

/-- Entries for what is in force are for the same if they are the same. -/
theorem alike_of_says {e : Effect} {as bs : List Entry} {t u : Option RestrictionSet}
    (ht : List.Forall₂ (Says e) as t.toList) (hu : List.Forall₂ (Says e) bs u.toList)
    (h : List.Forall₂ (fun a b : Entry => a.same b = true) as bs) : RestrictionSet.Alike t u := by
  have hlength := (ht.length_eq.symm.trans h.length_eq).trans hu.length_eq
  rcases t with _ | rs <;> rcases u with _ | ss
  · exact .none
  · simp at hlength
  · simp at hlength
  · obtain _ | ⟨⟨_, hrs⟩, _ | _⟩ := ht
    obtain _ | ⟨⟨_, hss⟩, _ | _⟩ := hu
    obtain _ | ⟨hab, _⟩ := h
    exact .some (RestrictionSet.same_trans (RestrictionSet.same_symm hrs)
      (RestrictionSet.same_trans (same_iff.1 hab).2.2.2 hss))

end Entry

namespace DecisionMap

variable {r : Registry} {m n f : DecisionMap} {d : DepthIndex} {principal : Principal}

/-- The entries that have an effect on a leaf are those of the effect that cover it. -/
theorem filter_tells (hf : ∀ p ∈ f.privileges, p ∈ r.privileges) (d : DepthIndex)
    (principal : Principal) (e : Effect) (k : String) :
    (f.entries d principal).filter (·.tells r e k) =
      (f.entriesFor d principal e).filter (·.covers k) := by
  have hown : (f.entriesFor d principal e).filter (·.tells r e k) =
      (f.entriesFor d principal e).filter (·.covers k) := by
    refine List.filter_congr fun a ha => ?_
    have hcovers : ∀ p ∈ a.privileges, r.covers p.id k = p.covers k := by
      intro p hp
      obtain ⟨b, hb, rfl, _⟩ := (mem_privileges_entry_iff ha).1 hp
      exact Registry.covers_eq (hf _ (List.mem_map_of_mem hb)) k
    rw [Entry.tells, Entry.covers, effect_of_mem_entriesFor ha, List.any_map, Bool.eq_iff_iff]
    simpa using exists_congr fun p => and_congr_right fun hp => by rw [hcovers p hp]
  have hother (e' : Effect) (he : e' ≠ e) :
      (f.entriesFor d principal e').filter (·.tells r e k) = [] := by
    refine List.filter_eq_nil_iff.2 fun a ha => ?_
    simp [Entry.tells, effect_of_mem_entriesFor ha, he]
  rw [entries, List.filter_append]
  cases e with
  | allow => rw [hother .deny (by decide), hown, List.nil_append]
  | deny => rw [hother .allow (by decide), hown, List.append_nil]

/-- What is in force for a leaf can be told from the entries that have an effect on it. -/
theorem forall₂_tells (hm : m.IsLeafMap r) (d : DepthIndex) (principal : Principal) (e : Effect)
    (k : String) : List.Forall₂ (Entry.Says e)
      (((m.consolidate d r).entries d principal).filter (·.tells r e k))
      (m.inForce? e k).toList := by
  have hf := mem_privileges_consolidate (r := r) d fun q hq => (hm.atomic q hq).1
  rw [filter_tells hf]
  exact forall₂_covers_entriesFor (represents_consolidate d hm.atomic) hf d principal e k

/-- Decisions about leaves that are written as the same entries are the same. -/
theorem same_of_entries (hm : m.IsLeafMap r) (hn : n.IsLeafMap r)
    (h : List.Forall₂ (fun a b : Entry => a.same b = true)
      ((m.consolidate d r).entries d principal) ((n.consolidate d r).entries d principal)) :
    m.same n = true := by
  refine same_of_inForce? hm.sound hn.sound fun e k => ?_
  have hm := forall₂_tells hm d principal e k
  have hn := forall₂_tells hn d principal e k
  refine Entry.alike_of_says hm hn (List.rel_filter (fun a b hab => ?_) h)
  dsimp only
  rw [Entry.tells_congr r e k hab]

end DecisionMap

end AccessControl
