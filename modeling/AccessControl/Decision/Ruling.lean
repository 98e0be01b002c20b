import AccessControl.Decision.Basic
import AccessControl.Privilege.Basic

/-!
# Rulings

A ruling is a decision together with the privilege it is about. Rulings are
entered one after the other, at most one for each name; the place of a ruling
does not change when its decision does.

* `Ruling.decision?`: what a list of rulings says of a name;
* `Ruling.decision?_alter`: a change of one name is a change of what is said of
  it, and of nothing else.
-/

namespace AccessControl

/-- A decision together with the privilege it is about. -/
structure Ruling where
  /-- The privilege. -/
  privilege : Privilege
  /-- The decision about it. -/
  decision : Decision

namespace Ruling

/-- The name of the privilege of a ruling. -/
def id (r : Ruling) : String := r.privilege.id

/-- The names of the privileges of rulings. -/
def ids (rs : List Ruling) : List String := rs.map id

@[simp] theorem ids_nil : ids [] = [] := rfl

@[simp] theorem ids_cons (r : Ruling) (rs : List Ruling) : ids (r :: rs) = r.id :: ids rs := rfl

/-- What a list of rulings says of a name, if anything. -/
def decision? (k : String) : List Ruling → Option Decision
  | [] => none
  | r :: rs => if r.id = k then some r.decision else decision? k rs

theorem decision?_eq_none {k : String} {rs : List Ruling} (h : k ∉ ids rs) :
    decision? k rs = none := by
  induction rs with
  | nil => rfl
  | cons r rs ih =>
    rw [ids_cons, List.mem_cons, not_or] at h
    rw [decision?, if_neg (Ne.symm h.1), ih h.2]

/-- The ruling about a privilege that is left, if any. -/
def remaining (p : Privilege) (d : Option Decision) : List Ruling := (d.map fun d => ⟨p, d⟩).toList

theorem decision?_remaining (p : Privilege) (d : Option Decision) (k : String) :
    decision? k (remaining p d) = if p.id = k then d else none := by
  cases d with
  | none => simp [remaining, decision?]
  | some d => rfl

/-- Changes what is said of the name of a privilege. A ruling of that name stays
    in its place and about the privilege it is about, or is dropped; a new one comes
    last. -/
def alter (p : Privilege) (f : Option Decision → Option Decision) : List Ruling → List Ruling
  | [] => remaining p (f none)
  | r :: rs =>
    if r.id = p.id then remaining r.privilege (f (some r.decision)) ++ rs else r :: alter p f rs

theorem mem_ids_alter {p : Privilege} {f : Option Decision → Option Decision} {rs : List Ruling}
    {k : String} (h : k ∈ ids (alter p f rs)) : k = p.id ∨ k ∈ ids rs := by
  induction rs with
  | nil => cases hf : f none <;> simp_all [alter, remaining, id]
  | cons r rs ih =>
    rw [alter] at h
    split at h
    · cases hf : f (some r.decision) <;> simp_all [remaining, id]
    · rw [ids_cons, List.mem_cons] at h ⊢
      grind

theorem nodup_ids_alter (p : Privilege) (f : Option Decision → Option Decision)
    {rs : List Ruling} (h : (ids rs).Nodup) : (ids (alter p f rs)).Nodup := by
  induction rs with
  | nil => cases hf : f none <;> simp [alter, remaining, hf]
  | cons r rs ih =>
    rw [ids_cons, List.nodup_cons] at h
    rw [alter]
    split
    · cases hf : f (some r.decision) <;> simp_all [remaining, id]
    next hr =>
      rw [ids_cons, List.nodup_cons]
      exact ⟨fun hm => (mem_ids_alter hm).elim hr h.1, ih h.2⟩

theorem decision?_alter (p : Privilege) (f : Option Decision → Option Decision)
    {rs : List Ruling} (h : (ids rs).Nodup) (k : String) :
    decision? k (alter p f rs) = if p.id = k then f (decision? k rs) else decision? k rs := by
  induction rs with
  | nil => exact decision?_remaining p (f none) k
  | cons r rs ih =>
    rw [ids_cons, List.nodup_cons] at h
    rw [alter]
    split
    next hr =>
      have := decision?_eq_none h.1
      cases hf : f (some r.decision) <;> grind [remaining, decision?, id]
    next hr => grind [decision?]

/-- Changes every decision. -/
def mapDecisions (f : Decision → Decision) (rs : List Ruling) : List Ruling :=
  rs.map fun r => { r with decision := f r.decision }

theorem ids_mapDecisions (f : Decision → Decision) (rs : List Ruling) :
    ids (mapDecisions f rs) = ids rs := by
  simp [ids, mapDecisions, Function.comp_def, id]

/-- The description of a ruling. -/
def describe (r : Ruling) : String :=
  "<LocalPrivilege " ++ r.id ++ " allow=" ++ r.decision.allow.describe ++
    " deny=" ++ r.decision.deny.describe ++ ">"

end Ruling

end AccessControl
