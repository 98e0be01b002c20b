import AccessControl.Modification.Apply
import AccessControl.Proofs.Decision.Idempotence
import AccessControl.Proofs.Entry.Load
import AccessControl.Proofs.Success

/-!
# Modifications leaf by leaf

What a modification makes of the decision about a leaf can be told without looking at any
other leaf: the edits of a plan that cover the leaf act on it, in their order, and so do the
values that an amendment has for privileges that cover it.

* `DecisionMap.onAtoms_of_ofEntries`: what stored entries load into;
* `OnAtoms.exists_carryOut`: a plan whose names are all known, seen from a leaf;
* `Amendment.exists_decide`: what an amendment does with privileges, seen from a leaf;
* `Amendment.replay_inOrder`: which of its values count;
* `DecisionMap.same_eq_not_hasLeaf`: two changes of the leaves of a privilege are compared by
  what they do to each of the decisions.
-/

namespace AccessControl

variable {r : Registry} {m n : DecisionMap}

namespace DecisionMap

/-- Entries that can be loaded lead to sound decisions about atomic privileges, whatever
    privileges they name. -/
theorem onAtoms_of_ofEntries {acl : List Entry} {principal : Principal}
    (h : ofEntries acl principal = .ok m) : m.OnAtoms :=
  foldlM_induction (P := OnAtoms) (fun _ _ _ _ hm hn => hm.perform hn) onAtoms_empty h

end DecisionMap

/-! ## Edits -/

namespace Edit

/-- An edit is about a privilege of a registry, or takes no decision where there is none. -/
def Within (r : Registry) (ed : Edit) : Prop :=
  match ed.target with
  | some p => p ∈ r.privileges
  | none => ed.operation.IsIdle

/-- Whether an edit is about a leaf. An edit of everything that is decided is about any. -/
def covers (ed : Edit) (leaf : String) : Bool := ed.target.all (·.covers leaf)

/-- What edits make of the decision about a leaf that they all cover. -/
def replay (edits : List Edit) (o : Option Decision) : Option Decision :=
  edits.foldl (fun o ed => ed.operation.act o) o

end Edit

namespace DecisionMap

theorem OnAtoms.exists_edit (hm : m.OnAtoms) {ed : Edit} (hed : ed.Within r) :
    ∃ n, m.edit ed = .ok n ∧
      ∀ k, n.get? k = if ed.covers k then ed.operation.act (m.get? k) else m.get? k := by
  obtain ⟨op, target⟩ := ed
  cases target with
  | none =>
    obtain ⟨n, hn, hget⟩ := hm.exists_perform_privileges hed
    exact ⟨n, hn, by simpa [Edit.covers] using hget⟩
  | some p =>
    have hp : ∀ q ∈ [p], q ∈ r.privileges := List.forall_mem_singleton.2 hed
    obtain ⟨ls, _, _, hperform⟩ := exists_perform m op hp
    refine ⟨_, hperform, fun k => ?_⟩
    rw [get?_perform hp hperform, List.any_cons, List.any_nil, Bool.or_false]
    rfl

/-- Edits that can be made are all made, and the decision about a leaf is what those of them
    make of it that cover the leaf. -/
theorem OnAtoms.exists_carryOut (hm : m.OnAtoms) {edits : List Edit}
    (h : ∀ ed ∈ edits, ed.Within r) :
    ∃ n, m.carryOut (edits.map .ok) = (n, none) ∧
      ∀ k, n.get? k = Edit.replay (edits.filter (·.covers k)) (m.get? k) := by
  induction edits generalizing m with
  | nil => exact ⟨m, rfl, fun k => rfl⟩
  | cons ed edits ih =>
    obtain ⟨mid, hmid, hget⟩ := hm.exists_edit (h ed List.mem_cons_self)
    obtain ⟨n, hn, hget'⟩ := ih (hm.perform hmid) fun ed' hed' =>
      h ed' (List.mem_cons_of_mem _ hed')
    refine ⟨n, ?_, fun k => ?_⟩
    · rw [List.map_cons, carryOut, hmid]
      exact hn
    · -- The first edit acts on a leaf it covers, and is left out for any other.
      rw [hget', hget, List.filter_cons]
      split <;> rfl

end DecisionMap

/-! ## Amendments -/

namespace Amendment

/-- The values that are requested for privileges that cover a leaf, in the order in which
    they are applied. -/
def hits (requested : List (Privilege × PrivilegeValue)) (leaf : String) : List PrivilegeValue :=
  PrivilegeValue.inOrder.filter fun v => requested.any fun q => q.2 == v && q.1.covers leaf

/-- What values make of the decision about a leaf. -/
def replay (rs : RestrictionSet) (vs : List PrivilegeValue) (o : Option Decision) :
    Option Decision :=
  vs.foldl (fun o v => (v.operation rs).act o) o

theorem replay_congr (rs : RestrictionSet) (vs : List PrivilegeValue) {o o' : Option Decision}
    (h : Decision.Alike o o') : Decision.Alike (replay rs vs o) (replay rs vs o') :=
  List.foldl_rel h fun v _ _ _ h => Operation.act_congr h (v.operation rs)

theorem replay_append (rs : RestrictionSet) (vs ws : List PrivilegeValue) (o : Option Decision) :
    replay rs (vs ++ ws) o = replay rs ws (replay rs vs o) := List.foldl_append

/-- Values that mean the same do what one of them does, if there are any. -/
theorem replay_filter (rs : RestrictionSet) (op : Operation) (vs : List PrivilegeValue)
    (h : ∀ v ∈ vs, v.operation rs = op) (p : PrivilegeValue → Bool) (o : Option Decision) :
    Decision.Alike (replay rs (vs.filter p) o) (op.actIf (vs.any p) o) := by
  induction vs generalizing o with
  | nil => exact .refl o
  | cons v vs ih =>
    obtain ⟨hv, hrest⟩ := List.forall_mem_cons.1 h
    rw [List.filter_cons, List.any_cons]
    cases p v with
    | false => exact ih hrest o
    | true =>
      rw [if_pos rfl, replay, List.foldl_cons, hv]
      exact (ih hrest (op.act o)).trans (op.actIf_act _ o)

/-- Such values come after others. -/
theorem replay_append_filter {rs : RestrictionSet} (op : Operation) {vs : List PrivilegeValue}
    (ws : List PrivilegeValue) (h : ∀ v ∈ ws, v.operation rs = op) {p : PrivilegeValue → Bool}
    {o o' : Option Decision}
    (ho : Decision.Alike (replay rs (vs.filter p) o) o') :
    Decision.Alike (replay rs ((vs ++ ws).filter p) o) (op.actIf (ws.any p) o') := by
  rw [List.filter_append, replay_append]
  exact (replay_filter rs op ws h p _).trans (Operation.actIf_congr ho op _)

/-- Values in their order deny in the end if one of them does, and allow if none of them denies
    or takes back what has been decided. -/
theorem replay_inOrder (rs : RestrictionSet) (p : PrivilegeValue → Bool) (o : Option Decision) :
    Decision.Alike (replay rs (PrivilegeValue.inOrder.filter p) o)
      ((Operation.set .deny rs).actIf (p .denied || p .deny) (Operation.drop.actIf (p .none)
        ((Operation.set .allow rs).actIf (p .allow || p .granted) o))) := by
  have hallow := replay_filter rs (.set .allow rs) [.allow, .granted]
    (by simp [PrivilegeValue.operation]) p o
  have hdrop := replay_append_filter .drop [.none]
    (by simp [PrivilegeValue.operation]) hallow
  have hdeny := replay_append_filter (.set .deny rs) [.denied, .deny]
    (by simp [PrivilegeValue.operation]) hdrop
  simp only [List.any_cons, List.any_nil, Bool.or_false] at hdeny
  exact hdeny

/-- What is requested of privileges of a registry is done, and the decision about a leaf is
    what the values for privileges make of it that cover the leaf. -/
theorem exists_decide {requested : List (Privilege × PrivilegeValue)}
    (h : ∀ q ∈ requested, q.1 ∈ r.privileges) (rs : RestrictionSet) (m : DecisionMap) :
    ∃ n, decide requested rs m = .ok n ∧
      ∀ k, n.get? k = replay rs (hits requested k) (m.get? k) := by
  rw [decide]
  simp only [hits]
  induction PrivilegeValue.inOrder generalizing m with
  | nil => exact ⟨m, rfl, fun k => rfl⟩
  | cons v vs ih =>
    have hv : ∀ p ∈ (requested.filter fun q => q.2 == v).map Prod.fst, p ∈ r.privileges := by
      intro p hp
      obtain ⟨q, hq, rfl⟩ := List.mem_map.1 hp
      exact h q (List.mem_filter.1 hq).1
    obtain ⟨ls, _, _, hperform⟩ := DecisionMap.exists_perform m (v.operation rs) hv
    obtain ⟨n, hn, hget⟩ := ih (m.performOnLeaves (v.operation rs) ls)
    refine ⟨n, ?_, fun k => ?_⟩
    · rw [List.foldlM_cons, hperform]
      exact hn
    · have hcov : ((requested.filter fun q => q.2 == v).map Prod.fst).any (·.covers k) =
          requested.any fun q => q.2 == v && q.1.covers k := by
        rw [List.any_map, List.any_filter]
        rfl
      rw [hget, DecisionMap.get?_perform hv hperform, hcov, List.filter_cons]
      split <;> rfl

end Amendment

/-! ## Changes of one privilege -/

namespace DecisionMap

variable {n' : DecisionMap} {p : Privilege} {differ : Decision → Bool}

/-- Whether something is true of the decision about a leaf of a privilege. -/
def hasLeaf (m : DecisionMap) (p : Privilege) (cond : Decision → Bool) : Bool :=
  m.rulings.any fun a => p.covers a.id && cond a.decision

theorem hasLeaf_eq_false_iff : m.hasLeaf p differ = false ↔
    ∀ k, p.covers k = true → ∀ d ∈ m.get? k, differ d = false := by
  rw [hasLeaf, List.any_eq_false]
  constructor
  · intro h k hk d hd
    obtain ⟨a, ha, rfl, rfl⟩ := get?_eq_some_iff.1 hd
    simpa [hk] using h a ha
  · intro h a ha
    rw [Bool.and_eq_true, not_and, Bool.not_eq_true]
    exact fun hk => h a.id hk a.decision (get?_of_mem ha)

/-- Two changes of the leaves of a privilege lead to the same decisions if there is no decision
    about a leaf that they change differently. -/
theorem same_eq_not_hasLeaf {f g : Option Decision → Option Decision}
    (hn : ∀ k, Decision.Alike (n.get? k) (if p.covers k then f (m.get? k) else m.get? k))
    (hn' : ∀ k, Decision.Alike (n'.get? k) (if p.covers k then g (m.get? k) else m.get? k))
    (hfg : ∀ k, Decision.Alike (f (m.get? k)) (g (m.get? k)) ↔ ∀ d ∈ m.get? k, differ d = false) :
    n.same n' = !m.hasLeaf p differ := by
  rw [Bool.eq_iff_iff, Bool.not_eq_true', hasLeaf_eq_false_iff, same_iff]
  refine forall_congr' fun k => ?_
  have hk := hn k
  have hk' := hn' k
  cases hcov : p.covers k with
  | false =>
    rw [hcov] at hk hk'
    simpa using hk.trans hk'.symm
  | true =>
    rw [hcov, if_pos rfl] at hk hk'
    rw [← hfg k, forall_prop_of_true rfl]
    exact ⟨fun h => (hk.symm.trans h).trans hk', fun h => (hk.trans h).trans hk'.symm⟩

end DecisionMap

end AccessControl
