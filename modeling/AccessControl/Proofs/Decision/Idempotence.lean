import AccessControl.Proofs.Decision.Atoms
import AccessControl.Proofs.Decision.FoldStep
import AccessControl.Proofs.Decision.Removal
import AccessControl.Proofs.Restriction.Merging

/-!
# Doing the same again

An operation that is performed a second time finds its restrictions merged, or its names
removed, and a side that had to give way is gone: nothing is left for it to do. This holds of
whatever decisions there are, for any restrictions, be there several of one name or some
without a name, and for any names.

* `Side.Settles`: changes of a side that are done with when they have been made once;
* `Decision.yield_onSides_same`: so are changes of both sides, after one of them gave way;
* `Operation.act_act`: an operation does nothing to what it has led to;
* `DecisionMap.exists_perform_idempotent`: neither does it to a map.
-/

namespace AccessControl

namespace Side

theorem merge_merge_same (s : Side) (rs : RestrictionSet) :
    ((s.merge rs).merge rs).same (s.merge rs) = true :=
  same_iff.2 ⟨rfl, RestrictionSet.merge_merge_same _ rs⟩

theorem remove_idem_same (s : Side) (names : List (Option String)) :
    ((s.remove names).remove names).same (s.remove names) = true :=
  same_iff.2 ⟨rfl, RestrictionSet.remove_idem_same _ names⟩

/-- A change of a side that is done with when it has been made once. -/
def Settles (f : Side → Side) : Prop := ∀ s, (f (f s)).same (f s) = true

theorem settles_id : Settles id := fun s => same_refl s

theorem settles_grant (rs : RestrictionSet) : Settles fun s => (s.switch true).merge rs :=
  fun s => merge_merge_same (s.switch true) rs

theorem settles_remove (names : List (Option String)) : Settles fun s => s.remove names :=
  fun s => remove_idem_same s names

theorem settles_restrict (rs : RestrictionSet) :
    Settles fun s => if s.active then s.merge rs else s := by
  intro s
  cases hact : s.active with
  | false => simp [hact, same_refl]
  | true =>
    have hmerge : (s.merge rs).active = true := hact
    simpa [hact, hmerge] using merge_merge_same s rs

end Side

namespace Decision

variable {d : Decision} {e : Effect} {f : Effect → Side → Side}

theorem onSide_eq_onSides (d : Decision) (e : Effect) (g : Side → Side) :
    d.onSide e g = d.onSides fun e' => if e' = e then g else id := by
  cases e <;> rfl

theorem isContradictory_yield (d : Decision) (e : Effect) :
    (d.yield e).isContradictory = false := by
  cases h : d.isContradictory with
  | false => rwa [yield, h]
  | true =>
    rw [yield, h, if_pos rfl, ← Bool.not_eq_true, isContradictory_iff]
    rintro ⟨hact, _⟩
    simpa [Side.off] using hact e

/-- Changes of the sides that are done with when they have been made once have nothing left
    to do after a side gave way, if they do nothing to a side that is off. -/
theorem yield_onSides_same (hf : ∀ e, Side.Settles (f e)) (hoff : (f e .off).same .off = true)
    (d : Decision) :
    ((((d.onSides f).yield e).onSides f).yield e).same ((d.onSides f).yield e) = true := by
  have hagain : (((d.onSides f).yield e).onSides f).same ((d.onSides f).yield e) = true := by
    refine same_iff.2 fun e' => ?_
    rw [side_onSides, yield]
    split
    · by_cases he : e' = e
      · rw [he, side_onSide_self]
        exact hoff
      · rw [side_onSide_of_ne _ he, side_onSides]
        exact hf e' _
    · rw [side_onSides]
      exact hf e' _
  -- What has given way once does not contradict itself, so that nothing gives way again.
  have hyield := yield_congr hagain e
  rwa [yield_of_consistent (isContradictory_yield _ e)] at hyield

/-- So has a change of one side, where the other one gives way. -/
theorem yield_onSide_same {g : Side → Side} (hg : Side.Settles g) (e : Effect) (d : Decision) :
    ((((d.onSide e g).yield e.other).onSide e g).yield e.other).same
      ((d.onSide e g).yield e.other) = true := by
  simp only [onSide_eq_onSides]
  refine yield_onSides_same (fun e' => ?_) ?_ d
  · split
    · exact hg
    · exact Side.settles_id
  · rw [if_neg (other_ne e)]
    exact Side.same_refl _

theorem grant_grant (d : Decision) (e : Effect) (rs : RestrictionSet) :
    ((d.grant e rs).grant e rs).same (d.grant e rs) = true :=
  yield_onSide_same (Side.settles_grant rs) e d

theorem unrestrict_unrestrict (d : Decision) (e : Effect) (names : List (Option String)) :
    ((d.unrestrict e names).unrestrict e names).same (d.unrestrict e names) = true :=
  yield_onSide_same (Side.settles_remove names) e d

theorem restrict_restrict (d : Decision) (rs : RestrictionSet) :
    ((d.restrict rs).restrict rs).same (d.restrict rs) = true :=
  yield_onSides_same (fun _ => Side.settles_restrict rs) (Side.same_refl _) d

theorem unrestrictBoth_unrestrictBoth (d : Decision) (names : List (Option String)) :
    ((d.unrestrictBoth names).unrestrictBoth names).same (d.unrestrictBoth names) = true := by
  refine yield_onSides_same (fun _ => Side.settles_remove names) ?_ d
  rw [Side.remove_off]
  exact Side.same_refl _

end Decision

namespace Operation

/-- An operation does nothing to a decision, or to the lack of one, that it has led to. -/
theorem act_act (op : Operation) (o : Option Decision) :
    Decision.Alike (op.act (op.act o)) (op.act o) := by
  have hmap {f : Decision → Decision} (hf : ∀ d : Decision, (f (f d)).same (f d) = true) :
      Decision.Alike ((o.map f).map f) (o.map f) := by
    cases o with
    | none => exact .none
    | some d => exact .some (hf d)
  cases op with
  | set e rs => exact .some (Decision.grant_grant _ e rs)
  | clear e =>
    rw [act_clear_act_clear]
    exact Decision.Alike.refl _
  | drop => exact .none
  | restrict rs => exact hmap fun d => d.restrict_restrict rs
  | unrestrict e names => exact hmap fun d => d.unrestrict_unrestrict e names
  | unrestrictBoth names => exact hmap fun d => d.unrestrictBoth_unrestrictBoth names

/-- What an operation does to a decision under a condition. -/
def actIf (op : Operation) (cond : Bool) (o : Option Decision) : Option Decision :=
  if cond then op.act o else o

theorem actIf_congr {o o' : Option Decision} (h : Decision.Alike o o') (op : Operation)
    (cond : Bool) : Decision.Alike (op.actIf cond o) (op.actIf cond o') := by
  cases cond with
  | false => exact h
  | true => exact act_congr h op

/-- What has been done need not be done again. -/
theorem actIf_act (op : Operation) (cond : Bool) (o : Option Decision) :
    Decision.Alike (op.actIf cond (op.act o)) (op.act o) := by
  cases cond with
  | false => exact .refl _
  | true => exact op.act_act o

/-- What is done under either of two conditions can be done under one and then under the
    other, even if both hold. -/
theorem actIf_or (op : Operation) (b c : Bool) (o : Option Decision) :
    Decision.Alike (op.actIf (b || c) o) (op.actIf c (op.actIf b o)) := by
  cases b with
  | false => exact .refl _
  | true => exact (op.actIf_act c o).symm

/-- Under conditions that exclude each other, only one of two operations is performed. -/
theorem actIf_comm {op op' : Operation} {b c : Bool} (h : b = true → c = false)
    (o : Option Decision) : op'.actIf c (op.actIf b o) = op.actIf b (op'.actIf c o) := by
  cases b with
  | false => rfl
  | true =>
    rw [h rfl]
    rfl

end Operation

namespace DecisionMap

variable {m n : DecisionMap} {op : Operation} {r : Registry} {targets : List Privilege}

theorem performOnLeaves_performOnLeaves_same (m : DecisionMap) (op : Operation)
    {ls : List String} (hls : ls.Nodup) :
    ((m.performOnLeaves op ls).performOnLeaves op ls).same (m.performOnLeaves op ls) = true := by
  refine same_iff.2 fun k => ?_
  rw [get?_performOnLeaves _ op hls, get?_performOnLeaves m op hls]
  split
  · exact op.act_act _
  · exact Decision.Alike.refl _

/-- What can be done to a map can be done again to what it leads to, and changes nothing
    then. -/
def Idempotent (f : DecisionMap → Except Error DecisionMap) : Prop :=
  ∀ m n, f m = .ok n → ∃ n', f n = .ok n' ∧ n'.same n = true

/-- An operation is idempotent, and so is one whose argument is of no use: where it does not
    fail it concerns nothing, and leaves everything as it was. -/
theorem idempotent_attempt (op : Except Error Operation) (concerns : Decision → Bool)
    (targets : List Privilege) : Idempotent fun m => m.attempt op concerns targets := by
  intro m n hn
  cases op with
  | ok op =>
    obtain ⟨ls, hls, hact⟩ := exists_of_bind_eq_ok hn
    have hnodup : ls.Nodup := Privilege.nodup_of_expand_eq_ok hls
    obtain rfl := Except.ok.inj hact
    refine ⟨_, ?_, performOnLeaves_performOnLeaves_same m op hnodup⟩
    simp only [attempt, hls]
    rfl
  | error e =>
    obtain rfl := eq_of_attempt_error hn
    exact ⟨_, hn, same_refl _⟩

theorem idempotent_perform (op : Operation) (targets : List Privilege) :
    Idempotent fun m => m.perform op targets :=
  idempotent_attempt (.ok op) (fun _ => true) targets

theorem idempotent_set (e : Effect) (drafts : List RestrictionDraft) (targets : List Privilege) :
    Idempotent fun m => m.set e drafts targets := by
  intro m n hn
  obtain ⟨rs, hrs, hperform⟩ := exists_of_bind_eq_ok hn
  obtain ⟨n', hn', hsame⟩ := idempotent_perform (.set e rs) targets m n hperform
  refine ⟨n', ?_, hsame⟩
  simp only [set, hrs]
  exact hn'

/-- Every operation on privileges of a registry can be performed on every map, whatever the
    restrictions and the names, and to perform it again changes nothing. Nor does it if the
    restrictions and the names are still to be checked. -/
theorem exists_perform_idempotent (ht : ∀ p ∈ targets, p ∈ r.privileges) :
    (∀ (op : Operation) (m : DecisionMap), ∃ n, m.perform op targets = .ok n) ∧
      (∀ op, Idempotent fun m => m.perform op targets) ∧
      (∀ e drafts, Idempotent fun m => m.set e drafts targets) ∧
      (∀ draft, Idempotent fun m => m.restrict draft targets) ∧
      (∀ e names, Idempotent fun m => m.unrestrict e names targets) ∧
      ∀ names, Idempotent fun m => m.unrestrictBoth names targets := by
  refine ⟨fun op m => ?_, fun op => idempotent_perform op targets,
    fun e drafts => idempotent_set e drafts targets, fun draft => idempotent_attempt _ _ targets,
    fun e names => idempotent_attempt _ _ targets, fun names => idempotent_attempt _ _ targets⟩
  obtain ⟨ls, _, _, hperform⟩ := exists_perform m op ht
  exact ⟨_, hperform⟩

/-- Two restrictions of one name, and one without a name. -/
def crowded : RestrictionSet :=
  let members : List Restriction :=
    [⟨some RestrictionName.glob, .bool false, [.text "*"]⟩,
      ⟨some RestrictionName.glob, .bool false, [.text "drafts"]⟩,
      ⟨none, .bool true, [.text "drafts", .text "notes"]⟩]
  Std.ExtTreeSet.ofList members

/-- All of the diamond, some of which is denied as well, is allowed under them. -/
theorem exists_perform_idempotent_crowded :
    (∀ p ∈ [Registry.diamond.root], p ∈ Registry.diamond.privileges) ∧
      ∃ n, guarded.perform (.set .allow crowded) [Registry.diamond.root] = .ok n ∧
        ∃ n', n.perform (.set .allow crowded) [Registry.diamond.root] = .ok n' ∧
          n'.same n = true := by
  have hroot : ∀ p ∈ [Registry.diamond.root], p ∈ Registry.diamond.privileges :=
    List.forall_mem_singleton.2 Registry.diamond.root_mem
  obtain ⟨htotal, hagain, _⟩ := exists_perform_idempotent hroot
  obtain ⟨n, hn⟩ := htotal (.set .allow crowded) guarded
  exact ⟨hroot, n, hn, hagain _ _ _ hn⟩

end DecisionMap

end AccessControl
