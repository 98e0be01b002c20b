import AccessControl.Modification.Apply
import AccessControl.Proofs.Entry.Likeness

/-!
# The same modifications in registries that are alike

A modification names privileges, and registries that are alike know the same names. So
an amendment, or the plan of a request, does the same in either registry: it fails with the
same error, or it leads to decisions that are the same.

* `Registry.Namesakes`: the privileges of a name in two registries;
* `Registry.Alike.agree_amend`: amendments;
* `Plan.Alike`, `DecisionMap.Alike.carryOut`: plans that do the same;
* `Registry.Alike.agree_modify`: the modifications of a request.
-/

namespace AccessControl

/-! ## Names of privileges -/

/-- The privileges of a name in two registries. -/
structure Registry.Namesakes (r r' : Registry) (p q : Privilege) : Prop where
  left : p ∈ r.privileges
  right : q ∈ r'.privileges
  id : p.id = q.id

variable {r r' : Registry}

namespace Registry.Alike

theorem sameLeaves_of_namesakes (h : r.Alike r') {p q : Privilege} (hpq : r.Namesakes r' p q) :
    p.SameLeaves q :=
  h.sameLeaves (.inl hpq.left) (.inr hpq.right) hpq.id

/-- The same names are known. -/
theorem agree_privilege (h : r.Alike r') (name : Scalar) :
    Agree Eq (r.Namesakes r') (r.privilege name) (r'.privilege name) := by
  cases name with
  | text s =>
    rw [privilege, privilege]
    cases hp : r.get? s with
    | some p =>
      obtain ⟨q, hq, hpq⟩ := h.exists_get? hp
      rw [hq]
      exact .ok ⟨(get?_eq_some_iff.1 hp).1, (get?_eq_some_iff.1 hq).1, hpq.id⟩
    | none =>
      cases hq : r'.get? s with
      | some q =>
        obtain ⟨p, hp', _⟩ := h.symm.exists_get? hq
        cases hp.symm.trans hp'
      | none => exact .error rfl
  | _ => exact .error rfl

theorem agree_target (h : r.Alike r') {α : Type} (name : α → String) (o : Option α) :
    Agree Eq (Option.Rel (r.Namesakes r')) (o.mapM fun a => r.privilege (.text (name a)))
      (o.mapM fun a => r'.privilege (.text (name a))) := by
  cases o with
  | none => exact .ok .none
  | some a => exact (h.agree_privilege _).bind fun p q hpq => .ok (.some hpq)

end Registry.Alike

/-! ## Amendments -/

namespace DecisionMap

variable {m n : DecisionMap}

theorem any_decided_congr (h : m.same n = true) :
    (m.rulings.any fun a => !a.decision.isUndecided) =
      n.rulings.any fun a => !a.decision.isUndecided := by
  have hnone (m : DecisionMap) : (m.rulings.any fun a => !a.decision.isUndecided) = false ↔
      ∀ k, ∀ d ∈ m.get? k, d.isUndecided = true := by
    rw [← forall_mem_rulings_iff, List.any_eq_false]
    simp
  have himp {m n : DecisionMap} (h : m.same n = true)
      (hm : ∀ k, ∀ d ∈ m.get? k, d.isUndecided = true) :
      ∀ k, ∀ d ∈ n.get? k, d.isUndecided = true := by
    intro k d hd
    have hk := same_iff.1 h k
    rw [hd] at hk
    cases hmk : m.get? k with
    | none =>
      rw [hmk] at hk
      cases hk
    | some d' =>
      rw [hmk] at hk
      cases hk with
      | some hk => exact Decision.isUndecided_congr hk ▸ hm k d' hmk
  rw [Bool.eq_iff_iff, ← not_iff_not, Bool.not_eq_true, Bool.not_eq_true, hnone, hnone]
  exact ⟨himp h, himp (same_symm h)⟩

theorem Alike.mapDecisions (h : m.Alike n) {f : Decision → Decision}
    (hf : ∀ d d' : Decision, d.same d' = true → (f d).same (f d') = true) :
    (m.mapDecisions f).Alike (n.mapDecisions f) where
  same := mapDecisions_congr h.same hf
  left := by
    rw [privileges_mapDecisions]
    exact h.left
  right := by
    rw [privileges_mapDecisions]
    exact h.right

end DecisionMap

namespace Amendment

variable {m n : DecisionMap}

theorem agree_remove (a : Amendment) (h : m.Alike n) :
    Agree Eq DecisionMap.Alike (a.remove m) (a.remove n) := by
  rw [remove, remove]
  split
  · exact .ok (h.mapDecisions fun d d' hd => Decision.strip_congr hd _)
  · rw [DecisionMap.any_decided_congr h.same]
    split
    · exact .error rfl
    · exact .ok h

/-- What is requested of privileges, by privileges of the same names. -/
abbrev Asks (r r' : Registry) (s t : Privilege × PrivilegeValue) : Prop :=
  r.Namesakes r' s.1 t.1 ∧ s.2 = t.2

theorem agree_requested (h : r.Alike r') (a : Amendment) :
    Journal.Agree (List.Forall₂ (Asks r r')) (a.requested r) (a.requested r') := by
  refine (Journal.Agree.mapM (S := Option.Rel (Asks r r')) (fun request => ?_) a.privileges).bind
    fun read read' hread => .pure (List.rel_filterMap (fun _ _ h => h) hread)
  refine (Journal.Agree.liftM (h.agree_privilege _)).bind fun p q hpq => ?_
  refine (Journal.Agree.refl (R := Eq) (fun _ => rfl) (PrivilegeValue.read request.2)).bind ?_
  rintro v _ rfl
  cases v with
  | none => exact .pure .none
  | some v => exact .pure (.some ⟨hpq, rfl⟩)

theorem agree_decide (h : r.Alike r') {requested requested' : List (Privilege × PrivilegeValue)}
    (hrequested : List.Forall₂ (Asks r r') requested requested') (rs : RestrictionSet)
    (hmn : m.Alike n) :
    Agree Eq DecisionMap.Alike (decide requested rs m) (decide requested' rs n) := by
  refine agree_foldlM (T := Eq) (List.forall₂_same.2 fun _ _ => rfl) ?_ hmn
  rintro v _ m n rfl hmn
  refine hmn.perform _ (corresponds_of_forall₂ ?_)
  rw [List.forall₂_map_left_iff, List.forall₂_map_right_iff]
  refine (List.rel_filter (fun s t hst => ?_) hrequested).imp
    fun s t hst => h.sameLeaves_of_namesakes hst.1
  dsimp only
  rw [hst.2]

end Amendment

namespace Registry.Alike

variable {acl acl' : List Entry}

theorem agree_amendedDecisions (h : r.Alike r')
    (hacl : List.Forall₂ (Entry.Alike r r') acl acl') (provider : Provider) (principal : Principal)
    (path : Option String) (a : Amendment) :
    Journal.Agree DecisionMap.Alike (r.amendedDecisions provider acl principal path a)
      (r'.amendedDecisions provider acl' principal path a) := by
  refine (Journal.Agree.refl (R := Eq) (fun _ => rfl) _).bind ?_
  rintro known _ rfl
  refine (Journal.Agree.liftM (h.agree_ofEntries hacl principal)).bind fun m n hmn => ?_
  refine (Journal.Agree.liftM (a.agree_remove hmn)).bind fun m n hmn => ?_
  refine (Journal.Agree.refl (R := Eq) (fun _ => rfl) _).bind ?_
  rintro rs _ rfl
  refine (Amendment.agree_requested h a).bind fun requested requested' hrequested => ?_
  exact .liftM (Amendment.agree_decide h hrequested rs hmn)

/-- An amendment does the same in either registry. -/
theorem agree_amend (h : r.Alike r') (hacl : List.Forall₂ (Entry.Alike r r') acl acl')
    (provider : Provider) (principal : Principal) (path : Option String) (a : Amendment) :
    Journal.Agree (List.Forall₂ fun a b : Entry => a.same b = true)
      (r.amend provider acl principal path a) (r'.amend provider acl' principal path a) :=
  (h.agree_amendedDecisions hacl provider principal path a).bind fun _ _ hmn =>
    .pure (h.entries_consolidate hmn principal)

end Registry.Alike

/-! ## Plans -/

/-- The same operation on privileges of the same name, or on all of them. -/
structure Edit.Alike (r r' : Registry) (ed ed' : Edit) : Prop where
  operation : ed.operation = ed'.operation
  target : Option.Rel (r.Namesakes r') ed.target ed'.target

/-- Plans with the same edits, and errors in the same places. -/
abbrev Plan.Alike (r r' : Registry) (plan plan' : Plan) : Prop :=
  List.Forall₂ (Agree Eq (Edit.Alike r r')) plan plan'

namespace Plan

theorem alike_ofExcept {x y : Except Error (List Edit)}
    (h : Agree Eq (List.Forall₂ (Edit.Alike r r')) x y) :
    Plan.Alike r r' (ofExcept x) (ofExcept y) := by
  cases h with
  | error h => exact .cons (.error h) .nil
  | ok h =>
    rw [ofExcept, ofExcept, Plan.Alike, List.forall₂_map_left_iff, List.forall₂_map_right_iff]
    exact h.imp fun _ _ => .ok

theorem alike_flatMap {α : Type} (as : List α) {f g : α → Plan}
    (h : ∀ a, Plan.Alike r r' (f a) (g a)) : Plan.Alike r r' (as.flatMap f) (as.flatMap g) := by
  refine List.rel_flatMap (R := Eq) (List.forall₂_same.2 fun _ _ => rfl) ?_
  rintro a _ rfl
  exact h a

end Plan

/-- Edits made of the members of a list are alike if they are for each of them. -/
theorem forall₂_edits {α : Type} (as : List α) {f g : α → Edit}
    (h : ∀ a, Edit.Alike r r' (f a) (g a)) :
    List.Forall₂ (Edit.Alike r r') (as.map f) (as.map g) := by
  rw [List.forall₂_map_left_iff, List.forall₂_map_right_iff, List.forall₂_same]
  exact fun a _ => h a

namespace DecisionMap.Alike

variable {m n : DecisionMap}

theorem edit (h : r.Alike r') (hmn : m.Alike n) {ed ed' : Edit} (hed : Edit.Alike r r' ed ed') :
    AccessControl.Agree Eq DecisionMap.Alike (m.edit ed) (n.edit ed') := by
  obtain ⟨operation, target⟩ := ed
  obtain ⟨operation', target'⟩ := ed'
  obtain ⟨hop, htarget⟩ := hed
  dsimp only at hop htarget
  subst hop
  cases htarget with
  | none => exact hmn.perform _ hmn.corresponds_privileges
  | some hpq =>
    exact hmn.perform _ (corresponds_of_forall₂ (.cons (h.sameLeaves_of_namesakes hpq) .nil))

/-- Plans that are alike lead to the same decisions, and stop at the same error. -/
theorem carryOut (h : r.Alike r') (hmn : m.Alike n) {plan plan' : Plan}
    (hplan : Plan.Alike r r' plan plan') :
    (m.carryOut plan).1.Alike (n.carryOut plan').1 ∧
      (m.carryOut plan).2 = (n.carryOut plan').2 := by
  induction hplan generalizing m n with
  | nil => exact ⟨hmn, rfl⟩
  | cons hx _ ih =>
    cases hx with
    | error he =>
      cases he
      exact ⟨hmn, rfl⟩
    | @ok ed ed' hed =>
      have hedit := hmn.edit h hed
      rw [DecisionMap.carryOut, DecisionMap.carryOut]
      revert hedit
      generalize m.edit ed = x
      generalize n.edit ed' = y
      intro hedit
      cases hedit with
      | ok hmn => exact ih hmn
      | error he =>
        cases he
        exact ⟨hmn, rfl⟩

end DecisionMap.Alike

/-! ## The phases of a plan -/

namespace Modifications

variable (m : Modifications) (known : Vocabulary) (d : DepthIndex)

theorem alike_deletePrivileges (h : r.Alike r') :
    Plan.Alike r r' (m.deletePrivileges r) (m.deletePrivileges r') := by
  refine Plan.alike_flatMap _ fun delete => Plan.alike_ofExcept ?_
  refine (h.agree_privilege _).bind fun p q hpq => .ok ?_
  refine List.rel_flatMap (R := Eq) (List.forall₂_same.2 fun _ _ => rfl) ?_
  rintro v _ rfl
  exact forall₂_edits _ fun op => ⟨rfl, .some hpq⟩

theorem alike_deleteRestrictions (h : r.Alike r') :
    Plan.Alike r r' (m.deleteRestrictions r known) (m.deleteRestrictions r' known) := by
  refine Plan.alike_flatMap _ fun delete => Plan.alike_ofExcept ?_
  refine (Agree.refl (R := Eq) (fun _ => rfl) (fun _ => rfl) _).bind fun _ _ _ => ?_
  refine (h.agree_target id delete.privilege).bind fun target target' htarget => .ok ?_
  exact forall₂_edits _ fun v => ⟨rfl, htarget⟩

theorem alike_decidePrivileges (h : r.Alike r') :
    Plan.Alike r r' (m.decidePrivileges r d) (m.decidePrivileges r' d) := by
  refine Plan.alike_ofExcept ?_
  refine (agree_mapM (T := Eq) (S := fun s t : Privilege × List PrivilegeValue =>
    r.Namesakes r' s.1 t.1 ∧ s.2 = t.2) (List.forall₂_same.2 fun _ _ => rfl) ?_).bind
      fun ps qs hpq => .ok (List.rel_flatMap (forall₂_mergeSort ?_ hpq) ?_)
  · rintro request _ rfl
    exact (h.agree_privilege _).bind fun p q hpq => .ok ⟨hpq, rfl⟩
  · rintro s s' t t' ⟨hst, _⟩ ⟨hst', _⟩
    rw [hst.id, hst'.id]
  · rintro ⟨p, vs⟩ ⟨q, _⟩ ⟨hpq, rfl⟩
    exact forall₂_edits _ fun v => ⟨rfl, .some hpq⟩

/-- The same restriction of privileges of the same name, or of everything. -/
structure Addition.Alike (r r' : Registry) (a b : Addition) : Prop where
  privilege : Option.Rel (r.Namesakes r') a.privilege b.privilege
  effect : a.effect = b.effect
  restriction : a.restriction = b.restriction

theorem agree_addition (h : r.Alike r') (request : RestrictionRequest) :
    Agree Eq (Addition.Alike r r') (addition r known request) (addition r' known request) := by
  refine (h.agree_target Prod.fst request.target).bind fun p q hpq => ?_
  refine (Agree.refl (R := Eq) (fun _ => rfl) (fun _ => rfl) _).bind ?_
  rintro definition _ rfl
  refine (Agree.refl (R := Eq) (fun _ => rfl) (fun _ => rfl) _).bind ?_
  rintro restriction _ rfl
  exact .ok ⟨hpq, rfl, rfl⟩

theorem id_eq_of_namesakes {o o' : Option Privilege} (h : Option.Rel (r.Namesakes r') o o') :
    o.map Privilege.id = o'.map Privilege.id := by
  cases h with
  | none => rfl
  | some h => exact congrArg some h.id

/-- The additions to one privilege, or to everything. -/
def additionsTo (all : List Addition) (target : Option Privilege) : List Addition :=
  all.filter fun a => a.privilege.map Privilege.id == target.map Privilege.id

theorem additionsFor_eq (all : List Addition) (target : Option Privilege) :
    additionsFor all target =
      ((additionsTo all target).map Addition.restriction).eraseDups.flatMap fun restriction =>
        [some .deny, some .allow, none].filterMap fun effect =>
          if (additionsTo all target).any fun a =>
            a.restriction == restriction && a.effect == effect
          then some ⟨adding restriction effect, target⟩ else none := rfl

theorem forall₂_additionsFor {all all' : List Addition}
    (hall : List.Forall₂ (Addition.Alike r r') all all') {target target' : Option Privilege}
    (htarget : Option.Rel (r.Namesakes r') target target') :
    List.Forall₂ (Edit.Alike r r') (additionsFor all target) (additionsFor all' target') := by
  have hown : List.Forall₂ (Addition.Alike r r') (additionsTo all target)
      (additionsTo all' target') := by
    refine List.rel_filter (fun a b hab => ?_) hall
    dsimp only
    rw [id_eq_of_namesakes hab.privilege, id_eq_of_namesakes htarget]
  have hrestrictions : (additionsTo all target).map Addition.restriction =
      (additionsTo all' target').map Addition.restriction :=
    map_eq_of_forall₂ hown fun _ _ hab => hab.restriction
  have hany (said : Restriction → Option Effect → Bool) :
      (additionsTo all target).any (fun a => said a.restriction a.effect) =
        (additionsTo all' target').any fun a => said a.restriction a.effect := by
    have hmap := map_eq_of_forall₂ (f := fun a => said a.restriction a.effect)
      (g := fun a => said a.restriction a.effect) hown fun a b hab => by
        rw [hab.restriction, hab.effect]
    simpa only [List.any_map, Function.id_comp] using congrArg (List.any · id) hmap
  rw [additionsFor_eq, additionsFor_eq, hrestrictions]
  refine List.rel_flatMap (R := Eq) (List.forall₂_same.2 fun _ _ => rfl) ?_
  rintro restriction _ rfl
  refine List.rel_filterMap (R := Eq) ?_ (List.forall₂_same.2 fun _ _ => rfl)
  rintro effect _ rfl
  dsimp only
  rw [hany fun s e => s == restriction && e == effect]
  split
  · exact .some ⟨rfl, htarget⟩
  · exact .none

theorem find?_of_forall₂ {ps qs : List Privilege} (h : List.Forall₂ (r.Namesakes r') ps qs)
    (k : String) : Option.Rel (r.Namesakes r') (ps.find? fun p => p.id == k)
      (qs.find? fun q => q.id == k) := by
  induction h with
  | nil => exact .none
  | cons hpq _ ih =>
    rw [List.find?_cons, List.find?_cons, hpq.id]
    split
    · exact .some hpq
    · exact ih

theorem alike_addRestrictions (h : r.Alike r') :
    Plan.Alike r r' (m.addRestrictions r known d) (m.addRestrictions r' known d) := by
  refine Plan.alike_ofExcept ?_
  refine (agree_mapM (T := Eq) (S := Addition.Alike r r') (List.forall₂_same.2 fun _ _ => rfl)
    ?_).bind fun all all' hall => .ok ?_
  · rintro request _ rfl
    exact agree_addition known h request
  · have hprivileges : List.Forall₂ (r.Namesakes r') (all.filterMap Addition.privilege)
        (all'.filterMap Addition.privilege) :=
      List.rel_filterMap (fun _ _ hab => hab.privilege) hall
    refine List.rel_append (forall₂_additionsFor hall .none) ?_
    refine List.rel_flatMap ?_ fun p q hpq => forall₂_additionsFor hall (.some hpq)
    rw [map_eq_of_forall₂ hprivileges fun _ _ hpq => hpq.id]
    refine List.rel_filterMap (R := Eq) ?_ (List.forall₂_same.2 fun _ _ => rfl)
    rintro k _ rfl
    exact find?_of_forall₂ hprivileges k

/-- A request has the same plan in either registry. -/
theorem alike_plan (h : r.Alike r') :
    Plan.Alike r r' (m.plan r known d) (m.plan r' known d) :=
  List.rel_append (List.rel_append (List.rel_append (m.alike_deletePrivileges h)
    (m.alike_deleteRestrictions known h)) (m.alike_decidePrivileges d h))
    (m.alike_addRestrictions known d h)

end Modifications

namespace Registry.Alike

variable {acl acl' : List Entry}

theorem agree_modifiedDecisions (h : r.Alike r')
    (hacl : List.Forall₂ (Entry.Alike r r') acl acl') (provider : Provider) (principal : Principal)
    (path : Option String) (parameters : List (String × Datum)) :
    Journal.Agree DecisionMap.Alike (r.modifiedDecisions provider acl principal path parameters)
      (r'.modifiedDecisions provider acl' principal path parameters) := by
  refine (Journal.Agree.refl (R := Eq) (fun _ => rfl) _).bind ?_
  rintro known _ rfl
  refine (Journal.Agree.liftM (h.agree_ofEntries hacl principal)).bind fun m n hmn => ?_
  refine (Journal.Agree.refl (R := Eq) (fun _ => rfl) _).bind ?_
  rintro modifications _ rfl
  have hrun := hmn.carryOut h (modifications.alike_plan known r.depths h)
  rw [← h.depths_eq]
  revert hrun
  generalize m.carryOut (modifications.plan r known r.depths) = run
  generalize n.carryOut (modifications.plan r' known r.depths) = run'
  obtain ⟨m', e⟩ := run
  obtain ⟨n', e'⟩ := run'
  rintro ⟨hmn, rfl⟩
  cases e with
  | none => exact .pure hmn
  | some e => exact ⟨rfl, .error rfl⟩

/-- The modifications of a request do the same in either registry. -/
theorem agree_modify (h : r.Alike r') (hacl : List.Forall₂ (Entry.Alike r r') acl acl')
    (provider : Provider) (principal : Principal) (path : Option String)
    (parameters : List (String × Datum)) :
    Journal.Agree (List.Forall₂ fun a b : Entry => a.same b = true)
      (r.modify provider acl principal path parameters)
      (r'.modify provider acl' principal path parameters) :=
  (h.agree_modifiedDecisions hacl provider principal path parameters).bind fun _ _ hmn =>
    .pure (h.entries_consolidate hmn principal)

end Registry.Alike

end AccessControl
