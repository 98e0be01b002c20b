import AccessControl.Proofs.Agreement
import AccessControl.Proofs.Distinct
import AccessControl.Proofs.Privilege.Acceptance
import AccessControl.Proofs.Privilege.Likeness

/-!
# Definitions in another order

Definitions may be listed in any order, and so may the children of each of them, with
any repetitions. This decides neither whether a registry is accepted nor what it is
made of: it is refused for the same kind of reason, or it is alike.

* `Rearranges`: the same names in another order;
* `Registry.agree_ofDeclarations`: declarations of the same children;
* `Registry.agree_ofData`: the same, when the children are given in any form.
-/

namespace AccessControl

/-- The same names in another order, with things that are related. -/
structure Rearranges {α : Type} (S : α → α → Prop) (ds ds' : List (String × α)) : Prop where
  /-- No name is repeated. -/
  nodup : (ds.map Prod.fst).Nodup
  /-- Nor is it in the other order. -/
  nodup' : (ds'.map Prod.fst).Nodup
  /-- What the one lists, the other one lists. -/
  corresponds : Corresponds (fun d d' => d.1 = d'.1 ∧ S d.2 d'.2) ds ds'

namespace Rearranges

variable {α : Type} {S : α → α → Prop} {ds ds' : List (String × α)}

theorem symm (hS : ∀ x y, S x y → S y x) (h : Rearranges S ds ds') : Rearranges S ds' ds where
  nodup := h.nodup'
  nodup' := h.nodup
  corresponds := by
    refine ⟨fun d' hd' => ?_, fun d hd => ?_⟩
    · obtain ⟨d, hd, hid, hdd'⟩ := h.corresponds.back d' hd'
      exact ⟨d, hd, hid.symm, hS _ _ hdd'⟩
    · obtain ⟨d', hd', hid, hdd'⟩ := h.corresponds.forth d hd
      exact ⟨d', hd', hid.symm, hS _ _ hdd'⟩

theorem sameMembers_names (h : Rearranges S ds ds') :
    SameMembers (ds.map Prod.fst) (ds'.map Prod.fst) := by
  intro k
  constructor
  · intro hk
    obtain ⟨d, hd, rfl⟩ := List.mem_map.1 hk
    obtain ⟨d', hd', hid, _⟩ := h.corresponds.forth d hd
    exact hid ▸ List.mem_map_of_mem hd'
  · intro hk
    obtain ⟨d', hd', rfl⟩ := List.mem_map.1 hk
    obtain ⟨d, hd, hid, _⟩ := h.corresponds.back d' hd'
    exact hid ▸ List.mem_map_of_mem hd

end Rearranges

/-! ## Declarations -/

namespace Definitions

variable {decls decls' : List (String × List Scalar)} {ds ds' : Definitions}

/-- The children that are declared are those that definitions have. -/
theorem child_iff (hnodup : (decls.map Prod.fst).Nodup) (h : ofDeclarations decls = .ok ds)
    {a b : String} : ds.Child a b ↔ ∃ d ∈ decls, d.1 = a ∧ .text b ∈ d.2 := by
  refine ⟨exists_of_child h, ?_⟩
  rintro ⟨d, hd, rfl, hb⟩
  have hmem : (d.1, d.2.eraseDups.filterMap Scalar.text?) ∈ ds := by
    rw [(eq_of_ofDeclarations h).2]
    exact List.mem_map.2 ⟨_, mem_distinct.2 ⟨d, hd, rfl⟩, rfl⟩
  rw [← names_of_ofDeclarations h] at hnodup
  rw [Child, childrenOf, lookup_eq_some_of_mem hnodup hmem, Option.getD_some]
  exact List.mem_filterMap.2 ⟨.text b, text_mem_eraseDups.2 hb, rfl⟩

/-- Definitions of the same names, with the same children. -/
structure Alike (ds ds' : Definitions) : Prop where
  complete : ds.Complete
  complete' : ds'.Complete
  names : SameMembers ds.names ds'.names
  child : ∀ a b, ds.Child a b ↔ ds'.Child a b

theorem Alike.symm (h : ds.Alike ds') : ds'.Alike ds :=
  ⟨h.complete', h.complete, h.names.symm, fun a b => (h.child a b).symm⟩

theorem agree_ofDeclarations (h : Rearranges SameMembers decls decls') :
    Agree Error.Akin Alike (ofDeclarations decls) (ofDeclarations decls') := by
  have hsymm : Rearranges SameMembers decls' decls := h.symm fun _ _ => SameMembers.symm
  have hall {decls decls' : List (String × List Scalar)} (h : Rearranges SameMembers decls decls')
      (hdefined : AllDefined decls) : AllDefined decls' := by
    intro d' hd' s hs
    obtain ⟨d, hd, _, hdd'⟩ := h.corresponds.back d' hd'
    obtain ⟨e, he, rfl⟩ := hdefined d hd s ((hdd' s).2 hs)
    obtain ⟨e', he', hid, _⟩ := h.corresponds.forth e he
    exact ⟨e', he', congrArg Scalar.text hid⟩
  have hchild {decls decls' : List (String × List Scalar)}
      (h : Rearranges SameMembers decls decls') {a b : String}
      (hab : ∃ d ∈ decls, d.1 = a ∧ .text b ∈ d.2) : ∃ d ∈ decls', d.1 = a ∧ .text b ∈ d.2 := by
    obtain ⟨d, hd, rfl, hb⟩ := hab
    obtain ⟨d', hd', hid, hdd'⟩ := h.corresponds.forth d hd
    exact ⟨d', hd', hid.symm, (hdd' _).1 hb⟩
  rcases ofDeclarations_cases decls with ⟨hdefined, ds, hds⟩ | ⟨hnot, a, s, he, _⟩
  · rcases ofDeclarations_cases decls' with ⟨_, ds', hds'⟩ | ⟨hnot', _⟩
    · rw [hds, hds']
      refine .ok ⟨complete_of_ofDeclarations hds, complete_of_ofDeclarations hds', ?_, ?_⟩
      · rw [names_of_ofDeclarations hds, names_of_ofDeclarations hds']
        exact h.sameMembers_names
      · intro a b
        rw [child_iff h.nodup hds, child_iff h.nodup' hds']
        exact ⟨hchild h, hchild hsymm⟩
    · exact absurd (hall h hdefined) hnot'
  · rcases ofDeclarations_cases decls' with ⟨hdefined', _⟩ | ⟨_, a', s', he', _⟩
    · exact absurd (hall hsymm hdefined') hnot
    · rw [he, he']
      exact .error rfl

/-! ## Catalogues -/

/-- Whether there is a cycle is the same, and without one the same catalogue is built. -/
theorem Alike.agree_catalogue (h : ds.Alike ds') :
    Agree Error.Akin Catalogue.Alike ds.catalogue ds'.catalogue := by
  have hacyclic {ds ds' : Definitions} (h : ds.Alike ds') (hds : ds.Acyclic) : ds'.Acyclic :=
    fun a ha => hds a (Relation.TransGen.mono (fun a b => (h.child a b).2) a a ha)
  have hforth {ds ds' : Definitions} (h : ds.Alike ds') {c c' : Catalogue}
      (hc : ds.catalogue = .ok c) (hc' : ds'.catalogue = .ok c') :
      ∀ p ∈ c.privileges, ∃ q ∈ c'.privileges, p.Resembles q := by
    intro p hp
    obtain ⟨hfollows, hnames⟩ := follows_catalogue h.complete hc
    obtain ⟨hfollows', hnames'⟩ := follows_catalogue h.complete' hc'
    have hname := (h.names p.id).1 ((hnames p.id).1 (Catalogue.contains_iff.2 ⟨p, hp, rfl⟩))
    obtain ⟨q, hq, hid⟩ := Catalogue.contains_iff.1 ((hnames' p.id).2 hname)
    have hchildren : SameMembers p.children q.children := by
      intro k
      rw [hfollows.children p hp, hfollows'.children q hq, hid]
      exact h.child p.id k
    refine ⟨q, hq, hid.symm, ?_, hchildren⟩
    -- A privilege is an aggregate if it has children.
    rw [hfollows.isAggregate p hp, hfollows'.isAggregate q hq, Bool.eq_iff_iff]
    simp only [Bool.not_eq_true', List.isEmpty_eq_false_iff_exists_mem, hchildren _]
  rcases catalogue_cases h.complete with ⟨hds, c, hc⟩ | ⟨hds, walk, he, _⟩
  · rcases catalogue_cases h.complete' with ⟨_, c', hc'⟩ | ⟨hds', _⟩
    · rw [hc, hc']
      refine .ok ⟨hforth h hc hc', fun q hq => ?_⟩
      obtain ⟨p, hp, hqp⟩ := hforth h.symm hc' hc q hq
      exact ⟨p, hp, hqp.symm⟩
    · exact absurd (hacyclic h hds) hds'
  · rcases catalogue_cases h.complete' with ⟨hds', _⟩ | ⟨_, walk', he', _⟩
    · exact absurd (hacyclic h.symm hds') hds
    · rw [he, he']
      exact .error rfl

end Definitions

/-! ## Registries -/

theorem Catalogue.Alike.get?_eq_none_iff {c c' : Catalogue} (h : c.Alike c') {k : String} :
    c.get? k = none ↔ c'.get? k = none := by
  have hname (c : Catalogue) : c.get? k = none ↔ ∀ p ∈ c.privileges, p.id ≠ k := by
    rw [Catalogue.get?, List.find?_eq_none]
    simp
  rw [hname, hname]
  constructor
  · rintro hnone q hq rfl
    obtain ⟨p, hp, hpq⟩ := h.back q hq
    exact hnone p hp hpq.id
  · rintro hnone p hp rfl
    obtain ⟨q, hq, hpq⟩ := h.forth p hp
    exact hnone q hq hpq.id.symm

namespace Registry

theorem ofCatalogue_of_none {c : Catalogue} {name : String} (h : c.get? name = none) :
    ofCatalogue c (.text name) = .error (.undefinedRoot (.text name)) := by
  rw [ofCatalogue]
  split
  next p hp => cases h.symm.trans hp
  next => rfl

theorem ofCatalogue_of_some {c : Catalogue} {name : String} {p : Privilege}
    (h : c.get? name = some p) : ofCatalogue c (.text name) =
      if ha : p.isAggregate = true then .ok ⟨c, p, Catalogue.mem_of_get? h, ha⟩
      else .error (.atomicRoot name) := by
  rw [ofCatalogue]
  split
  next q hq =>
    cases h.symm.trans hq
    rfl
  next hq => cases h.symm.trans hq

/-- Whether a name may be that of the root is the same. -/
theorem agree_ofCatalogue {c c' : Catalogue} (h : c.Alike c') (root : Scalar) :
    Agree Error.Akin Alike (ofCatalogue c root) (ofCatalogue c' root) := by
  cases root with
  | text name =>
    cases hp : c.get? name with
    | none =>
      rw [ofCatalogue_of_none hp, ofCatalogue_of_none (h.get?_eq_none_iff.1 hp)]
      exact .error rfl
    | some p =>
      cases hq : c'.get? name with
      | none => cases (h.get?_eq_none_iff.2 hq).symm.trans hp
      | some q =>
        have hpq : p.Resembles q :=
          h.resembles (Catalogue.mem_of_get? hp) (Catalogue.mem_of_get? hq)
            ((Catalogue.id_of_get? hp).trans (Catalogue.id_of_get? hq).symm)
        rw [ofCatalogue_of_some hp, ofCatalogue_of_some hq]
        by_cases ha : p.isAggregate = true
        · rw [dif_pos ha, dif_pos (hpq.isAggregate ▸ ha)]
          exact .ok ⟨h, hpq.id⟩
        · rw [dif_neg ha, dif_neg (hpq.isAggregate ▸ ha)]
          exact .error rfl
  | _ => exact .error rfl

/-- Declarations of the same children make up registries that are alike. -/
theorem agree_ofDeclarations {decls decls' : List (String × List Scalar)}
    (h : Rearranges SameMembers decls decls') (root : Datum) :
    Agree Error.Akin Alike (ofDeclarations decls root) (ofDeclarations decls' root) := by
  refine (Definitions.agree_ofDeclarations h).bind fun ds ds' hds => ?_
  refine hds.agree_catalogue.bind fun c c' hc => ?_
  refine (Agree.refl (E := Error.Akin) (R := Eq) (fun _ => rfl) (fun _ => rfl) root.single).bind ?_
  rintro name _ rfl
  exact agree_ofCatalogue hc name

end Registry

/-! ## Children in any form -/

/-- Data that name the same children, if they name any. -/
def SameChildren (x y : Datum) : Prop := Agree Error.Akin SameMembers x.children y.children

namespace Datum

theorem kind_of_single_eq_error {x : Datum} {e : Error} (h : x.single = .error e) :
    e.kind = .unsuitableValue := by
  cases x <;> cases h <;> rfl

theorem kind_of_scalars_eq_error {x : Datum} {e : Error} (h : x.scalars = .error e) :
    e.kind = .unsuitableValue := by
  rw [scalars.eq_def] at h
  split at h
  · split at h
    · cases h
    · obtain ⟨d, _, hd⟩ := exists_of_mapM_eq_error h
      exact kind_of_single_eq_error hd
    · cases h
    · cases h
      rfl
  · cases h

/-- There is one kind of reason for which data name no children. -/
theorem kind_of_children_eq_error {x : Datum} {e : Error} (h : x.children = .error e) :
    e.kind = .unsuitableValue := by
  rw [children.eq_def] at h
  split at h
  · cases h
  · exact kind_of_scalars_eq_error h

theorem children_list (items : List Datum) : (list items).children = singles items := by
  cases items <;> rfl

end Datum

/-- Lists of the same children name the same children. -/
theorem sameChildren_list {xs ys : List Datum} (h : SameMembers xs ys) :
    SameChildren (.list xs) (.list ys) := by
  rw [SameChildren, Datum.children_list, Datum.children_list]
  refine (agree_mapM_of_corresponds (S := Eq) (sameMembers_iff_corresponds.1 h) ?_ ?_).imp
    fun _ _ _ _ => sameMembers_iff_corresponds.2
  · rintro x _ rfl
    exact .refl (E := Error.Akin) (R := Eq) (fun _ => rfl) (fun _ => rfl) x.single
  · intro x y e e' he he'
    exact (Datum.kind_of_single_eq_error he).trans (Datum.kind_of_single_eq_error he').symm

namespace Registry

/-- A definition with its children read. -/
def readDefinition (d : String × Datum) : Except Error (String × List Scalar) :=
  return (d.1, ← d.2.children)

theorem readDefinition_eq_ok {d : String × Datum} {decl : String × List Scalar}
    (h : readDefinition d = .ok decl) : decl.1 = d.1 := by
  obtain ⟨ss, _, h⟩ := exists_of_bind_eq_ok h
  cases h
  rfl

theorem kind_of_readDefinition_eq_error {d : String × Datum} {e : Error}
    (h : readDefinition d = .error e) : e.kind = .unsuitableValue := by
  rw [readDefinition] at h
  cases hd : d.2.children with
  | ok ss =>
    rw [hd] at h
    cases h
  | error e' =>
    rw [hd] at h
    cases h
    exact Datum.kind_of_children_eq_error hd

/-- Definitions of the same children make up registries that are alike. -/
theorem agree_ofData {ds ds' : List (String × Datum)} (h : Rearranges SameChildren ds ds')
    (root : Datum) : Agree Error.Akin Alike (ofData ds root) (ofData ds' root) := by
  have hread : Agree Error.Akin (Corresponds fun d d' => d.1 = d'.1 ∧ SameMembers d.2 d'.2)
      (ds.mapM readDefinition) (ds'.mapM readDefinition) := by
    refine agree_mapM_of_corresponds h.corresponds ?_ ?_
    · rintro d d' ⟨hid, hdd'⟩
      exact hdd'.bind fun ss ss' hss => .ok ⟨hid, hss⟩
    · intro d d' e e' he he'
      exact (kind_of_readDefinition_eq_error he).trans (kind_of_readDefinition_eq_error he').symm
  have hnames {ds : List (String × Datum)} {decls : List (String × List Scalar)}
      (hdecls : ds.mapM readDefinition = .ok decls) : decls.map Prod.fst = ds.map Prod.fst :=
    map_eq_of_forall₂ (forall₂_of_mapM hdecls).flip fun _ _ => readDefinition_eq_ok
  have hdecls : Agree Error.Akin (Rearranges SameMembers) (ds.mapM readDefinition)
      (ds'.mapM readDefinition) :=
    hread.imp fun decls decls' hd hd' hcorr =>
      ⟨(hnames hd).symm ▸ h.nodup, (hnames hd').symm ▸ h.nodup', hcorr⟩
  exact hdecls.bind fun decls decls' hdd' => agree_ofDeclarations hdd' root

end Registry

end AccessControl
