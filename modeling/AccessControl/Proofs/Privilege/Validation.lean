import AccessControl.Proofs.Privilege.Listing

/-!
# What is accepted as a registry

Definitions are accepted if every child that is declared is defined, if following the children
never leads back, and if the root is defined and has children. What is found wrong first is a
child without a definition, then a cycle, and then the root. A cycle is reported by a walk along
declared children that ends where it started.

* `Datum.Lists`: the forms in which the children of a privilege are given;
* `Definitions.ofDeclarations_declarations_cases`: declarations of names are taken over;
* `Catalogue.ids_arrange`: privileges are listed as they are defined;
* `Registry.validates_ofData`: when definitions are accepted, and what they are refused for.
-/

namespace AccessControl

/-- Data for the children of a privilege list names: as they are, as the words of a text, or
    none at all. -/
inductive Datum.Lists : Datum → List String → Prop
  | names (names : List String) : Lists (.list (names.map .text)) names
  | words (s : String) : Lists (.text s) ((Text.words s.toList).map String.ofList)
  | none : Lists .null []

theorem Datum.Lists.children_eq {d : Datum} {names : List String} (h : d.Lists names) :
    d.children = .ok (names.map .text) := by
  cases h with
  | names =>
    rw [children_list, singles, List.mapM_map]
    exact mapM_eq_ok_map fun _ _ => rfl
  | words s => rw [List.map_map]; rfl
  | none => rfl

namespace Definitions

variable {ds defs : Definitions} {a b : String}

/-! ## Names as declarations -/

/-- Definitions as declarations: the names of the children are texts. -/
def declarations (ds : Definitions) : List (String × List Scalar) :=
  ds.map fun d => (d.1, d.2.map .text)

/-- Definitions with each child once, in the order of its first mention. -/
def reduced (ds : Definitions) : Definitions := ds.map fun d => (d.1, d.2.eraseDups)

theorem names_reduced (ds : Definitions) : ds.reduced.names = ds.names := by
  rw [names, reduced, List.map_map]
  rfl

theorem childrenOf_reduced (ds : Definitions) (name : String) :
    ds.reduced.childrenOf name = (ds.childrenOf name).eraseDups := by
  induction ds with
  | nil => rfl
  | cons d ds ih =>
    obtain ⟨k, children⟩ := d
    rw [childrenOf, childrenOf] at ih ⊢
    rw [reduced, List.map_cons, ← reduced, List.lookup_cons, List.lookup_cons]
    dsimp only
    cases name == k with
    | true => rfl
    | false => exact ih

/-- Repetitions make no difference to who is a child of whom. -/
theorem child_reduced (ds : Definitions) : ds.reduced.Child = ds.Child := by
  funext a b
  rw [Child, Child, childrenOf_reduced, List.mem_eraseDups]

theorem complete_reduced (ds : Definitions) : ds.reduced.Complete ↔ ds.Complete := by
  rw [Complete, Complete, child_reduced, names_reduced]

theorem acyclic_reduced (ds : Definitions) : ds.reduced.Acyclic ↔ ds.Acyclic := by
  rw [Acyclic, Acyclic, child_reduced]

theorem closedWalk_reduced (ds : Definitions) {walk : List String} :
    ds.reduced.ClosedWalk walk ↔ ds.ClosedWalk walk := by
  constructor
  · exact fun h => ⟨ds.child_reduced ▸ h.chain, h.closed, h.moves⟩
  · exact fun h => ⟨ds.child_reduced.symm ▸ h.chain, h.closed, h.moves⟩

/-- An aggregate is what declares children. -/
theorem Follows.isAggregate_iff {c : Catalogue} (h : ds.reduced.Follows c) {p : Privilege}
    (hp : p ∈ c.privileges) : p.isAggregate = true ↔ ds.childrenOf p.id ≠ [] := by
  rw [h.isAggregate p hp, h.children p hp, childrenOf_reduced, Bool.not_eq_true',
    List.isEmpty_eq_false_iff, Ne, Ne, not_iff_not, List.eq_nil_iff_forall_not_mem,
    List.eq_nil_iff_forall_not_mem]
  simp only [List.mem_eraseDups]

/-- What declarations of names are taken over as. -/
theorem filterMap_text?_eraseDups (ns : List String) :
    (ns.map Scalar.text).eraseDups.filterMap Scalar.text? = ns.eraseDups := by
  have hmap : (ns.map Scalar.text).eraseDups = ns.eraseDups.map Scalar.text :=
    eraseDupsBy_map (fun a b => by rw [Bool.eq_iff_iff, Scalar.beq_text_iff, beq_iff_eq]) ns
  rw [hmap, List.filterMap_map]
  exact List.filterMap_some

theorem reduced_of_ofDeclarations (h : ofDeclarations ds.declarations = .ok defs) :
    defs = ds.reduced := by
  rw [(eq_of_ofDeclarations h).2, distinct, declarations, List.map_map, List.map_map]
  simp only [Function.comp_def, filterMap_text?_eraseDups]
  rfl

theorem child_iff_mem (hnodup : ds.names.Nodup) :
    ds.Child a b ↔ ∃ children, (a, children) ∈ ds ∧ b ∈ children := by
  rw [Child, childrenOf]
  constructor
  · intro h
    cases hl : ds.lookup a with
    | none => simp [hl] at h
    | some children =>
      rw [hl, Option.getD_some] at h
      obtain ⟨front, rest, rfl, _⟩ := List.lookup_eq_some_iff.1 hl
      exact ⟨children, List.mem_append_right _ List.mem_cons_self, h⟩
  · rintro ⟨children, hmem, hb⟩
    rwa [lookup_eq_some_of_mem hnodup hmem, Option.getD_some]

theorem mem_declarations {d : String × List Scalar} :
    d ∈ ds.declarations ↔ ∃ a children, (a, children) ∈ ds ∧ (a, children.map .text) = d := by
  rw [declarations, List.mem_map, Prod.exists]

theorem text_eq_declared_iff {s : Scalar} :
    (∃ d ∈ ds.declarations, s = .text d.1) ↔ ∃ name ∈ ds.names, s = .text name := by
  constructor
  · rintro ⟨d, hd, rfl⟩
    obtain ⟨a, children, hmem, rfl⟩ := mem_declarations.1 hd
    exact ⟨a, List.mem_map_of_mem hmem, rfl⟩
  · rintro ⟨name, hname, rfl⟩
    obtain ⟨d, hd, rfl⟩ := List.mem_map.1 hname
    exact ⟨_, mem_declarations.2 ⟨d.1, d.2, hd, rfl⟩, rfl⟩

theorem allDefined_declarations_iff (hnodup : ds.names.Nodup) :
    AllDefined ds.declarations ↔ ds.Complete := by
  simp only [AllDefined, text_eq_declared_iff]
  constructor
  · intro h a b hab
    obtain ⟨children, hmem, hb⟩ := (child_iff_mem hnodup).1 hab
    obtain ⟨name, hname, heq⟩ := h _ (mem_declarations.2 ⟨a, children, hmem, rfl⟩) (.text b)
      (List.mem_map_of_mem hb)
    rwa [Scalar.text.inj heq]
  · intro h d hd s hs
    obtain ⟨a, children, hmem, rfl⟩ := mem_declarations.1 hd
    obtain ⟨b, hb, rfl⟩ := List.mem_map.1 hs
    exact ⟨b, h a b ((child_iff_mem hnodup).2 ⟨children, hmem, hb⟩), rfl⟩

/-- Declarations of names are taken over, with repetitions dropped, if all of them are
    defined. Otherwise a child is reported that is not. -/
theorem ofDeclarations_declarations_cases (hnodup : ds.names.Nodup) :
    (ds.Complete ∧ ofDeclarations ds.declarations = .ok ds.reduced) ∨
      (¬ ds.Complete ∧ ∃ a b,
        ofDeclarations ds.declarations = .error (.undefinedChild a (.text b)) ∧
          ds.Child a b ∧ b ∉ ds.names) := by
  rw [← allDefined_declarations_iff hnodup]
  rcases ofDeclarations_cases ds.declarations with
    ⟨hall, defs, hdefs⟩ | ⟨hnot, a, s, he, ⟨d, hd, rfl, hs⟩, hundefined⟩
  · exact .inl ⟨hall, reduced_of_ofDeclarations hdefs ▸ hdefs⟩
  · obtain ⟨a, children, hmem, rfl⟩ := mem_declarations.1 hd
    obtain ⟨b, hb, rfl⟩ := List.mem_map.1 hs
    refine .inr ⟨hnot, a, b, he, (child_iff_mem hnodup).2 ⟨children, hmem, hb⟩, fun hname => ?_⟩
    obtain ⟨d, hd, heq⟩ := text_eq_declared_iff.2 ⟨b, hname, rfl⟩
    exact hundefined d hd heq

end Definitions

/-! ## Privileges in order -/

/-- A catalogue that has just the given names lists them in their order. -/
theorem Catalogue.ids_arrange {c : Catalogue} {names : List String} (hnodup : names.Nodup)
    (h : ∀ name, c.contains name = true ↔ name ∈ names) :
    (c.arrange names).privileges.map Privilege.id = names := by
  have hrest : (c.privileges.filter fun p => !names.contains p.id) = [] := by
    refine List.filter_eq_nil_iff.2 fun p hp => ?_
    have hmem := (h p.id).1 (contains_iff.2 ⟨p, hp, rfl⟩)
    simpa using hmem
  change (c.pick names.eraseDups ++ c.privileges.filter _).map _ = _
  rw [hrest, List.append_nil, eraseDups_of_nodup hnodup,
    ids_pick fun name hname => (h name).2 hname]

theorem Definitions.ids_catalogue {ds : Definitions} {c : Catalogue} (hds : ds.Complete)
    (hnodup : ds.names.Nodup) (h : ds.catalogue = .ok c) :
    c.privileges.map Privilege.id = ds.names := by
  obtain ⟨_, hcontains⟩ := follows_catalogue hds h
  obtain ⟨built, _, h⟩ := exists_of_bind_eq_ok h
  cases h
  refine Catalogue.ids_arrange hnodup fun name => ?_
  rw [← hcontains, Catalogue.contains_iff, Catalogue.contains_iff]
  simp only [Catalogue.mem_arrange]

namespace Registry

variable {ds : List (String × Datum)} {decls : Definitions} {root : Scalar}

/-! ## One check after the other -/

/-- Children that are listed in any form are declared by their names. -/
theorem ofData_eq_ofDeclarations
    (h : List.Forall₂ (fun d decl => d.1 = decl.1 ∧ d.2.Lists decl.2) ds decls) (root : Datum) :
    ofData ds root = ofDeclarations decls.declarations root := by
  have hread : ds.mapM readDefinition = .ok decls.declarations := by
    induction h with
    | nil => rfl
    | cons hd _ ih =>
      rw [List.mapM_cons, ih, readDefinition, hd.1, hd.2.children_eq]
      rfl
  change (ds.mapM readDefinition >>= fun decls => ofDeclarations decls root) = _
  rw [hread]
  rfl

theorem ofDeclarations_of_not_complete (hnodup : decls.names.Nodup) (h : ¬ decls.Complete)
    (root : Datum) :
    ∃ a b, ofDeclarations decls.declarations root = .error (.undefinedChild a (.text b)) ∧
      decls.Child a b ∧ b ∉ decls.names := by
  rcases Definitions.ofDeclarations_declarations_cases hnodup with
    ⟨hcomplete, _⟩ | ⟨_, a, b, he, hab⟩
  · exact absurd hcomplete h
  · refine ⟨a, b, ?_, hab⟩
    rw [ofDeclarations, he]
    rfl

/-- If all children are defined, there is a cycle, or only the root is left to be looked up. -/
theorem ofDeclarations_of_complete (hnodup : decls.names.Nodup) (h : decls.Complete)
    (root : Scalar) :
    (¬ decls.Acyclic ∧ ∃ walk, decls.ClosedWalk walk ∧
        ofDeclarations decls.declarations (.scalar root) = .error (.cycle walk)) ∨
      (decls.Acyclic ∧ ∃ c, decls.reduced.Follows c ∧
        c.privileges.map Privilege.id = decls.names ∧
        ofDeclarations decls.declarations (.scalar root) = ofCatalogue c root) := by
  have hreduced : decls.reduced.Complete := decls.complete_reduced.2 h
  have hread : ofDeclarations decls.declarations (.scalar root) =
      decls.reduced.catalogue >>= fun c => ofCatalogue c root := by
    rcases Definitions.ofDeclarations_declarations_cases hnodup with ⟨_, hdecls⟩ | ⟨hnot, _⟩
    · rw [ofDeclarations, hdecls]
      rfl
    · exact absurd h hnot
  rw [hread, ← decls.acyclic_reduced]
  rcases Definitions.catalogue_cases hreduced with ⟨hacyclic, c, hc⟩ | ⟨hcyclic, walk, hc, hwalk⟩
  · have hids := Definitions.ids_catalogue hreduced (decls.names_reduced ▸ hnodup) hc
    refine .inr ⟨hacyclic, c, (Definitions.follows_catalogue hreduced hc).1, ?_, by rw [hc]; rfl⟩
    rw [hids, decls.names_reduced]
  · exact .inl ⟨hcyclic, walk, decls.closedWalk_reduced.1 hwalk, by rw [hc]; rfl⟩

/-- A root that is not defined is not found. -/
theorem ofCatalogue_of_undefined {c : Catalogue}
    (hids : c.privileges.map Privilege.id = decls.names)
    (h : ∀ name ∈ decls.names, root ≠ .text name) :
    ofCatalogue c root = .error (.undefinedRoot root) := by
  cases root with
  | text name =>
    refine ofCatalogue_of_none (Option.not_isSome_iff_eq_none.1 fun hsome => ?_)
    obtain ⟨p, hp, rfl⟩ := Catalogue.contains_iff.1 hsome
    exact h p.id (hids ▸ List.mem_map_of_mem hp) rfl
  | _ => rfl

/-- A root that is defined is accepted if it has children. -/
theorem ofCatalogue_of_defined {c : Catalogue} (hfollows : decls.reduced.Follows c)
    (hids : c.privileges.map Privilege.id = decls.names) {name : String} (h : name ∈ decls.names) :
    (decls.childrenOf name ≠ [] ∧ ∃ r, ofCatalogue c (.text name) = .ok r) ∨
      (decls.childrenOf name = [] ∧ ofCatalogue c (.text name) = .error (.atomicRoot name)) := by
  obtain ⟨p, hp, rfl⟩ := List.mem_map.1 (hids ▸ h)
  rw [ofCatalogue_of_some (Catalogue.get?_eq_some_of_mem hp)]
  by_cases ha : p.isAggregate = true
  · exact .inl ⟨(hfollows.isAggregate_iff hp).1 ha, _, dif_pos ha⟩
  · exact .inr ⟨not_not.1 fun hne => ha ((hfollows.isAggregate_iff hp).2 hne), dif_neg ha⟩

/-! ## Main results -/

/-- The registry cannot be made, for a reason of a kind, which is told in words. -/
def FailsWith (x : Except Error Registry) (kind : Error.Kind) (wording : String) : Prop :=
  ∃ e, x = .error e ∧ e.kind = kind ∧ e.wording? = some wording

/-- What comes of definitions and the name of a root. -/
structure Validates (decls : Definitions) (root : Scalar) (x : Except Error Registry) : Prop where
  /-- They are accepted if all children are defined, there is no cycle, and the root is defined
      and has children. -/
  accepted_iff : (∃ r, x = .ok r) ↔ decls.Complete ∧ decls.Acyclic ∧
    ∃ name ∈ decls.names, root = .text name ∧ decls.childrenOf name ≠ []
  /-- If a child is not defined, one is reported. -/
  dangling : ¬ decls.Complete → ∃ a b, decls.Child a b ∧ b ∉ decls.names ∧
    FailsWith x .danglingPrivilege ("Privilege " ++ a ++ " declares undefined child " ++ b)
  /-- Otherwise a cycle is, if there is one. -/
  cyclic : decls.Complete → ¬ decls.Acyclic → ∃ walk, decls.ClosedWalk walk ∧
    FailsWith x .privilegeCycle
      ("Privilege definitions contain a cycle: " ++ String.intercalate " -> " walk)
  /-- Otherwise the root may not be defined. -/
  rootless : decls.Complete → decls.Acyclic → (∀ name ∈ decls.names, root ≠ .text name) →
    FailsWith x .danglingPrivilege ("Root privilege " ++ root.plain ++ " is not defined")
  /-- Otherwise it may have no children. -/
  atomic : decls.Complete → decls.Acyclic → ∀ name ∈ decls.names, root = .text name →
    decls.childrenOf name = [] →
      FailsWith x .invalidDefinition ("Root privilege " ++ name ++ " is not an aggregate")
  /-- What is accepted has the privileges that are defined, in their order. Those that declare
      children are aggregates, of these children in their order, with repetitions dropped. -/
  built : ∀ r, x = .ok r → root = .text r.root.id ∧ r.privileges.map Privilege.id = decls.names ∧
    ∀ p ∈ r.privileges, (p.isAggregate = true ↔ decls.childrenOf p.id ≠ []) ∧
      p.children = (decls.childrenOf p.id).eraseDups

namespace Validates

variable {x : Except Error Registry} {a b : String} {walk : List String} {c : Catalogue}

theorem of_not_complete (h : ¬ decls.Complete) (hab : decls.Child a b) (hb : b ∉ decls.names)
    (he : x = .error (.undefinedChild a (.text b))) : Validates decls root x := by
  subst he
  exact {
    accepted_iff := iff_of_false nofun fun hall => h hall.1
    dangling _ := ⟨a, b, hab, hb, _, rfl, rfl, rfl⟩
    cyclic hcomplete := absurd hcomplete h
    rootless hcomplete := absurd hcomplete h
    atomic hcomplete := absurd hcomplete h
    built := nofun }

theorem of_not_acyclic (hcomplete : decls.Complete) (h : ¬ decls.Acyclic)
    (hwalk : decls.ClosedWalk walk) (he : x = .error (.cycle walk)) : Validates decls root x := by
  subst he
  exact {
    accepted_iff := iff_of_false nofun fun hall => h hall.2.1
    dangling hnot := absurd hcomplete hnot
    cyclic _ _ := ⟨walk, hwalk, _, rfl, rfl, rfl⟩
    rootless _ hacyclic := absurd hacyclic h
    atomic _ hacyclic := absurd hacyclic h
    built := nofun }

/-- Without an undefined child and without a cycle, it depends on the root. -/
theorem of_acyclic (hcomplete : decls.Complete) (hacyclic : decls.Acyclic)
    (hfollows : decls.reduced.Follows c) (hids : c.privileges.map Privilege.id = decls.names) :
    Validates decls root (ofCatalogue c root) where
  accepted_iff := by
    by_cases hroot : ∃ name ∈ decls.names, root = .text name
    · obtain ⟨name, hname, rfl⟩ := hroot
      rcases ofCatalogue_of_defined hfollows hids hname with ⟨hne, hr⟩ | ⟨hnil, he⟩
      · exact iff_of_true hr ⟨hcomplete, hacyclic, name, hname, rfl, hne⟩
      · rw [he]
        refine iff_of_false nofun fun ⟨_, _, _, _, heq, hne⟩ => ?_
        cases heq
        exact hne hnil
    · rw [ofCatalogue_of_undefined hids fun name hname heq => hroot ⟨name, hname, heq⟩]
      exact iff_of_false nofun fun ⟨_, _, name, hname, heq, _⟩ => hroot ⟨name, hname, heq⟩
  dangling h := absurd hcomplete h
  cyclic _ h := absurd hacyclic h
  rootless _ _ h := ⟨_, ofCatalogue_of_undefined hids h, rfl, rfl⟩
  atomic _ _ name hname heq hnil := by
    subst heq
    rcases ofCatalogue_of_defined hfollows hids hname with ⟨hne, _⟩ | ⟨_, he⟩
    · exact absurd hnil hne
    · exact ⟨_, he, rfl, rfl⟩
  built r hr := by
    obtain ⟨rfl, hroot⟩ := exists_of_ofCatalogue hr
    refine ⟨hroot, hids, fun p hp => ⟨hfollows.isAggregate_iff hp, ?_⟩⟩
    rw [hfollows.children p hp, Definitions.childrenOf_reduced]

end Validates

/-- Definitions of privileges, with the children of each listed in one form or another, are
    accepted as a registry if nothing is wrong with them, and refused otherwise for the first
    thing that is. -/
theorem validates_ofData (hnodup : decls.names.Nodup)
    (h : List.Forall₂ (fun d decl => d.1 = decl.1 ∧ d.2.Lists decl.2) ds decls) (root : Scalar) :
    Validates decls root (ofData ds (.scalar root)) := by
  rw [ofData_eq_ofDeclarations h]
  by_cases hcomplete : decls.Complete
  · rcases ofDeclarations_of_complete hnodup hcomplete root with
      ⟨hcyclic, walk, hwalk, he⟩ | ⟨hacyclic, c, hfollows, hids, he⟩
    · exact .of_not_acyclic hcomplete hcyclic hwalk he
    · exact he ▸ .of_acyclic hcomplete hacyclic hfollows hids
  · obtain ⟨a, b, he, hab, hb⟩ := ofDeclarations_of_not_complete hnodup hcomplete (.scalar root)
    exact .of_not_complete hcomplete hab hb he

/-- A privilege that two ways lead to, and another one that leads back to the first. -/
def looped : List (String × Datum) :=
  [("doc:all", .text "doc:view doc:edit\tdoc:view"), ("doc:view", .null),
    ("doc:edit", .list [.text "doc:view", .text "doc:all"])]

/-- They are refused for the cycle. -/
theorem validates_ofData_looped :
    ∃ decls : Definitions, decls.names.Nodup ∧
      List.Forall₂ (fun d decl => d.1 = decl.1 ∧ d.2.Lists decl.2) looped decls ∧
      ∃ walk, decls.ClosedWalk walk ∧ FailsWith (ofData looped (.text "doc:all")) .privilegeCycle
        ("Privilege definitions contain a cycle: " ++ String.intercalate " -> " walk) := by
  let decls : Definitions := [("doc:all", ["doc:view", "doc:edit", "doc:view"]), ("doc:view", []),
    ("doc:edit", ["doc:view", "doc:all"])]
  have hnodup : decls.names.Nodup := by decide
  have hwords : (Text.words "doc:view doc:edit\tdoc:view".toList).map String.ofList =
      ["doc:view", "doc:edit", "doc:view"] := by decide
  have hlists : List.Forall₂ (fun d decl => d.1 = decl.1 ∧ d.2.Lists decl.2) looped decls :=
    .cons ⟨rfl, hwords ▸ .words _⟩
      (.cons ⟨rfl, .none⟩ (.cons ⟨rfl, .names ["doc:view", "doc:all"]⟩ .nil))
  have hcomplete : decls.Complete :=
    (Definitions.allDefined_declarations_iff hnodup).1
      (Definitions.undefined?_eq_none_iff.1 (by decide +kernel))
  have hedit : "doc:edit" ∈ decls.childrenOf "doc:all" := by decide
  have hall : "doc:all" ∈ decls.childrenOf "doc:edit" := by decide
  have hcyclic : ¬ decls.Acyclic := fun h => h "doc:all" (.tail (.single hedit) hall)
  exact ⟨decls, hnodup, hlists, (validates_ofData hnodup hlists (.text "doc:all")).cyclic
    hcomplete hcyclic⟩

end Registry

end AccessControl
