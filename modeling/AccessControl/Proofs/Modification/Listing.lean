import AccessControl.Proofs.Modification.Likeness
import AccessControl.Proofs.Privilege.Listing

/-!
# Independence of the listing

What becomes of the entries of a principal depends on what is defined, and not on the
order in which it is listed: neither that of the definitions, nor that of the children of
a definition or of the privileges of an entry, nor how often one of these is repeated.

* `Registry.Interchangeable`: registries that make the same of the same entries;
* `Registry.independent_of_listing`: definitions in another order make up such registries, or
  are both refused for the same kind of reason.
-/

namespace AccessControl

namespace Registry

/-- Registries that make the same of the same entries, whichever of the two the privileges
    of an entry were looked up in. -/
structure Interchangeable (r r' : Registry) : Prop where
  /-- An amendment leads to the same entries, with the same remarks. -/
  amend : ∀ acl acl', List.Forall₂ (Entry.Alike r r') acl acl' →
    ∀ (provider : Provider) (principal : Principal) (path : Option String) (a : Amendment),
      Journal.Agree (List.Forall₂ fun a b : Entry => a.same b = true)
        (r.amend provider acl principal path a) (r'.amend provider acl' principal path a)
  /-- So do the modifications of a request. -/
  modify : ∀ acl acl', List.Forall₂ (Entry.Alike r r') acl acl' →
    ∀ (provider : Provider) (principal : Principal) (path : Option String)
      (parameters : List (String × Datum)),
      Journal.Agree (List.Forall₂ fun a b : Entry => a.same b = true)
        (r.modify provider acl principal path parameters)
        (r'.modify provider acl' principal path parameters)
  /-- The same is told of any principal. -/
  decisionsOf : ∀ acl acl', List.Forall₂ (Entry.Alike r r') acl acl' →
    ∀ principal : Principal, Agree Eq (fun m n : DecisionMap => m.same n = true)
      (r.decisionsOf acl principal) (r'.decisionsOf acl' principal)

theorem Alike.interchangeable {r r' : Registry} (h : r.Alike r') : r.Interchangeable r' where
  amend _ _ hacl := h.agree_amend hacl
  modify _ _ hacl := h.agree_modify hacl
  decisionsOf _ _ hacl := h.agree_decisionsOf hacl

/-- Definitions in another order are accepted as well, or refused for the same kind of
    reason; and if they are accepted, they make the same of the same entries. -/
theorem independent_of_listing {ds ds' : List (String × Datum)}
    (h : Rearranges SameChildren ds ds') (root : Datum) :
    Agree Error.Akin Interchangeable (ofData ds root) (ofData ds' root) :=
  (agree_ofData h root).imp fun _ _ _ _ hr => hr.interchangeable

/-- The definitions of a diamond. -/
def diamondListed : List (String × Datum) :=
  [("doc:read", .list []), ("doc:share", .list []), ("doc:write", .list []),
    ("doc:view", .list [.text "doc:read", .text "doc:share"]),
    ("doc:edit", .list [.text "doc:write", .text "doc:share"]),
    ("doc:all", .list [.text "doc:view", .text "doc:edit"])]

/-- The same definitions from the top down, and one child twice. -/
def diamondRelisted : List (String × Datum) :=
  [("doc:all", .list [.text "doc:edit", .text "doc:view", .text "doc:edit"]),
    ("doc:edit", .list [.text "doc:share", .text "doc:write"]),
    ("doc:view", .list [.text "doc:share", .text "doc:read"]),
    ("doc:write", .list []), ("doc:share", .list []), ("doc:read", .list [])]

theorem rearranges_diamond : Rearranges SameChildren diamondListed diamondRelisted := by
  have hreverse : List.Forall₂ (fun d d' : String × Datum => d.1 = d'.1 ∧ SameChildren d.2 d'.2)
      diamondListed diamondRelisted.reverse :=
    .cons ⟨rfl, sameChildren_list fun _ => Iff.rfl⟩ <|
    .cons ⟨rfl, sameChildren_list fun _ => Iff.rfl⟩ <|
    .cons ⟨rfl, sameChildren_list fun _ => Iff.rfl⟩ <|
    .cons ⟨rfl, sameChildren_list fun _ => by simp [or_comm]⟩ <|
    .cons ⟨rfl, sameChildren_list fun _ => by simp [or_comm]⟩ <|
    .cons ⟨rfl, sameChildren_list fun _ => by simp [or_comm]⟩ .nil
  have hcorr := corresponds_of_forall₂ hreverse
  refine ⟨by decide, by decide, fun d hd => ?_, fun d hd => hcorr.back d (List.mem_reverse.2 hd)⟩
  obtain ⟨d', hd', h⟩ := hcorr.forth d hd
  exact ⟨d', List.mem_reverse.1 hd', h⟩

/-- A guest is allowed everything. -/
def guestEntry (everything : List Privilege) : Entry := ⟨.text "guest", .allow, everything, ∅⟩

theorem alike_guestEntry {r r' : Registry} (h : r.Alike r') :
    Entry.Alike r r' (guestEntry [r.root]) (guestEntry [r'.root, r.root]) where
  principal := rfl
  effect := rfl
  restrictions := rfl
  names k := by simp [guestEntry, h.root]
  left := by simpa [guestEntry] using .inl r.root_mem
  right := by simpa [guestEntry] using ⟨.inr r'.root_mem, .inl r.root_mem⟩

/-- Both listings of the diamond are accepted, and make the same of entries. -/
theorem independent_of_listing_diamond :
    Rearranges SameChildren diamondListed diamondRelisted ∧
    ∃ r r', ofData diamondListed (.text "doc:all") = .ok r ∧
      ofData diamondRelisted (.text "doc:all") = .ok r' ∧ r.Interchangeable r' ∧
      List.Forall₂ (Entry.Alike r r') [guestEntry [r.root]] [guestEntry [r'.root, r.root]] := by
  have hok {x : Except Error Registry} (h : x.toOption.isSome = true) : ∃ r, x = .ok r := by
    cases x with
    | error e => cases h
    | ok r => exact ⟨r, rfl⟩
  obtain ⟨r, hr⟩ := hok (x := ofData diamondListed (.text "doc:all")) (by decide +kernel)
  obtain ⟨r', hr'⟩ := hok (x := ofData diamondRelisted (.text "doc:all")) (by decide +kernel)
  have h := independent_of_listing rearranges_diamond (.text "doc:all")
  have halike := agree_ofData rearranges_diamond (.text "doc:all")
  rw [hr, hr'] at h halike
  exact ⟨rearranges_diamond, r, r', hr, hr', rel_of_agree_ok h,
    .cons (alike_guestEntry (rel_of_agree_ok halike)) .nil⟩

end Registry

end AccessControl
