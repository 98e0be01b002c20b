import AccessControl.Proofs.Datum.Scalar
import AccessControl.Proofs.Distinct
import AccessControl.Proofs.Privilege.Definitions

/-!
# Accepted registries

A registry is accepted if the children of its privileges are all defined, if they
lead to no cycle, and if its root is defined and has children. What is known of an
accepted registry beyond what every registry satisfies is that it is made as it is
declared, so that none of its aggregates is empty.

* `Definitions.ofDeclarations_cases`: declarations are refused if one of them has a
  child that is not defined;
* `Registry.Accepted`: what a list of declarations builds;
* `Registry.Accepted.exists_covers`: every privilege of an accepted registry has a leaf.
-/

namespace AccessControl

namespace Definitions

variable {decls : List (String × List Scalar)} {ds : Definitions}

/-- All children of declarations are texts, and declared. -/
def AllDefined (decls : List (String × List Scalar)) : Prop :=
  ∀ d ∈ decls, ∀ s ∈ d.2, ∃ d' ∈ decls, s = .text d'.1

theorem mem_distinct {d : String × List Scalar} :
    d ∈ distinct decls ↔ ∃ d₀ ∈ decls, d = (d₀.1, d₀.2.eraseDups) := by
  rw [distinct, List.mem_map]
  simp only [eq_comm]

theorem text_mem_eraseDups {ss : List Scalar} {b : String} :
    .text b ∈ ss.eraseDups ↔ .text b ∈ ss := by
  refine ⟨mem_of_mem_eraseDupsBy, fun h => ?_⟩
  obtain ⟨s, hs, hbeq⟩ := exists_mem_eraseDupsBy (r := (· == ·)) (fun _ => BEq.rfl) h
  exact Scalar.eq_text_of_beq hbeq ▸ hs

theorem isDefined_iff {s : Scalar} :
    isDefined (distinct decls) s = true ↔ ∃ d ∈ decls, s = .text d.1 := by
  cases s with
  | text name =>
    rw [isDefined, List.any_eq_true]
    constructor
    · rintro ⟨d, hd, hname⟩
      obtain ⟨d₀, hd₀, rfl⟩ := mem_distinct.1 hd
      exact ⟨d₀, hd₀, congrArg Scalar.text (eq_of_beq hname).symm⟩
    · rintro ⟨d, hd, hname⟩
      exact ⟨_, mem_distinct.2 ⟨d, hd, rfl⟩, beq_iff_eq.2 (Scalar.text.inj hname).symm⟩
  | _ => exact ⟨nofun, fun ⟨_, _, h⟩ => nomatch h⟩

theorem undefined?_eq_none_iff : undefined? (distinct decls) = none ↔ AllDefined decls := by
  have hnone : undefined? (distinct decls) = none ↔
      ∀ d ∈ distinct decls, ∀ s ∈ d.2, ∃ d' ∈ decls, s = .text d'.1 := by
    simp [undefined?, List.findSome?_eq_none_iff, List.find?_eq_none, isDefined_iff]
  rw [hnone]
  constructor
  · intro h d hd s hs
    -- What is dropped as a repetition is the same text as what is kept.
    obtain ⟨t, ht, hst⟩ := exists_mem_eraseDupsBy (r := (· == ·)) (fun _ => BEq.rfl) hs
    obtain ⟨d', hd', rfl⟩ := h _ (mem_distinct.2 ⟨d, hd, rfl⟩) t ht
    exact ⟨d', hd', Scalar.eq_text_of_beq (BEq.symm hst)⟩
  · intro h d hd s hs
    obtain ⟨d₀, hd₀, rfl⟩ := mem_distinct.1 hd
    exact h d₀ hd₀ s (mem_of_mem_eraseDupsBy hs)

/-- Declarations are taken over if all children are defined. Otherwise one is reported that is
    not. -/
theorem ofDeclarations_cases (decls : List (String × List Scalar)) :
    (AllDefined decls ∧ ∃ ds, ofDeclarations decls = .ok ds) ∨
      (¬ AllDefined decls ∧ ∃ a s, ofDeclarations decls = .error (.undefinedChild a s) ∧
        (∃ d ∈ decls, d.1 = a ∧ s ∈ d.2) ∧ ∀ d ∈ decls, s ≠ .text d.1) := by
  cases h : undefined? (distinct decls) with
  | none => exact .inl ⟨undefined?_eq_none_iff.1 h, _, by rw [ofDeclarations, h]⟩
  | some e =>
    obtain ⟨d, hd, herror⟩ := List.exists_of_findSome?_eq_some h
    obtain ⟨s, hs, rfl⟩ := Option.map_eq_some_iff.1 herror
    obtain ⟨d₀, hd₀, rfl⟩ := mem_distinct.1 hd
    refine .inr ⟨fun hall => ?_, _, s, by rw [ofDeclarations, h],
      ⟨d₀, hd₀, rfl, mem_of_mem_eraseDupsBy (List.mem_of_find?_eq_some hs)⟩, fun d' hd' heq => ?_⟩
    · rw [undefined?_eq_none_iff.2 hall] at h
      cases h
    · have hundefined := List.find?_some hs
      rw [isDefined_iff.2 ⟨d', hd', heq⟩] at hundefined
      cases hundefined

theorem eq_of_ofDeclarations (h : ofDeclarations decls = .ok ds) :
    AllDefined decls ∧ ds = (distinct decls).map fun d => (d.1, d.2.filterMap Scalar.text?) := by
  rw [ofDeclarations] at h
  split at h
  · cases h
  next hnone =>
    cases h
    exact ⟨undefined?_eq_none_iff.1 hnone, rfl⟩

theorem names_of_ofDeclarations (h : ofDeclarations decls = .ok ds) :
    ds.names = decls.map Prod.fst := by
  rw [(eq_of_ofDeclarations h).2, names, distinct, List.map_map, List.map_map]
  rfl

/-- A declared child is a text among the children of a declaration. -/
theorem exists_of_child (h : ofDeclarations decls = .ok ds) {a b : String} (hab : ds.Child a b) :
    ∃ d ∈ decls, d.1 = a ∧ .text b ∈ d.2 := by
  rw [Child, childrenOf] at hab
  cases hl : ds.lookup a with
  | none => simp [hl] at hab
  | some bs =>
    rw [hl, Option.getD_some] at hab
    obtain ⟨l₁, l₂, hds, _⟩ := List.lookup_eq_some_iff.1 hl
    have hmem : (a, bs) ∈ ds := hds ▸ List.mem_append_right _ List.mem_cons_self
    rw [(eq_of_ofDeclarations h).2] at hmem
    obtain ⟨d, hd, heq⟩ := List.mem_map.1 hmem
    obtain ⟨d₀, hd₀, rfl⟩ := mem_distinct.1 hd
    cases heq
    obtain ⟨s, hs, htext⟩ := List.mem_filterMap.1 hab
    cases s with
    | text t =>
      cases htext
      exact ⟨d₀, hd₀, rfl, mem_of_mem_eraseDupsBy hs⟩
    | _ => cases htext

theorem complete_of_ofDeclarations (h : ofDeclarations decls = .ok ds) : ds.Complete := by
  intro a b hab
  obtain ⟨d, hd, rfl, hb⟩ := exists_of_child h hab
  obtain ⟨d', hd', heq⟩ := (eq_of_ofDeclarations h).1 d hd _ hb
  cases heq
  rw [names_of_ofDeclarations h]
  exact List.mem_map_of_mem hd'

end Definitions

namespace Registry

variable {r : Registry} {p : Privilege}

/-- A registry is accepted if it is that of some declarations. -/
def Accepted (r : Registry) : Prop := ∃ decls root, ofDeclarations decls root = .ok r

theorem accepted_of_ofData {ds : List (String × Datum)} {root : Datum}
    (h : ofData ds root = .ok r) : r.Accepted := by
  obtain ⟨decls, _, h⟩ := exists_of_bind_eq_ok h
  exact ⟨decls, root, h⟩

theorem accepted_of_get {x : Except Error Registry} {decls : List (String × List Scalar)}
    {root : Datum} (hx : x = ofDeclarations decls root) (h : x.toOption.isSome = true) :
    (x.toOption.get h).Accepted := by
  refine ⟨decls, root, ?_⟩
  rw [← hx]
  cases x with
  | error e => cases h
  | ok r => rfl

theorem exists_of_ofCatalogue {c : Catalogue} {s : Scalar} (h : ofCatalogue c s = .ok r) :
    r.catalogue = c ∧ s = .text r.root.id := by
  rw [ofCatalogue.eq_def] at h
  split at h
  · split at h
    next hp =>
      split at h
      · cases h
        exact ⟨rfl, congrArg Scalar.text (Catalogue.id_of_get? hp).symm⟩
      · cases h
    · cases h
  · cases h

/-- An accepted registry has the catalogue of definitions that are complete. -/
theorem Accepted.exists_definitions (h : r.Accepted) :
    ∃ ds : Definitions, ds.Complete ∧ ds.catalogue = .ok r.catalogue := by
  obtain ⟨decls, root, h⟩ := h
  obtain ⟨ds, hds, h⟩ := exists_of_bind_eq_ok h
  obtain ⟨c, hc, h⟩ := exists_of_bind_eq_ok h
  obtain ⟨s, _, h⟩ := exists_of_bind_eq_ok h
  obtain ⟨rfl, _⟩ := exists_of_ofCatalogue h
  exact ⟨ds, Definitions.complete_of_ofDeclarations hds, hc⟩

/-- No aggregate of an accepted registry is empty. -/
theorem Accepted.children_ne_nil (h : r.Accepted) (hp : p ∈ r.privileges)
    (ha : p.isAggregate = true) : p.children ≠ [] := by
  obtain ⟨ds, hds, hc⟩ := h.exists_definitions
  rintro hnil
  rw [(Definitions.follows_catalogue hds hc).1.isAggregate p hp, hnil] at ha
  cases ha

/-- Every privilege of an accepted registry has a leaf. -/
theorem Accepted.exists_covers (h : r.Accepted) (hp : p ∈ r.privileges) :
    ∃ leaf, p.covers leaf = true := by
  have hbundle (b : Bundle) : ∀ p ∈ r.privileges, p.bundle = b → ∃ leaf, b.covers leaf = true := by
    induction b using Bundle.descent with
    | step b ih =>
      rintro p hp rfl
      cases ha : p.isAggregate with
      | false =>
        rw [eq_atomic hp ha]
        exact ⟨p.id, Bundle.covers_iff_of_atomic.2 rfl⟩
      | true =>
        -- A leaf of a child is a leaf of the aggregate.
        obtain ⟨id, hid⟩ := List.exists_mem_of_ne_nil _ (h.children_ne_nil hp ha)
        obtain ⟨b, hb, rfl⟩ := List.mem_map.1 hid
        obtain ⟨q, hq, rfl⟩ := r.catalogue.closed p hp b hb
        obtain ⟨leaf, hleaf⟩ := ih q.bundle hb q hq rfl
        exact ⟨leaf, (Bundle.covers_iff_of_children (leaves?_isSome hp) ha).2 ⟨_, hb, hleaf⟩⟩
  obtain ⟨leaf, hleaf⟩ := hbundle p.bundle p hp rfl
  exact ⟨leaf, p.covers_eq leaf ▸ hleaf⟩

theorem accepted_diamond : diamond.Accepted := accepted_of_get rfl diamond?_isOk

end Registry

end AccessControl
