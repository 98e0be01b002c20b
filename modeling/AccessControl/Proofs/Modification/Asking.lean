import AccessControl.Proofs.Entry.Render
import AccessControl.Proofs.Modification.Values

/-!
# What parameters ask of privileges

A request may consist of nothing but parameters that say what is done with privileges. Those
that are about the same privilege are taken together, and so are the same values for it; of
its parameters and their values only matters which there are. The privileges are gone through
from general to specific, each with its values from the weakest to the strongest one.

* `Parameter.asked`: the values for a privilege, all that there are;
* `Modifications.exists_collects`: a request is read as the values for each privilege;
* `Registry.asks`, `Registry.askedEdits`: the privileges and the edits of a request;
* `Registry.exists_plan`: they are what is planned;
* `Registry.askedEdits_congr`: requests that say the same are carried out by the same edits.
-/

namespace AccessControl

/-! ## Values -/

namespace PrivilegeValue

/-- All values, in the order in which a request applies them: what comes later wins. -/
def byStrength : List PrivilegeValue := [deny, denied, none, granted, allow]

theorem reverse_inOrder : inOrder.reverse = byStrength := rfl

/-- The values that data are read as. -/
def allOf (d : Datum) : List PrivilegeValue := (d.values.toOption.getD []).filterMap ofDatum?

end PrivilegeValue

/-- Data that can be read as values: a text, or a collection of texts and of data that are not
    true. -/
def Datum.Legible (d : Datum) : Prop :=
  ∃ vs, d.values = .ok vs ∧ ∀ v ∈ vs, ∃ text, v.textOrEmpty = .ok text

theorem Datum.legible_text (text : String) : (Datum.text text).Legible :=
  ⟨[.text text], rfl, List.forall_mem_singleton.2 ⟨text, rfl⟩⟩

theorem Datum.legible_texts (texts : List String) : (Datum.list (texts.map .text)).Legible := by
  refine ⟨texts.map .text, rfl, fun v hv => ?_⟩
  obtain ⟨text, _, rfl⟩ := List.mem_map.1 hv
  exact ⟨text, rfl⟩

theorem Modifications.result_readAll {d : Datum} {vs : List Datum} (hvs : d.values = .ok vs)
    (h : ∀ v ∈ vs, ∃ text, v.textOrEmpty = .ok text) :
    (readAll PrivilegeValue.read vs).result = .ok (PrivilegeValue.allOf d) := by
  rw [readAll_privilegeValues h, PrivilegeValue.allOf, hvs]
  rfl

/-! ## Parameters -/

namespace Parameter

variable {parameters : List (String × Datum)} {name : String}

/-- Whether a parameter says what is done with the privilege of a name. -/
def isAbout (name : String) (q : String × Datum) : Bool := ofName? q.1 == some (.privilege name)

/-- Whether parameters say what is done with the privilege of a name, if only by values that
    are no known words. -/
def mentions (parameters : List (String × Datum)) (name : String) : Bool :=
  parameters.any (isAbout name)

/-- The values for the privilege of a name, one after the other. -/
def asked (parameters : List (String × Datum)) (name : String) : List PrivilegeValue :=
  (parameters.filter (isAbout name)).flatMap fun q => PrivilegeValue.allOf q.2

/-- The different values for the privilege of a name, from the weakest to the strongest one. -/
def strongestLast (parameters : List (String × Datum)) (name : String) : List PrivilegeValue :=
  PrivilegeValue.byStrength.filter (asked parameters name).contains

theorem asked_of_not_mentions (h : mentions parameters name = false) :
    asked parameters name = [] := by
  rw [mentions, List.any_eq_false] at h
  rw [asked, List.filter_eq_nil_iff.2 h, List.flatMap_nil]

theorem mentions_append (parameters : List (String × Datum)) (q : String × Datum)
    (name : String) :
    mentions (parameters ++ [q]) name = (mentions parameters name || isAbout name q) := by
  rw [mentions, List.any_append, List.any_cons, List.any_nil, Bool.or_false, mentions]

theorem asked_append (parameters : List (String × Datum)) (q : String × Datum) (name : String) :
    asked (parameters ++ [q]) name = asked parameters name ++
      if isAbout name q then PrivilegeValue.allOf q.2 else [] := by
  rw [asked, List.filter_append, List.flatMap_append, ← asked, List.filter_singleton]
  cases isAbout name q <;> simp

theorem mem_asked_iff {v : PrivilegeValue} : v ∈ asked parameters name ↔
    ∃ q ∈ parameters, isAbout name q = true ∧ v ∈ PrivilegeValue.allOf q.2 := by
  simp only [asked, List.mem_flatMap, List.mem_filter, and_assoc]

/-- A parameter says something of a privilege of a registry, in a way that can be read. -/
structure Decides (r : Registry) (q : String × Datum) : Prop where
  /-- The name is known. -/
  known : ∃ p ∈ r.privileges, ofName? q.1 = some (.privilege p.id)
  /-- The values can be read. -/
  legible : q.2.Legible

theorem decides_of_contains {r : Registry} {q : String × Datum} (hq : q.2.Legible)
    (hname : ofName? q.1 = some (.privilege name)) (h : r.contains name = true) : Decides r q := by
  obtain ⟨p, hp⟩ := Option.isSome_iff_exists.1 h
  obtain ⟨hmem, rfl⟩ := Registry.get?_eq_some_iff.1 hp
  exact ⟨⟨p, hmem, hname⟩, hq⟩

/-- What parameters mention is known. -/
theorem exists_of_mentions {r : Registry} (h : ∀ q ∈ parameters, Decides r q)
    (hmentions : mentions parameters name = true) : ∃ p ∈ r.privileges, p.id = name := by
  obtain ⟨q, hq, habout⟩ := List.any_eq_true.1 hmentions
  obtain ⟨p, hp, hname⟩ := (h q hq).known
  rw [isAbout, hname, beq_iff_eq, Option.some.injEq] at habout
  exact ⟨p, hp, privilege.inj habout⟩

end Parameter

/-! ## Reading a request -/

namespace Modifications

variable {α : Type} {name : String} {values : List α} {l : List (String × List α)}
  {m n : Modifications} {r : Registry} {parameters done : List (String × Datum)}

theorem lookup_cons (k n : String) (vs : List α) (l : List (String × List α)) :
    ((n, vs) :: l).lookup k = if k = n then some vs else l.lookup k := by
  rw [List.lookup_cons]
  split
  next h => rw [if_pos (beq_iff_eq.1 h)]
  next h => rw [if_neg (beq_eq_false_iff_ne.1 h)]

theorem lookup_extend (name : String) (values : List α) (l : List (String × List α))
    (k : String) : (extend name values l).lookup k =
      if k = name then some ((l.lookup name).getD [] ++ values) else l.lookup k := by
  induction l with
  | nil => rw [extend, lookup_cons]; rfl
  | cons a l ih =>
    obtain ⟨n, vs⟩ := a
    rw [extend]
    split
    next h =>
      subst h
      rw [lookup_cons, lookup_cons, lookup_cons, if_pos rfl]
      split <;> rfl
    next h =>
      rw [lookup_cons, lookup_cons, lookup_cons, ih, if_neg (Ne.symm h)]
      by_cases hk : k = n
      · rw [if_pos hk, if_pos hk, if_neg (hk ▸ h)]
      · rw [if_neg hk, if_neg hk]

theorem names_extend (name : String) (values : List α) (l : List (String × List α)) :
    (extend name values l).map Prod.fst =
      if name ∈ l.map Prod.fst then l.map Prod.fst else l.map Prod.fst ++ [name] := by
  induction l with
  | nil => rfl
  | cons a l ih =>
    rw [extend]
    split
    next h => simp [h]
    next h =>
      rw [List.map_cons, ih]
      simp only [List.map_cons, List.mem_cons, Ne.symm h, false_or]
      split <;> rfl

/-- Modifications that ask for what parameters say of privileges, and for nothing else. -/
structure Collects (m : Modifications) (parameters : List (String × Datum)) : Prop where
  /-- Each privilege is there once. -/
  nodup : (m.privileges.map Prod.fst).Nodup
  /-- It is there with all its values. -/
  lookup : ∀ name, m.privileges.lookup name =
    if Parameter.mentions parameters name then some (Parameter.asked parameters name) else none
  /-- Nothing else is asked for. -/
  alone : m = { empty with privileges := m.privileges }

/-- The privileges that are there are those that are mentioned, with all their values. -/
theorem Collects.mem_privileges_iff (h : m.Collects parameters)
    {a : String × List PrivilegeValue} : a ∈ m.privileges ↔
      Parameter.mentions parameters a.1 = true ∧ a.2 = Parameter.asked parameters a.1 := by
  constructor
  · intro ha
    have hlookup := (h.lookup a.1).symm.trans (lookup_eq_some_of_mem h.nodup ha)
    rw [Option.ite_none_right_eq_some] at hlookup
    exact ⟨hlookup.1, (Option.some.inj hlookup.2).symm⟩
  · rintro ⟨hmentions, hvalues⟩
    obtain ⟨l₁, l₂, hl, _⟩ := List.lookup_eq_some_iff.1 ((h.lookup a.1).trans (if_pos hmentions))
    rw [hl, ← hvalues]
    exact List.mem_append_right l₁ List.mem_cons_self

theorem collects_empty : empty.Collects [] := ⟨List.nodup_nil, fun _ => rfl, rfl⟩

/-- A parameter adds its values to those of the privilege that it is about. -/
theorem Collects.exists_addNamed (h : m.Collects done) {q : String × Datum} {name : String}
    (hname : Parameter.ofName? q.1 = some (.privilege name)) (hq : q.2.Legible) :
    ∃ n, (m.addNamed q).result = .ok n ∧ n.Collects (done ++ [q]) := by
  obtain ⟨vs, hvs, htext⟩ := hq
  have hadd : (m.addNamed q).result = .ok
      { m with privileges := extend name (PrivilegeValue.allOf q.2) m.privileges } := by
    rw [result_addNamed m hname hvs, add, Journal.result_bind, result_readAll hvs htext]
    rfl
  have habout (k : String) : Parameter.isAbout k q = true ↔ k = name := by
    rw [Parameter.isAbout, hname, beq_iff_eq, Option.some.injEq, Parameter.privilege.injEq, eq_comm]
  have halone : { m with privileges := extend name (PrivilegeValue.allOf q.2) m.privileges } =
      { empty with privileges := extend name (PrivilegeValue.allOf q.2) m.privileges } := by
    rw [h.alone]
  refine ⟨_, hadd, ?_, fun k => ?_, halone⟩
  · rw [names_extend]
    split
    · exact h.nodup
    next hnew => exact h.nodup.append (List.nodup_singleton _) (by simpa using hnew)
  · have hasked : ((m.privileges.lookup name).getD []) = Parameter.asked done name := by
      rw [h.lookup]
      cases hm : Parameter.mentions done name with
      | true => rfl
      | false => exact (Parameter.asked_of_not_mentions hm).symm
    rw [lookup_extend, hasked, h.lookup, Parameter.mentions_append, Parameter.asked_append]
    by_cases hk : k = name
    · subst hk
      simp [(habout k).2 rfl]
    · simp [hk, mt (habout k).1 hk]

/-- A request is read as the values for each privilege. -/
theorem exists_collects (h : ∀ q ∈ parameters, Parameter.Decides r q) :
    ∃ m, (ofParameters parameters).result = .ok m ∧ m.Collects parameters := by
  rw [result_ofParameters]
  refine exists_foldlM_append (fun q hq m done hm => ?_) collects_empty
  obtain ⟨p, _, hname⟩ := (h q hq).known
  exact hm.exists_addNamed hname (h q hq).legible

end Modifications

/-! ## Planning a request -/

namespace Registry

variable {r : Registry} {d : DepthIndex} {known : Vocabulary} {m : Modifications}
  {parameters parameters' : List (String × Datum)} {p q : Privilege}

/-- The privileges that parameters mention, general ones first. -/
def mentioned (r : Registry) (d : DepthIndex) (parameters : List (String × Datum)) :
    List Privilege :=
  d.sort (r.privileges.filter fun p => Parameter.mentions parameters p.id)

/-- The edits that parameters ask for: one privilege after the other, each with its values. -/
def askedEdits (r : Registry) (d : DepthIndex) (parameters : List (String × Datum)) : List Edit :=
  (r.mentioned d parameters).flatMap fun p =>
    (Parameter.strongestLast parameters p.id).map fun v => ⟨v.operation ∅, some p⟩

theorem mem_mentioned_iff : p ∈ r.mentioned d parameters ↔
    p ∈ r.privileges ∧ Parameter.mentions parameters p.id = true := by
  rw [mentioned, DepthIndex.sort, List.mem_mergeSort, List.mem_filter]

/-- Privileges of a registry are sorted in one way only. -/
theorem sort_eq_of_perm {ps qs : List Privilege} (h : ps.Perm qs)
    (hps : ∀ p ∈ ps, p ∈ r.privileges) : d.sort ps = d.sort qs := by
  refine List.Perm.eq_of_pairwise (fun p q hp hq hpq hqp => ?_) (d.pairwise_sort ps)
    (d.pairwise_sort qs)
    (((List.mergeSort_perm ps _).trans h).trans (List.mergeSort_perm qs _).symm)
  exact eq_of_id_eq (hps p (List.mem_mergeSort.1 hp))
    (hps q (h.mem_iff.2 (List.mem_mergeSort.1 hq))) (d.eq_of_precedes hpq hqp)

/-- What is found under a name is a privilege of this name. -/
theorem eq_of_find_eq_ok {a : String × List PrivilegeValue} {q : Privilege × List PrivilegeValue}
    (h : (do return (← r.privilege (.text a.1), a.2) : Except Error _) = .ok q) :
    q.1 ∈ r.privileges ∧ a = (q.1.id, q.2) := by
  obtain ⟨p, hp, h⟩ := exists_of_bind_eq_ok h
  cases h
  obtain ⟨hp, hname⟩ := privilege_eq_ok_iff.1 hp
  exact ⟨hp, Prod.ext (Scalar.text.inj hname) rfl⟩

/-- The privileges that are asked for are found, with all their values. -/
theorem exists_found (hm : m.Collects parameters)
    (h : ∀ q ∈ parameters, Parameter.Decides r q) :
    ∃ found, (m.privileges.mapM fun p => return (← r.privilege (.text p.1), p.2)) = .ok found ∧
      (found.map Prod.fst).Perm
        (r.privileges.filter fun p => Parameter.mentions parameters p.id) ∧
      ∀ q ∈ found, q.2 = Parameter.asked parameters q.1.id := by
  obtain ⟨found, hfound⟩ : ∃ found, m.privileges.mapM (fun p : String × List PrivilegeValue =>
      return (← r.privilege (.text p.1), p.2)) = .ok found := by
    refine exists_mapM fun a ha => ?_
    obtain ⟨p, hp, hid⟩ := Parameter.exists_of_mentions h (hm.mem_privileges_iff.1 ha).1
    exact ⟨(p, a.2), by rw [privilege_of_get? (get?_eq_some_iff.2 ⟨hp, hid⟩)]; rfl⟩
  have hmem {q : Privilege × List PrivilegeValue} (hq : q ∈ found) : q.1 ∈ r.privileges ∧
      Parameter.mentions parameters q.1.id = true ∧ q.2 = Parameter.asked parameters q.1.id := by
    obtain ⟨a, ha, haq⟩ := (corresponds_of_mapM hfound).back q hq
    obtain ⟨hp, rfl⟩ := eq_of_find_eq_ok haq
    exact ⟨hp, hm.mem_privileges_iff.1 ha⟩
  have hnames : m.privileges.map Prod.fst = (found.map Prod.fst).map Privilege.id := by
    rw [List.map_map]
    exact map_eq_of_forall₂ (forall₂_of_mapM hfound) fun a q haq =>
      congrArg Prod.fst (eq_of_find_eq_ok haq).2
  refine ⟨found, hfound, ?_, fun q hq => (hmem hq).2.2⟩
  -- Neither has a privilege twice.
  refine (List.perm_ext_iff_of_nodup (.of_map Privilege.id (hnames ▸ hm.nodup))
    ((List.Nodup.of_map _ r.catalogue.nodup).filter _)).2 fun p => ?_
  rw [List.mem_map, List.mem_filter]
  constructor
  · rintro ⟨q, hq, rfl⟩
    exact ⟨(hmem hq).1, (hmem hq).2.1⟩
  · rintro ⟨hp, hmentions⟩
    obtain ⟨q, hq, haq⟩ := (corresponds_of_mapM hfound).forth
      (p.id, Parameter.asked parameters p.id) (hm.mem_privileges_iff.2 ⟨hmentions, rfl⟩)
    obtain ⟨hmem, hid⟩ := eq_of_find_eq_ok haq
    exact ⟨q, hq, eq_of_id_eq hmem hp (congrArg Prod.fst hid).symm⟩

/-- The edits that parameters ask for are planned, and nothing else. -/
theorem exists_plan (h : ∀ q ∈ parameters, Parameter.Decides r q) (known : Vocabulary)
    (d : DepthIndex) : ∃ m, (Modifications.ofParameters parameters).result = .ok m ∧
      m.plan r known d = (r.askedEdits d parameters).map .ok := by
  obtain ⟨m, hread, hm⟩ := Modifications.exists_collects h
  obtain ⟨found, hfound, hperm, hvalues⟩ := exists_found hm h
  refine ⟨m, hread, ?_⟩
  have hdelete : m.deletePrivileges r = [] := by rw [hm.alone]; rfl
  have hunrestrict : m.deleteRestrictions r known = [] := by rw [hm.alone]; rfl
  have hadd : m.addRestrictions r known d = [] :=
    Modifications.addRestrictions_of_nil (by rw [hm.alone]; rfl)
  -- What was found is sorted by its privileges, which are those that are mentioned.
  have hsorted : (found.mergeSort fun p q => d.precedes p.1.id q.1.id).map Prod.fst =
      r.mentioned d parameters := by
    have hmap := List.map_mergeSort (r := fun p q => d.precedes p.1.id q.1.id)
      (s := fun p q => d.precedes p.id q.id)
      (f := fun q : Privilege × List PrivilegeValue => q.1) (l := found) fun _ _ _ _ => rfl
    refine hmap.trans (sort_eq_of_perm (r := r) hperm fun p hp => ?_)
    exact (List.mem_filter.1 (hperm.mem_iff.1 hp)).1
  have hedits : ((found.mergeSort fun p q => d.precedes p.1.id q.1.id).flatMap fun p =>
      (PrivilegeValue.inOrder.reverse.filter p.2.contains).map fun v =>
        (⟨v.operation ∅, some p.1⟩ : Edit)) = r.askedEdits d parameters := by
    rw [askedEdits, ← hsorted, List.flatMap_map]
    refine List.flatMap_congr fun q hq => ?_
    rw [hvalues q (List.mem_mergeSort.1 hq), PrivilegeValue.reverse_inOrder]
    rfl
  rw [Modifications.plan, hdelete, hunrestrict, hadd, Modifications.decidePrivileges, hfound]
  simp only [List.nil_append, List.append_nil]
  exact congrArg (List.map Except.ok) hedits

theorem within_askedEdits (r : Registry) (d : DepthIndex) (parameters : List (String × Datum)) :
    ∀ ed ∈ r.askedEdits d parameters, ed.Within r := by
  intro ed hed
  obtain ⟨p, hp, hed⟩ := List.mem_flatMap.1 hed
  obtain ⟨v, _, rfl⟩ := List.mem_map.1 hed
  exact (mem_mentioned_iff.1 hp).1

end Registry

/-! ## Requests that say the same -/

namespace Parameter

variable {r : Registry} {q q' : String × Datum} {parameters parameters' : List (String × Datum)}

/-- Parameters of one name, with the same values in whatever order and however often. -/
def SaysSame (q q' : String × Datum) : Prop :=
  q.1 = q'.1 ∧ ∃ vs vs', q.2.values = .ok vs ∧ q'.2.values = .ok vs' ∧ SameMembers vs vs'

theorem SaysSame.refl (h : q.2.Legible) : SaysSame q q := by
  obtain ⟨vs, hvs, _⟩ := h
  exact ⟨rfl, vs, vs, hvs, hvs, fun _ => Iff.rfl⟩

theorem SaysSame.isAbout_eq (h : SaysSame q q') (name : String) :
    isAbout name q = isAbout name q' := by
  rw [isAbout, isAbout, h.1]

theorem SaysSame.mem_allOf_iff (h : SaysSame q q') {v : PrivilegeValue} :
    v ∈ PrivilegeValue.allOf q.2 ↔ v ∈ PrivilegeValue.allOf q'.2 := by
  obtain ⟨_, vs, vs', hvs, hvs', hsame⟩ := h
  rw [PrivilegeValue.allOf, PrivilegeValue.allOf, hvs, hvs']
  simp only [Except.toOption, Option.getD_some, List.mem_filterMap, hsame _]

theorem SaysSame.decides (h : SaysSame q q') (hq : Decides r q) : Decides r q' where
  known := h.1 ▸ hq.known
  legible := by
    obtain ⟨_, vs, vs', hvs, hvs', hsame⟩ := h
    obtain ⟨ws, hws, htext⟩ := hq.legible
    obtain rfl := Except.ok.inj (hvs.symm.trans hws)
    exact ⟨vs', hvs', fun v hv => htext v ((hsame v).2 hv)⟩

theorem mentions_congr (h : Corresponds SaysSame parameters parameters') (name : String) :
    mentions parameters name = mentions parameters' name := by
  rw [mentions, mentions, Bool.eq_iff_iff, List.any_eq_true, List.any_eq_true]
  constructor
  · rintro ⟨q, hq, habout⟩
    obtain ⟨q', hq', hsame⟩ := h.forth q hq
    exact ⟨q', hq', hsame.isAbout_eq name ▸ habout⟩
  · rintro ⟨q', hq', habout⟩
    obtain ⟨q, hq, hsame⟩ := h.back q' hq'
    exact ⟨q, hq, hsame.isAbout_eq name ▸ habout⟩

theorem mem_asked_congr (h : Corresponds SaysSame parameters parameters') {name : String}
    {v : PrivilegeValue} : v ∈ asked parameters name ↔ v ∈ asked parameters' name := by
  rw [mem_asked_iff, mem_asked_iff]
  constructor
  · rintro ⟨q, hq, habout, hv⟩
    obtain ⟨q', hq', hsame⟩ := h.forth q hq
    exact ⟨q', hq', hsame.isAbout_eq name ▸ habout, hsame.mem_allOf_iff.1 hv⟩
  · rintro ⟨q', hq', habout, hv⟩
    obtain ⟨q, hq, hsame⟩ := h.back q' hq'
    exact ⟨q, hq, hsame.isAbout_eq name ▸ habout, hsame.mem_allOf_iff.2 hv⟩

theorem strongestLast_congr (h : Corresponds SaysSame parameters parameters') (name : String) :
    strongestLast parameters name = strongestLast parameters' name := by
  refine List.filter_congr fun v _ => ?_
  rw [Bool.eq_iff_iff, List.contains_iff_mem, List.contains_iff_mem]
  exact mem_asked_congr h

end Parameter

/-- Requests that say the same are carried out by the same edits. -/
theorem Registry.askedEdits_congr {r : Registry} {d : DepthIndex}
    {parameters parameters' : List (String × Datum)}
    (h : Corresponds Parameter.SaysSame parameters parameters') :
    r.askedEdits d parameters = r.askedEdits d parameters' := by
  simp only [askedEdits, mentioned, Parameter.mentions_congr h, Parameter.strongestLast_congr h]

end AccessControl
