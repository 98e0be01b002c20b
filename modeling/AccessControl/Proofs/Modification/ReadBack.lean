import AccessControl.Modification.Apply
import AccessControl.Proofs.Entry.Placement
import AccessControl.Proofs.Entry.RoundTrip
import AccessControl.Proofs.Modification.Plan
import Mathlib.Data.List.ReduceOption

/-!
# Reading what was modified

A list of entries in which those of a principal are modified reads back as what was
written: the principal loads the decisions that the modification led to, before they
were folded, and nothing changes for anybody else.

* `Registry.isLeafMap_amendedDecisions`, `Registry.reachable_modifiedDecisions`: the
  decisions that a modification leads to;
* `Registry.ReadsBack`: what is true of a list that they are written into;
* `Registry.modification_reads_back`: it is true of every modified list.
-/

namespace AccessControl

variable {r : Registry}

/-! ## Amendments -/

namespace Amendment

variable {a : Amendment} {m n : DecisionMap}

theorem isLeafMap_remove (hm : m.IsLeafMap r) (h : a.remove m = .ok n) : n.IsLeafMap r := by
  rw [remove] at h
  split at h
  · cases h
    exact hm.mapDecisions fun d hd => Decision.sound_strip hd _
  · split at h
    · cases h
    · cases h
      exact hm

theorem mem_of_requested {requested : List (Privilege × PrivilegeValue)}
    (h : (a.requested r).result = .ok requested) : ∀ q ∈ requested, q.1 ∈ r.privileges := by
  intro q hq
  obtain ⟨read, hread, h⟩ := Journal.exists_of_result_bind h
  cases h
  -- What is remarked on values makes no difference to the privileges that are found.
  rw [Journal.result_mapM] at hread
  obtain ⟨item, _, hitem⟩ := (corresponds_of_mapM hread).back _ (List.reduceOption_mem_iff.1 hq)
  obtain ⟨p, hp, hitem⟩ := Journal.exists_of_result_bind hitem
  obtain ⟨v, _, hitem⟩ := Journal.exists_of_result_bind hitem
  obtain ⟨_, _, hpair⟩ := Option.map_eq_some_iff.1 (Except.ok.inj hitem)
  cases hpair
  rw [Journal.result_liftM] at hp
  exact (Registry.privilege_eq_ok_iff.1 hp).1

theorem isLeafMap_decide {requested : List (Privilege × PrivilegeValue)} {rs : RestrictionSet}
    (hm : m.IsLeafMap r) (hmem : ∀ q ∈ requested, q.1 ∈ r.privileges)
    (h : decide requested rs m = .ok n) : n.IsLeafMap r := by
  refine foldlM_induction (P := fun m => m.IsLeafMap r) (fun v _ m n hm hn => ?_) hm h
  refine hm.perform (fun p hp => ?_) hn
  obtain ⟨q, hq, rfl⟩ := List.mem_map.1 hp
  exact hmem q (List.mem_filter.1 hq).1

end Amendment

namespace Registry

variable {provider : Provider} {acl acl' entries : List Entry} {principal : Principal}
  {path : Option String} {m : DecisionMap}

/-- An amendment leads to sound decisions about leaves. -/
theorem isLeafMap_amendedDecisions (hacl : r.Admits acl) {a : Amendment}
    (h : (r.amendedDecisions provider acl principal path a).result = .ok m) : m.IsLeafMap r := by
  obtain ⟨m₀, hm₀, hreach, _⟩ := DecisionMap.exists_ofEntries hacl principal
  obtain ⟨known, _, h⟩ := Journal.exists_of_result_bind h
  obtain ⟨loaded, hloaded, h⟩ := Journal.exists_of_result_bind h
  obtain rfl := Except.ok.inj (hm₀.symm.trans hloaded)
  obtain ⟨removed, hremoved, h⟩ := Journal.exists_of_result_bind h
  obtain ⟨rs, _, h⟩ := Journal.exists_of_result_bind h
  obtain ⟨requested, hrequested, h⟩ := Journal.exists_of_result_bind h
  exact Amendment.isLeafMap_decide (Amendment.isLeafMap_remove hreach.isLeafMap hremoved)
    (Amendment.mem_of_requested hrequested) h

/-- A request leads to decisions that operations lead to. -/
theorem reachable_modifiedDecisions (hacl : r.Admits acl) {parameters : List (String × Datum)}
    (h : (r.modifiedDecisions provider acl principal path parameters).result = .ok m) :
    m.Reachable r := by
  obtain ⟨m₀, hm₀, hreach, _⟩ := DecisionMap.exists_ofEntries hacl principal
  obtain ⟨known, _, h⟩ := Journal.exists_of_result_bind h
  obtain ⟨loaded, hloaded, h⟩ := Journal.exists_of_result_bind h
  obtain rfl := Except.ok.inj (hm₀.symm.trans hloaded)
  obtain ⟨modifications, _, h⟩ := Journal.exists_of_result_bind h
  have hrun := hreach.carryOut (modifications.over_plan r known r.depths)
  split at h
  next m' hm' =>
    cases h
    rwa [hm'] at hrun
  next => cases h

/-! ## Main result -/

/-- Decisions about a principal are written into a list of entries as the given ones. -/
structure ReadsBack (r : Registry) (p : String) (m : DecisionMap)
    (entries acl acl' : List Entry) : Prop where
  /-- The principal loads the same decisions. -/
  read : ∃ n, DecisionMap.ofEntries acl' (.text p) = .ok n ∧ n.same m = true
  /-- The entries stand together in the place of the old ones, between the entries of
      others, which are as before. -/
  replaced : Replaces (.text p) entries acl acl'
  /-- Others load the same as before. -/
  loaded : ∀ q, q ≠ p → DecisionMap.ofEntries acl' (.text q) = DecisionMap.ofEntries acl (.text q)
  /-- Others are told the same as before. -/
  told : ∀ q, q ≠ p → r.decisionsOf acl' (.text q) = r.decisionsOf acl (.text q)

theorem readsBack_of_place {p : String} {order : Datum} (hm : m.IsLeafMap r)
    (h : place acl (.text p) ((m.consolidate r.depths r).entries r.depths (.text p)) order =
      .ok acl') :
    r.ReadsBack p m ((m.consolidate r.depths r).entries r.depths (.text p)) acl acl' := by
  have hreplaced := replaces_of_place (fun a ha => DecisionMap.principal_of_mem_entries ha) h
  obtain ⟨n, hn, _, hsame⟩ := DecisionMap.exists_ofEntries_entries hm r.depths p
  have hother {q : String} (hq : q ≠ p) := hreplaced.ofEntries_other hq
  refine ⟨⟨n, hreplaced.ofEntries_own.trans hn, hsame⟩, hreplaced, fun q => hother, ?_⟩
  intro q hq
  rw [decisionsOf, decisionsOf, hother hq]

/-- Every modification of the entries of a principal, be it an amendment or asked for by
    a request, reads back as the decisions it led to. -/
theorem modification_reads_back (r : Registry) (provider : Provider) (acl : List Entry)
    (p : String) (path : Option String) (hacl : r.Admits acl) :
    (∀ (a : Amendment) (order : Datum) (acl' : List Entry),
      (r.amendAll provider acl (.text p) path a order).result = .ok acl' →
      ∃ m entries, (r.amendedDecisions provider acl (.text p) path a).result = .ok m ∧
        (r.amend provider acl (.text p) path a).result = .ok entries ∧
        r.ReadsBack p m entries acl acl') ∧
    ∀ (parameters : List (String × Datum)) (acl' : List Entry),
      (r.modifyAll provider acl (.text p) path parameters).result = .ok acl' →
      ∃ m entries, (r.modifiedDecisions provider acl (.text p) path parameters).result = .ok m ∧
        (r.modify provider acl (.text p) path parameters).result = .ok entries ∧
        r.ReadsBack p m entries acl acl' := by
  constructor
  · intro a order acl' h
    obtain ⟨entries, hentries, h⟩ := Journal.exists_of_result_bind h
    have hamend := hentries
    obtain ⟨m, hm, hentries⟩ := Journal.exists_of_result_bind hentries
    cases hentries
    exact ⟨m, _, hm, hamend, readsBack_of_place (isLeafMap_amendedDecisions hacl hm) h⟩
  · intro parameters acl' h
    obtain ⟨entries, hentries, h⟩ := Journal.exists_of_result_bind h
    have hmodify := hentries
    obtain ⟨m, hm, hentries⟩ := Journal.exists_of_result_bind hentries
    cases hentries
    exact ⟨m, _, hm, hmodify,
      readsBack_of_place (reachable_modifiedDecisions hacl hm).isLeafMap h⟩

/-- An editor and a guest are allowed everything in a diamond. -/
def sharedEntries : List Entry :=
  [⟨.text "editor", .allow, [diamond.root], ∅⟩, ⟨.text "guest", .allow, [diamond.root], ∅⟩]

/-- Editing is denied under a restriction. -/
def guarding : Amendment where
  privileges := [("doc:edit", .text "deny")]
  restrictions := [(RestrictionName.glob, .text "*")]
  listedRestrictions := []
  removed := .list []

/-- A request denies editing under a restriction, and puts the entries first. -/
def guardingParameters : List (String × Datum) :=
  [("privilege@doc:edit", .text "deny"), ("restriction@doc:edit@rep:glob@Deny", .text "*"),
    ("order", .text "first")]

/-- What is denied to the guest of the diamond is denied when it is read again. -/
theorem modification_reads_back_shared :
    diamond.Admits sharedEntries ∧
    (∃ acl' m entries,
      (diamond.amendAll .standard sharedEntries (.text "guest") (some "/") guarding
        (.text "first")).result = .ok acl' ∧
      (diamond.amendedDecisions .standard sharedEntries (.text "guest") (some "/")
        guarding).result = .ok m ∧
      diamond.ReadsBack "guest" m entries sharedEntries acl') ∧
    ∃ acl' m entries,
      (diamond.modifyAll .standard sharedEntries (.text "guest") (some "/")
        guardingParameters).result = .ok acl' ∧
      (diamond.modifiedDecisions .standard sharedEntries (.text "guest") (some "/")
        guardingParameters).result = .ok m ∧
      diamond.ReadsBack "guest" m entries sharedEntries acl' := by
  have hadmits : diamond.Admits sharedEntries := by
    intro a ha
    rcases List.mem_pair.1 ha with rfl | rfl
    · exact List.forall_mem_singleton.2 diamond.root_mem
    · exact List.forall_mem_singleton.2 diamond.root_mem
  have hresult {x : Except Error (List Entry)} (h : x.toOption.isSome = true) :
      ∃ acl', x = .ok acl' := by
    cases x with
    | error e => cases h
    | ok acl' => exact ⟨acl', rfl⟩
  obtain ⟨hamend, hmodify⟩ :=
    modification_reads_back diamond .standard sharedEntries "guest" (some "/") hadmits
  refine ⟨hadmits, ?_, ?_⟩
  · obtain ⟨acl', h⟩ := hresult (x := (diamond.amendAll .standard sharedEntries (.text "guest")
      (some "/") guarding (.text "first")).result) (by decide +kernel)
    obtain ⟨m, entries, hm, _, hreads⟩ := hamend guarding (.text "first") acl' h
    exact ⟨acl', m, entries, h, hm, hreads⟩
  · obtain ⟨acl', h⟩ := hresult (x := (diamond.modifyAll .standard sharedEntries (.text "guest")
      (some "/") guardingParameters).result) (by decide +kernel)
    obtain ⟨m, entries, hm, _, hreads⟩ := hmodify guardingParameters acl' h
    exact ⟨acl', m, entries, h, hm, hreads⟩

end Registry

end AccessControl
