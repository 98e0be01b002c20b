import AccessControl.Proofs.Modification.Outcome
import AccessControl.Proofs.Modification.Reading

/-!
# Values of privileges

What is done with privileges is asked for by the same names and values in an amendment and
in the parameters of a request. An amendment then goes from value to value, and does each
to all privileges that have it. A request goes from privilege to privilege, general ones
first. If no two of the privileges have a leaf in common, there is one value at most for
each leaf, and both orders lead to the same entries.

* `Findings.Apart`: no two privileges have a leaf in common;
* `Amendment.hits_requests`, `Edit.replay_edits`: both orders, seen from a leaf;
* `Registry.values_outcome`: values are given by an amendment as by parameters.
-/

namespace AccessControl

/-! ## Requests -/

/-- Names of privileges and texts of their values, as they are given for either. -/
def valueParameters (request : List (String × String)) : List (String × Datum) :=
  request.map fun q => (Parameter.privilegeLead ++ q.1, .text q.2)

/-- Something is done with privileges, without restrictions, and nothing else. -/
def Amendment.deciding (privileges : List (String × Datum)) : Amendment where
  privileges := privileges
  restrictions := []
  listedRestrictions := []
  removed := .null

/-! ## Findings -/

/-- Privileges that were found, and what is requested of them, if it makes sense. -/
abbrev Findings := List (Privilege × Option PrivilegeValue)

/-- The privileges of a request are looked up, one after the other. -/
def Registry.lookUp (r : Registry) (request : List (String × String)) : Except Error Findings :=
  request.mapM fun q => (r.privilege (.text q.1)).map fun p => (p, PrivilegeValue.ofText? q.2)

namespace Findings

variable {found : Findings}

/-- What an amendment does. -/
def requests (found : Findings) : List (Privilege × PrivilegeValue) :=
  found.filterMap fun q => q.2.map fun v => (q.1, v)

/-- The edits that a request makes for privileges in a given order. -/
def edits (found : Findings) : List Edit :=
  found.flatMap fun q => q.2.toList.map fun v => ⟨v.operation ∅, some q.1⟩

/-- General privileges come before specific ones. -/
def sorted (found : Findings) (d : DepthIndex) : Findings :=
  found.mergeSort fun p q => d.precedes p.1.id q.1.id

/-- No two privileges have a leaf in common. -/
def Apart (found : Findings) : Prop :=
  found.Pairwise fun p q => ∀ leaf, ¬ (p.1.covers leaf = true ∧ q.1.covers leaf = true)

/-- What was found about a leaf. -/
def about (found : Findings) (leaf : String) : Findings := found.filter (·.1.covers leaf)

theorem Apart.about_eq (h : found.Apart) (leaf : String) :
    found.about leaf = [] ∨ ∃ q, found.about leaf = [q] := by
  have hcovers : ∀ q ∈ found.about leaf, q.1.covers leaf = true :=
    fun q hq => (List.mem_filter.1 hq).2
  have hapart : (found.about leaf).Pairwise fun p q =>
      ∀ leaf, ¬ (p.1.covers leaf = true ∧ q.1.covers leaf = true) := h.filter _
  rcases hl : found.about leaf with _ | ⟨p, _ | ⟨q, rest⟩⟩
  · exact .inl rfl
  · exact .inr ⟨p, rfl⟩
  · -- Two privileges that cover the leaf would have it in common.
    rw [hl] at hcovers hapart
    exact absurd ⟨hcovers p (by simp), hcovers q (by simp)⟩
      ((List.pairwise_cons.1 hapart).1 q (by simp) leaf)

/-- Of what is found in a registry, the privileges are there, under the names of the request. -/
theorem of_lookUp {r : Registry} {request : List (String × String)}
    (h : r.lookUp request = .ok found) :
    request.map Prod.fst = found.map (·.1.id) ∧ ∀ q ∈ found, q.1 ∈ r.privileges := by
  have hfound {a : String × String} {q : Privilege × Option PrivilegeValue}
      (h : (r.privilege (.text a.1)).map (fun p => (p, PrivilegeValue.ofText? a.2)) = .ok q) :
      q.1 ∈ r.privileges ∧ a.1 = q.1.id := by
    cases hp : r.privilege (.text a.1) with
    | error e =>
      rw [hp] at h
      cases h
    | ok p =>
      rw [hp] at h
      cases h
      obtain ⟨hmem, hname⟩ := Registry.privilege_eq_ok_iff.1 hp
      exact ⟨hmem, Scalar.text.inj hname⟩
  refine ⟨map_eq_of_forall₂ (forall₂_of_mapM h) fun a q haq => (hfound haq).2, fun q hq => ?_⟩
  obtain ⟨a, _, ha⟩ := (corresponds_of_mapM h).back q hq
  exact (hfound ha).1

theorem within_edits {r : Registry} (h : ∀ q ∈ found, q.1 ∈ r.privileges) (d : DepthIndex) :
    ∀ ed ∈ (found.sorted d).edits, ed.Within r := by
  intro ed hed
  obtain ⟨q, hq, hed⟩ := List.mem_flatMap.1 hed
  obtain ⟨v, _, rfl⟩ := List.mem_map.1 hed
  exact h q (List.mem_mergeSort.1 hq)

theorem apart_of_lookUp {r : Registry} {request : List (String × String)}
    (h : r.lookUp request = .ok found)
    (hrequest : request.Pairwise fun p q =>
      ∀ leaf, ¬ (r.covers p.1 leaf = true ∧ r.covers q.1 leaf = true)) : found.Apart := by
  obtain ⟨hnames, hmem⟩ := of_lookUp h
  have hids : (found.map (·.1.id)).Pairwise fun a b =>
      ∀ leaf, ¬ (r.covers a leaf = true ∧ r.covers b leaf = true) := by
    rw [← hnames, List.pairwise_map]
    exact hrequest
  refine (List.pairwise_map.1 hids).imp_of_mem fun {p q} hp hq hpq leaf => ?_
  rw [← Registry.covers_eq (hmem p hp), ← Registry.covers_eq (hmem q hq)]
  exact hpq leaf

end Findings

/-! ## Leaf by leaf -/

variable {found : Findings}

/-- An amendment has the value for a leaf that was found for it, if there is one. -/
theorem Amendment.hits_requests (h : found.Apart) (leaf : String) :
    hits found.requests leaf = (found.about leaf).filterMap Prod.snd := by
  have hany (v : PrivilegeValue) : (found.requests.any fun q => q.2 == v && q.1.covers leaf) =
      (found.about leaf).any (·.2 == some v) := by
    rw [Findings.requests, Findings.about, List.any_filterMap, List.any_filter]
    congr 1
    funext ⟨p, o⟩
    rcases o with _ | w <;> simp [Bool.and_comm]
  simp only [hits, hany]
  rcases h.about_eq leaf with hq | ⟨⟨p, _ | v⟩, hq⟩ <;> rw [hq]
  · rfl
  · rfl
  · cases v <;> rfl

/-- The edits for a leaf are those for what was found about it. -/
theorem Findings.filter_edits (found : Findings) (leaf : String) :
    found.edits.filter (·.covers leaf) = (found.about leaf).edits := by
  induction found with
  | nil => rfl
  | cons q found ih =>
    obtain ⟨p, o⟩ := q
    have hq : (o.toList.map fun v => (⟨v.operation ∅, some p⟩ : Edit)).filter (·.covers leaf) =
        if p.covers leaf then o.toList.map fun v => ⟨v.operation ∅, some p⟩ else [] := by
      rcases o with _ | v
      · simp
      · simp [List.filter_singleton, Edit.covers]
    rw [about, edits, edits] at ih
    rw [about, edits, edits, List.flatMap_cons, List.filter_append, ih, List.filter_cons, hq]
    split <;> rfl

/-- It makes no difference to a leaf how privileges are sorted that are apart. -/
theorem Findings.Apart.about_sorted (h : found.Apart) (d : DepthIndex) (leaf : String) :
    (found.sorted d).about leaf = found.about leaf := by
  have hperm : ((found.sorted d).about leaf).Perm (found.about leaf) :=
    (List.mergeSort_perm _ _).filter _
  rcases h.about_eq leaf with hq | ⟨q, hq⟩ <;> rw [hq] at hperm ⊢
  · exact List.perm_nil.1 hperm
  · exact List.perm_singleton.1 hperm

theorem Edit.replay_edits (h : found.Apart) (d : DepthIndex) (leaf : String)
    (o : Option Decision) : replay ((found.sorted d).edits.filter (·.covers leaf)) o =
      Amendment.replay ∅ ((found.about leaf).filterMap Prod.snd) o := by
  rw [Findings.filter_edits, h.about_sorted]
  rcases h.about_eq leaf with hq | ⟨⟨p, _ | v⟩, hq⟩ <;> rw [hq] <;> rfl

/-! ## From requests to findings -/

theorem Amendment.privilegeName_append (name : String) :
    privilegeName (Parameter.privilegeLead ++ name) = name := by
  rw [privilegeName, Text.afterText?_append, Option.getD_some]

/-- A privilege is looked up, and what is requested of it is read. -/
def Registry.find (r : Registry) (q : String × Datum) :
    Journal (Option (Privilege × PrivilegeValue)) := do
  let p ← r.privilege (.text q.1)
  return (← PrivilegeValue.read q.2).map fun v => (p, v)

theorem Registry.result_find (r : Registry) (q : String × String) :
    (r.find (q.1, .text q.2)).result =
      ((r.privilege (.text q.1)).map fun p => (p, PrivilegeValue.ofText? q.2)).map
        fun q => q.2.map fun v => (q.1, v) := by
  rw [find, Journal.result_bind, Journal.result_liftM]
  cases r.privilege (.text q.1) with
  | error e => rfl
  | ok p =>
    rw [Except.bind, Journal.result_bind, PrivilegeValue.result_read_text]
    generalize PrivilegeValue.ofText? q.2 = o
    rfl

theorem Amendment.requested_eq (a : Amendment) (r : Registry) : a.requested r = do
    return (← (a.privileges.map fun q => (privilegeName q.1, q.2)).mapM r.find).reduceOption := by
  rw [List.mapM_map]
  rfl

/-- An amendment does what was found of a request, if it has its names and values. -/
theorem Amendment.result_requested {a : Amendment} {request : List (String × String)}
    (h : (a.privileges.map fun q => (privilegeName q.1, q.2)) =
      request.map fun q => (q.1, .text q.2)) (r : Registry) :
    (a.requested r).result = (r.lookUp request).map Findings.requests := by
  have hfind : ((request.map fun q => (q.1, Datum.text q.2)).mapM r.find).result =
      (r.lookUp request).map (List.map fun q => q.2.map fun v => (q.1, v)) := by
    rw [Journal.result_mapM, List.mapM_map, Registry.lookUp, ← mapM_map_eq]
    simp only [Function.comp_def, Registry.result_find]
  rw [requested_eq, h, Journal.result_bind, hfind]
  cases r.lookUp request with
  | error e => rfl
  | ok found =>
    simp [Except.map, Except.bind, List.reduceOption, List.filterMap_map, Findings.requests]

theorem Amendment.privileges_deciding (request : List (String × String)) :
    ((deciding (valueParameters request)).privileges.map fun q => (privilegeName q.1, q.2)) =
      request.map fun q => (q.1, .text q.2) := by
  simp [deciding, valueParameters, privilegeName_append]

namespace Modifications

/-- Values of privileges are asked for, and nothing else. -/
def valued (request : List (String × String)) : Modifications :=
  { empty with privileges := request.map fun q => (q.1, (PrivilegeValue.ofText? q.2).toList) }

/-- A text that is no known word adds a privilege without a value. -/
theorem result_addNamed_value {m : Modifications} {q : String × String}
    (hname : Parameter.ofName? (Parameter.privilegeLead ++ q.1) = some (.privilege q.1))
    (hnew : q.1 ∉ m.privileges.map Prod.fst) :
    (m.addNamed (Parameter.privilegeLead ++ q.1, .text q.2)).result = .ok { m with
      privileges := m.privileges ++ [(q.1, (PrivilegeValue.ofText? q.2).toList)] } := by
  have hread : (readAll PrivilegeValue.read [.text q.2]).result =
      .ok (PrivilegeValue.ofText? q.2).toList := by
    rw [readAll, Journal.result_bind, Journal.result_mapM, List.mapM_cons,
      PrivilegeValue.result_read_text]
    cases PrivilegeValue.ofText? q.2 <;> rfl
  rw [result_addNamed m hname rfl, add, Journal.result_bind, hread, ← extend_of_notMem hnew]
  rfl

theorem result_valueParameters {request : List (String × String)}
    (hnodup : (request.map Prod.fst).Nodup)
    (hname : ∀ q ∈ request,
      Parameter.ofName? (Parameter.privilegeLead ++ q.1) = some (.privilege q.1)) :
    (ofParameters (valueParameters request)).result = .ok (valued request) := by
  have hadd (m : Modifications) (hnew : ∀ q ∈ request, q.1 ∉ m.privileges.map Prod.fst) :
      (valueParameters request).foldlM (fun m parameter => (addNamed m parameter).result) m =
        .ok { m with privileges := m.privileges ++
          request.map fun q => (q.1, (PrivilegeValue.ofText? q.2).toList) } := by
    rw [valueParameters]
    induction request generalizing m with
    | nil => simp [pure, Except.pure]
    | cons q request ih =>
      obtain ⟨hq, hrest⟩ := List.forall_mem_cons.1 hname
      obtain ⟨hqnew, hrestnew⟩ := List.forall_mem_cons.1 hnew
      rw [List.map_cons, List.nodup_cons] at hnodup
      rw [List.map_cons, List.foldlM_cons, result_addNamed_value hq hqnew]
      refine (ih hnodup.2 hrest _ fun p hp => ?_).trans ?_
      · -- The names that follow are not that of the first parameter either.
        rw [List.map_append, List.mem_append, not_or, List.map_singleton, List.mem_singleton]
        refine ⟨hrestnew p hp, fun heq => hnodup.1 ?_⟩
        exact heq ▸ List.mem_map_of_mem hp
      · simp
  rw [result_ofParameters, hadd empty (by simp [empty])]
  rfl

/-- What is done with privileges is edited into what was found of them. -/
theorem decidePrivileges_eq {m : Modifications} {request : List (String × String)}
    (h : m.privileges = (valued request).privileges) (r : Registry) (d : DepthIndex) :
    m.decidePrivileges r d =
      Plan.ofExcept ((r.lookUp request).map fun found => (found.sorted d).edits) := by
  have hlookUp : (m.privileges.mapM fun p => return (← r.privilege (.text p.1), p.2)) =
      (r.lookUp request).map (List.map fun q => (q.1, q.2.toList)) := by
    rw [Registry.lookUp, ← mapM_map_eq, h, valued, List.mapM_map]
    congr 1
    funext q
    rw [Function.comp_apply]
    generalize PrivilegeValue.ofText? q.2 = o
    cases r.privilege (.text q.1) <;> rfl
  have hvalues (o : Option PrivilegeValue) :
      PrivilegeValue.inOrder.reverse.filter o.toList.contains = o.toList := by
    rcases o with _ | v
    · rfl
    · cases v <;> rfl
  rw [decidePrivileges, hlookUp]
  cases r.lookUp request with
  | error e => rfl
  | ok found =>
    -- The values do not count when what was found is sorted.
    have hsort := List.map_mergeSort (r := fun p q => d.precedes p.1.id q.1.id)
      (s := fun p q => d.precedes p.1.id q.1.id)
      (f := fun q : Privilege × Option PrivilegeValue => (q.1, q.2.toList)) (l := found)
      fun _ _ _ _ => rfl
    simp only [Except.map, bind, Except.bind, pure, Except.pure, ← hsort, List.flatMap_map,
      hvalues, Findings.sorted, Findings.edits]

theorem plan_valued (r : Registry) (known : Vocabulary) (d : DepthIndex)
    (request : List (String × String)) : (valued request).plan r known d =
      Plan.ofExcept ((r.lookUp request).map fun found => (found.sorted d).edits) := by
  have hdelete : (valued request).deletePrivileges r = [] := rfl
  have hunrestrict : (valued request).deleteRestrictions r known = [] := rfl
  rw [plan, hdelete, hunrestrict, addRestrictions_of_nil rfl, decidePrivileges_eq rfl]
  simp

end Modifications

/-! ## Main result -/

namespace Registry

variable {r : Registry} {provider : Provider} {acl : List Entry} {principal : Principal}
  {path : Option String} {known : Vocabulary} {m : DecisionMap}
  {request : List (String × String)}

/-- If a privilege is not found, nothing is done in either way. -/
theorem exists_unknown (h : provider.load path acl principal = .ok (known, m)) {e : Error}
    (hnodup : (request.map Prod.fst).Nodup)
    (hname : ∀ q ∈ request,
      Parameter.ofName? (Parameter.privilegeLead ++ q.1) = some (.privilege q.1))
    (hunknown : r.lookUp request = .error e) :
    (∃ q ∈ request, r.contains q.1 = false ∧ e = .unknownPrivilege (.text q.1)) ∧
      (r.amend provider acl principal path (.deciding (valueParameters request))).result =
        .error e ∧
      (r.modify provider acl principal path (valueParameters request)).result = .error e := by
  refine ⟨?_, ?_, ?_⟩
  · obtain ⟨q, hq, herror⟩ := exists_of_mapM_eq_error hunknown
    refine ⟨q, hq, privilege_eq_error_iff.1 ?_⟩
    cases hp : r.privilege (.text q.1) <;> rw [hp] at herror <;> cases herror
    rfl
  · have hrequested := Amendment.result_requested (Amendment.privileges_deciding request) r
    rw [hunknown] at hrequested
    rw [amend, Journal.result_bind, result_amendedDecisions h, hrequested]
    rfl
  · have hplan := Modifications.plan_valued r known r.depths request
    rw [hunknown] at hplan
    rw [modify, Journal.result_bind, result_modifiedDecisions h
      (Modifications.result_valueParameters hnodup hname), hplan]
    rfl

/-- If all privileges are found, either way leads to the same decisions. -/
theorem exists_same_values (h : provider.load path acl principal = .ok (known, m))
    (hnodup : (request.map Prod.fst).Nodup)
    (hname : ∀ q ∈ request,
      Parameter.ofName? (Parameter.privilegeLead ++ q.1) = some (.privilege q.1))
    (hfound : r.lookUp request = .ok found) (hapart : found.Apart) :
    ∃ n n', (r.amendedDecisions provider acl principal path
        (.deciding (valueParameters request))).result = .ok n ∧
      (r.modifiedDecisions provider acl principal path (valueParameters request)).result =
        .ok n' ∧ n.same n' = true := by
  have hrequested := Amendment.result_requested (Amendment.privileges_deciding request) r
  have hplan := Modifications.plan_valued r known r.depths request
  rw [hfound] at hrequested hplan
  obtain ⟨n, hn, hget⟩ := exists_amendedDecisions h (a := .deciding (valueParameters request))
    rfl rfl hrequested
  obtain ⟨n', hn', hget'⟩ := exists_modifiedDecisions h
    (Modifications.result_valueParameters hnodup hname) hplan
    (Findings.within_edits (Findings.of_lookUp hfound).2 r.depths)
  refine ⟨n, n', hn, hn', DecisionMap.same_iff.2 fun k => ?_⟩
  rw [hget', Edit.replay_edits hapart, ← Amendment.hits_requests hapart]
  exact hget k

/-- Values of privileges that have no leaves in common are given by an amendment as by
    parameters: either way leads to the same entries, or some privilege is not known to
    either. -/
theorem values_outcome (r : Registry) (provider : Provider) (acl : List Entry)
    (principal : Principal) (path : Option String)
    (hnodup : (request.map Prod.fst).Nodup)
    (hname : ∀ q ∈ request,
      Parameter.ofName? (Parameter.privilegeLead ++ q.1) = some (.privilege q.1))
    (hapart : request.Pairwise fun p q =>
      ∀ leaf, ¬ (r.covers p.1 leaf = true ∧ r.covers q.1 leaf = true)) :
    r.SameOutcome provider acl principal path (.deciding (valueParameters request))
      (valueParameters request) ∨
    ∃ q ∈ request, r.contains q.1 = false ∧
      (r.amend provider acl principal path (.deciding (valueParameters request))).result =
        .error (.unknownPrivilege (.text q.1)) ∧
      (r.modify provider acl principal path (valueParameters request)).result =
        .error (.unknownPrivilege (.text q.1)) := by
  cases hfound : r.lookUp request with
  | error e =>
    cases hload : provider.load path acl principal with
    | error _ =>
      refine .inl (sameOutcome_of_same fun known m h => ?_)
      rw [hload] at h
      cases h
    | ok start =>
      obtain ⟨⟨q, hq, hunknown, rfl⟩, houtcome⟩ := exists_unknown hload hnodup hname hfound
      exact .inr ⟨q, hq, hunknown, houtcome⟩
  | ok found =>
    refine .inl (sameOutcome_of_same fun known m hload => ?_)
    exact exists_same_values hload hnodup hname hfound (Findings.apart_of_lookUp hfound hapart)

/-- Reading and editing have no leaf in common in a diamond. -/
def apartRequest : List (String × String) := [("doc:edit", " Denied "), ("doc:read", "allow")]

/-- What is denied and allowed apart in a diamond is so in either way. -/
theorem values_outcome_diamond :
    diamond.SameOutcome .standard sharedEntries (.text "guest") (some "/")
      (.deciding (valueParameters apartRequest)) (valueParameters apartRequest) := by
  have hknown : ∀ q ∈ apartRequest, diamond.contains q.1 = true := by decide +kernel
  have hnodup : (apartRequest.map Prod.fst).Nodup := by decide
  have hapart : apartRequest.Pairwise fun p q =>
      ∀ leaf, ¬ (diamond.covers p.1 leaf = true ∧ diamond.covers q.1 leaf = true) := by
    have hedit : (diamond.get? "doc:edit").bind (·.leaves?) = some ["doc:write", "doc:share"] := by
      decide +kernel
    have hread : (diamond.get? "doc:read").bind (·.leaves?) = some ["doc:read"] := by
      decide +kernel
    have hleaf (leaf : String) : ¬ (diamond.covers "doc:edit" leaf = true ∧
        diamond.covers "doc:read" leaf = true) := by
      simp only [covers_eq_any, hedit, hread, Option.any_some]
      rintro ⟨hedit, hread⟩
      rw [List.contains_iff_mem, List.mem_singleton] at hread
      subst hread
      exact absurd hedit (by decide)
    exact List.pairwise_pair.2 hleaf
  obtain h | ⟨q, hq, hunknown, _⟩ := values_outcome diamond .standard sharedEntries
    (.text "guest") (some "/") hnodup (by decide +kernel) hapart
  · exact h
  · rw [hknown q hq] at hunknown
    cases hunknown

end Registry

end AccessControl
