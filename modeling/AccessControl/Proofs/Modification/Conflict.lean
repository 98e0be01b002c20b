import AccessControl.Proofs.Agreement
import AccessControl.Proofs.Modification.Granting
import AccessControl.Proofs.Modification.Priority

/-!
# Values that contradict each other

A parameter may have values that allow a privilege and values that deny it. Those that allow
come last and win: it makes no difference whether the privilege is denied first. There is one
exception. Where only the side that allows is in force, under restrictions, being denied first
leaves both sides in force, as they are under different restrictions (`DecisionMap.limits`).

This is so for every privilege whose name is that of the parameter after the lead. The name of
a privilege that ends as the names of parameters that delete do, or with a line break, is read
in another way (`Parameter.ofName?_lead`).

* `Amendment.replay_allowing`: what values make of a decision if one of them allows;
* `Registry.exists_allowed`, `Registry.exists_conflict`: a parameter of which some value allows,
  with and without the values that deny;
* `Registry.SameModification`, `Registry.DifferentModification`: requests that do the same, and
  requests that do not;
* `Registry.conflict_outcome`: when these values make no difference, and what they leave
  otherwise.
-/

namespace AccessControl

/-! ## Values -/

/-- Whether data are read as a value that denies. -/
def Datum.isDenial (d : Datum) : Bool :=
  PrivilegeValue.ofDatum? d == some .deny || PrivilegeValue.ofDatum? d == some .denied

/-- Values without those that deny. -/
def withoutDenials (values : List Datum) : List Datum := values.filter fun d => !d.isDenial

/-- Some value allows, and none takes back what has been decided. -/
structure Allowing (values : List Datum) : Prop where
  /-- There is a value that allows. -/
  allows : ∃ d ∈ values,
    PrivilegeValue.ofDatum? d = some .allow ∨ PrivilegeValue.ofDatum? d = some .granted
  /-- No value takes anything back. -/
  keeps : ∀ d ∈ values, PrivilegeValue.ofDatum? d ≠ some .none

section

variable {values : List Datum}

theorem Allowing.withoutDenials (h : Allowing values) : Allowing (withoutDenials values) where
  allows := by
    obtain ⟨d, hd, hallow⟩ := h.allows
    refine ⟨d, List.mem_filter.2 ⟨hd, ?_⟩, hallow⟩
    rcases hallow with hallow | hallow <;> rw [Datum.isDenial, hallow] <;> rfl
  keeps d hd := h.keeps d (List.mem_filter.1 hd).1

theorem any_isDenial_withoutDenials (values : List Datum) :
    (withoutDenials values).any Datum.isDenial = false := by
  rw [withoutDenials, List.any_filter]
  simp

theorem PrivilegeValue.mem_allOf_list {v : PrivilegeValue} :
    v ∈ allOf (.list values) ↔ ∃ d ∈ values, ofDatum? d = some v := List.mem_filterMap

/-- Values from the weakest to the strongest allow in the end if one of them does, and deny if
    none of them allows or takes back what has been decided. -/
theorem Amendment.replay_byStrength (rs : RestrictionSet) (p : PrivilegeValue → Bool)
    (o : Option Decision) : Decision.Alike (replay rs (PrivilegeValue.byStrength.filter p) o)
      ((Operation.set .allow rs).actIf (p .granted || p .allow) (Operation.drop.actIf (p .none)
        ((Operation.set .deny rs).actIf (p .deny || p .denied) o))) := by
  have hdeny := replay_filter rs (.set .deny rs) [.deny, .denied]
    (by simp [PrivilegeValue.operation]) p o
  have hdrop := replay_append_filter .drop [.none]
    (by simp [PrivilegeValue.operation]) hdeny
  have hallow := replay_append_filter (.set .allow rs) [.granted, .allow]
    (by simp [PrivilegeValue.operation]) hdrop
  simp only [List.any_cons, List.any_nil, Bool.or_false] at hallow
  exact hallow

/-- Values of which one allows, and none takes anything back, allow in the end. If there are
    others that deny, these come first. -/
theorem Amendment.replay_allowing (h : Allowing values) (o : Option Decision) :
    Decision.Alike
      (replay ∅ (PrivilegeValue.byStrength.filter (PrivilegeValue.allOf (.list values)).contains) o)
      ((Operation.set .allow ∅).act
        ((Operation.set .deny ∅).actIf (values.any Datum.isDenial) o)) := by
  have hcontains (v : PrivilegeValue) : (PrivilegeValue.allOf (.list values)).contains v =
      values.any fun d => PrivilegeValue.ofDatum? d == some v := by
    rw [Bool.eq_iff_iff, List.contains_iff_mem, PrivilegeValue.mem_allOf_list, List.any_eq_true]
    simp only [beq_iff_eq]
  have hdeny : ((PrivilegeValue.allOf (.list values)).contains .deny ||
      (PrivilegeValue.allOf (.list values)).contains .denied) = values.any Datum.isDenial := by
    rw [hcontains, hcontains, Bool.eq_iff_iff]
    simp only [Datum.isDenial, Bool.or_eq_true, List.any_eq_true, and_or_left, exists_or]
  have hnone : (PrivilegeValue.allOf (.list values)).contains .none = false := by
    rw [hcontains, List.any_eq_false]
    exact fun d hd => by simpa using h.keeps d hd
  have hallow : ((PrivilegeValue.allOf (.list values)).contains .granted ||
      (PrivilegeValue.allOf (.list values)).contains .allow) = true := by
    obtain ⟨d, hd, hallow⟩ := h.allows
    rw [Bool.or_eq_true, hcontains, hcontains, List.any_eq_true, List.any_eq_true]
    rcases hallow with hallow | hallow
    · exact .inr ⟨d, hd, beq_iff_eq.2 hallow⟩
    · exact .inl ⟨d, hd, beq_iff_eq.2 hallow⟩
  have hreplay := replay_byStrength ∅ (PrivilegeValue.allOf (.list values)).contains o
  rwa [hallow, hnone, hdeny] at hreplay

end

/-- The parameter of a privilege with values. -/
def valuesParameter (name : String) (values : List Datum) : List (String × Datum) :=
  [(Parameter.privilegeLead ++ name, .list values)]

/-! ## Values that cannot be read -/

theorem Datum.eq_notText_of_textOrEmpty {d : Datum} {e : Error} (h : d.textOrEmpty = .error e) :
    e = .notText := by
  rw [textOrEmpty.eq_def] at h
  split at h
  · cases h
  · split at h
    · exact (Except.error.inj h).symm
    · cases h

theorem Datum.isDenial_of_textOrEmpty {d : Datum} {e : Error} (h : d.textOrEmpty = .error e) :
    d.isDenial = false := by
  rw [isDenial, PrivilegeValue.ofDatum?, h]
  rfl

namespace Modifications

variable {values : List Datum} {parameter name : String}

/-- If one of several values cannot be read, none is. -/
theorem result_readAll_of_error (h : ∃ v ∈ values, ∃ e, v.textOrEmpty = .error e) :
    (readAll PrivilegeValue.read values).result = .error .notText := by
  obtain ⟨v, hv, e, he⟩ := h
  rw [readAll, Journal.result_bind, Journal.result_mapM]
  cases hread : values.mapM fun v => (PrivilegeValue.read v).result with
  | ok vs =>
    obtain ⟨o, _, ho⟩ := (corresponds_of_mapM hread).forth v hv
    rw [PrivilegeValue.read, Journal.result_bind, Journal.result_liftM, he] at ho
    cases ho
  | error e' =>
    obtain ⟨w, _, hw⟩ := exists_of_mapM_eq_error hread
    cases htext : w.textOrEmpty with
    | ok text =>
      rw [PrivilegeValue.result_read htext] at hw
      cases hw
    | error e =>
      rw [PrivilegeValue.read, Journal.result_bind, Journal.result_liftM, htext] at hw
      obtain rfl := Except.error.inj hw
      rw [Datum.eq_notText_of_textOrEmpty htext]
      rfl

/-- A value that cannot be read is no denial, and keeps the request from being read with and
    without those. -/
theorem result_ofParameters_withoutDenials (hname : Parameter.ofName? parameter = some
    (.privilege name)) (h : ∃ v ∈ values, ∃ e, v.textOrEmpty = .error e) :
    (ofParameters [(parameter, .list values)]).result =
      (ofParameters [(parameter, .list (withoutDenials values))]).result := by
  have hadd {values : List Datum} (h : ∃ v ∈ values, ∃ e, v.textOrEmpty = .error e) :
      (ofParameters [(parameter, .list values)]).result = .error .notText := by
    rw [result_ofParameters, List.foldlM_cons, result_addNamed _ hname rfl, add,
      Journal.result_bind, result_readAll_of_error h]
    rfl
  obtain ⟨v, hv, e, he⟩ := h
  have hkept : v ∈ withoutDenials values := by
    rw [withoutDenials, List.mem_filter, Datum.isDenial_of_textOrEmpty he]
    exact ⟨hv, rfl⟩
  rw [hadd ⟨v, hv, e, he⟩, hadd ⟨v, hkept, e, he⟩]

end Modifications

/-! ## Decisions -/

namespace DecisionMap

/-- Some leaf of a privilege is allowed under restrictions, and not denied. -/
def limits (m : DecisionMap) (p : Privilege) : Bool := m.hasLeaf p (·.limited .allow)

/-- It makes no difference whether what is allowed is denied first, unless it stands alone under
    restrictions. -/
theorem same_of_allowed {m n n' : DecisionMap} {p : Privilege} {denied : Bool} (hm : m.OnAtoms)
    (hn : ∀ k, Decision.Alike (n.get? k) (if p.covers k then
      (Operation.set .allow ∅).act ((Operation.set .deny ∅).actIf denied (m.get? k)) else m.get? k))
    (hn' : ∀ k, Decision.Alike (n'.get? k) (if p.covers k then
      (Operation.set .allow ∅).act (m.get? k) else m.get? k)) :
    n.same n' = !(denied && m.limits p) := by
  cases denied with
  | false =>
    rw [Bool.false_and, Bool.not_false, same_iff]
    exact fun k => (hn k).trans (hn' k).symm
  | true =>
    rw [Bool.true_and, limits]
    refine same_eq_not_hasLeaf (f := fun o => some (((o.getD .undecided).grant .deny ∅).grant
      .allow ∅)) (g := fun o => some ((o.getD .undecided).grant .allow ∅)) hn hn' fun k => ?_
    refine Option.rel_some_some.trans ?_
    have hsame {d : Decision} (hc : d.Clean) (hcon : d.isContradictory = false) :=
      Decision.grant_other_grant_same hc hcon .allow
    cases hd : m.get? k with
    | none =>
      rw [Option.getD_none]
      exact iff_of_true ((hsame Decision.clean_undecided rfl).trans rfl) nofun
    | some d =>
      have hsound := hm.sound_get? k d hd
      rw [Option.getD_some]
      change ((d.grant Effect.allow.other ∅).grant .allow ∅).same (d.grant .allow ∅) = true ↔ _
      rw [hsame hsound.clean hsound.consistent]
      simp

end DecisionMap

/-! ## One parameter -/

namespace Registry

variable {r : Registry} {provider : Provider} {acl : List Entry} {principal : Principal}
  {path : Option String} {known : Vocabulary} {m : DecisionMap} {p : Privilege}
  {values : List Datum} {name parameter : String}

theorem mentioned_singleton (hp : p ∈ r.privileges) {q : String × Datum}
    (hname : Parameter.ofName? q.1 = some (.privilege p.id)) (d : DepthIndex) :
    r.mentioned d [q] = [p] := by
  have hmentions (p' : Privilege) : Parameter.mentions [q] p'.id = true ↔ p.id = p'.id := by
    simp [Parameter.mentions, Parameter.isAbout, hname]
  have hnodup : r.privileges.Nodup := .of_map _ r.catalogue.nodup
  have hone : (r.privileges.filter fun p' => Parameter.mentions [q] p'.id) = [p] := by
    refine filter_eq_singleton hnodup hp ((hmentions p).2 rfl) fun p' hp' hid => ?_
    rw [eq_of_id_eq hp hp' ((hmentions p').1 hid)]
    exact ⟨fun h => h rfl, fun h => h rfl⟩
  rw [mentioned, hone, DepthIndex.sort, List.mergeSort_singleton]

/-- One parameter does with the leaves of its privilege what its values say. -/
theorem exists_valued (h : provider.load path acl principal = .ok (known, m))
    (hp : p ∈ r.privileges) {q : String × Datum}
    (hname : Parameter.ofName? q.1 = some (.privilege p.id)) (hq : q.2.Legible) :
    ∃ n, (r.modifiedDecisions provider acl principal path [q]).result = .ok n ∧
      ∀ k, n.get? k = if p.covers k then
        Amendment.replay ∅ (PrivilegeValue.byStrength.filter
          (PrivilegeValue.allOf q.2).contains) (m.get? k) else m.get? k := by
  obtain ⟨modifications, hread, hplan⟩ := exists_plan
    (List.forall_mem_singleton.2 ⟨⟨p, hp, hname⟩, hq⟩) known r.depths
  obtain ⟨n, hn, hget⟩ := exists_modifiedDecisions h hread hplan (r.within_askedEdits _ _)
  refine ⟨n, hn, fun k => ?_⟩
  have hasked : Parameter.asked [q] p.id = PrivilegeValue.allOf q.2 := by
    simp [Parameter.asked, Parameter.isAbout, hname]
  rw [hget, Edit.replay_askedEdits, concerned, mentioned_singleton hp hname, List.filter_singleton]
  cases p.covers k with
  | false => rfl
  | true =>
    rw [cond_true, List.foldl_cons, List.foldl_nil, Parameter.strongestLast, hasked]
    rfl

/-- A parameter of which some value allows, and none takes anything back, allows the leaves of its
    privilege in the end. It denies them first if some value denies. -/
theorem exists_allowed (h : provider.load path acl principal = .ok (known, m))
    (hp : p ∈ r.privileges) (hname : Parameter.ofName? parameter = some (.privilege p.id))
    (hlegible : ∀ v ∈ values, ∃ text, v.textOrEmpty = .ok text) (hvalues : Allowing values) :
    ∃ n, (r.modifiedDecisions provider acl principal path
        [(parameter, .list values)]).result = .ok n ∧
      ∀ k, Decision.Alike (n.get? k) (if p.covers k then (Operation.set .allow ∅).act
        ((Operation.set .deny ∅).actIf (values.any Datum.isDenial) (m.get? k)) else m.get? k) := by
  obtain ⟨n, hn, hget⟩ := exists_valued h hp (q := (parameter, .list values)) hname
    ⟨values, rfl, hlegible⟩
  refine ⟨n, hn, fun k => ?_⟩
  rw [hget]
  split
  · exact Amendment.replay_allowing hvalues _
  · exact .refl _

/-- Without the values that deny it only allows them. -/
theorem exists_allowed_withoutDenials (h : provider.load path acl principal = .ok (known, m))
    (hp : p ∈ r.privileges) (hname : Parameter.ofName? parameter = some (.privilege p.id))
    (hlegible : ∀ v ∈ values, ∃ text, v.textOrEmpty = .ok text) (hvalues : Allowing values) :
    ∃ n, (r.modifiedDecisions provider acl principal path
        [(parameter, .list (withoutDenials values))]).result = .ok n ∧
      ∀ k, Decision.Alike (n.get? k)
        (if p.covers k then (Operation.set .allow ∅).act (m.get? k) else m.get? k) := by
  have hlegible' : ∀ v ∈ withoutDenials values, ∃ text, v.textOrEmpty = .ok text :=
    fun v hv => hlegible v (List.mem_filter.1 hv).1
  have hallowed := exists_allowed h hp hname hlegible' hvalues.withoutDenials
  rwa [any_isDenial_withoutDenials] at hallowed

/-- A parameter with the values that deny and without them, seen from the loaded decisions. -/
theorem exists_conflict (h : provider.load path acl principal = .ok (known, m))
    (hp : p ∈ r.privileges) (hname : Parameter.ofName? parameter = some (.privilege p.id))
    (hlegible : ∀ v ∈ values, ∃ text, v.textOrEmpty = .ok text) (hvalues : Allowing values) :
    ∃ n n', (r.modifiedDecisions provider acl principal path
        [(parameter, .list values)]).result = .ok n ∧
      (r.modifiedDecisions provider acl principal path
        [(parameter, .list (withoutDenials values))]).result = .ok n' ∧
      n.same n' = !(values.any Datum.isDenial && m.limits p) := by
  obtain ⟨n, hn, hget⟩ := exists_allowed h hp hname hlegible hvalues
  obtain ⟨n', hn', hget'⟩ := exists_allowed_withoutDenials h hp hname hlegible hvalues
  exact ⟨n, n', hn, hn', DecisionMap.same_of_allowed (Provider.onAtoms_of_load h) hget hget'⟩

/-- Where what is allowed under restrictions stands alone, it is left beside what is denied
    first, without restrictions. If nothing is denied, it is left as it is. -/
theorem decides_conflict (hacl : r.Admits acl)
    (h : provider.load path acl principal = .ok (known, m)) (hp : p ∈ r.privileges)
    (hname : Parameter.ofName? parameter = some (.privilege p.id))
    (hlegible : ∀ v ∈ values, ∃ text, v.textOrEmpty = .ok text) (hvalues : Allowing values)
    (hdenial : values.any Datum.isDenial = true) {leaf : String} {d : Decision}
    (hleaf : p.covers leaf = true) (hd : m.get? leaf = some d) (hlimited : d.limited .allow = true) :
    Decides (r.modify provider acl principal path [(parameter, .list values)]).result
        principal leaf { d with deny := ⟨true, ∅⟩ } ∧
      Decides (r.modify provider acl principal path
        [(parameter, .list (withoutDenials values))]).result principal leaf d := by
  have hsound := (Provider.onAtoms_of_load h).sound_get? leaf d hd
  constructor
  · obtain ⟨n, hn, hget⟩ := exists_allowed h hp hname hlegible hvalues
    refine decides_modify hacl hn ((hget leaf).trans ?_)
    rw [if_pos hleaf, hd, hdenial]
    have hsame := Decision.grant_other_grant_of_limited_same hsound.clean hlimited
    exact .some hsame
  · obtain ⟨n, hn, hget⟩ := exists_allowed_withoutDenials h hp hname hlegible hvalues
    refine decides_modify hacl hn ((hget leaf).trans ?_)
    rw [if_pos hleaf, hd]
    exact .some (Decision.grant_of_active hsound.consistent (Decision.active_of_limited hlimited).1)

/-! ## Outcomes -/

/-- Two requests lead to the same entries, or fail for the same reason. -/
def SameModification (r : Registry) (provider : Provider) (acl : List Entry)
    (principal : Principal) (path : Option String)
    (parameters parameters' : List (String × Datum)) : Prop :=
  Agree Eq (List.Forall₂ fun a b : Entry => a.same b = true)
    (r.modify provider acl principal path parameters).result
    (r.modify provider acl principal path parameters').result

/-- Two requests lead to entries that are not the same. -/
def DifferentModification (r : Registry) (provider : Provider) (acl : List Entry)
    (principal : Principal) (path : Option String)
    (parameters parameters' : List (String × Datum)) : Prop :=
  ∃ entries entries', (r.modify provider acl principal path parameters).result = .ok entries ∧
    (r.modify provider acl principal path parameters').result = .ok entries' ∧
    ¬ List.Forall₂ (fun a b : Entry => a.same b = true) entries entries'

variable {parameters parameters' : List (String × Datum)} {n n' : DecisionMap}

theorem DifferentModification.not_sameModification
    (h : r.DifferentModification provider acl principal path parameters parameters') :
    ¬ r.SameModification provider acl principal path parameters parameters' := by
  obtain ⟨entries, entries', hentries, hentries', hne⟩ := h
  rw [SameModification, hentries, hentries']
  exact fun hsame => hne (rel_of_agree_ok hsame)

/-- Requests that are read as the same do the same. -/
theorem sameModification_of_result_eq
    (h : (Modifications.ofParameters parameters).result =
      (Modifications.ofParameters parameters').result) :
    r.SameModification provider acl principal path parameters parameters' := by
  have hmodify : (r.modify provider acl principal path parameters).result =
      (r.modify provider acl principal path parameters').result := by
    simp only [modify, modifiedDecisions, Journal.result_bind, h]
  rw [SameModification, hmodify]
  exact .refl (fun _ => rfl) (fun entries => List.forall₂_same.2 fun a _ => a.same_refl) _

/-- Requests that lead to the same decisions lead to the same entries. -/
theorem sameModification_of_same (h : ∀ known m, provider.load path acl principal = .ok (known, m) →
      ∃ n n', (r.modifiedDecisions provider acl principal path parameters).result = .ok n ∧
        (r.modifiedDecisions provider acl principal path parameters').result = .ok n' ∧
        n.same n' = true) :
    r.SameModification provider acl principal path parameters parameters' := by
  rw [SameModification]
  cases hload : provider.load path acl principal with
  | error e =>
    rw [(result_of_load_eq_error (a := .deciding []) hload).2,
      (result_of_load_eq_error (a := .deciding []) hload).2]
    exact .error rfl
  | ok start =>
    obtain ⟨n, n', hn, hn', hsame⟩ := h start.1 start.2 hload
    rw [result_modify hn, result_modify hn']
    exact .ok (DecisionMap.entries_congr (DecisionMap.consolidate_congr hsame (.refl r) _) _ _)

/-- Decisions that are not the same can be told from the entries. -/
theorem differentModification_of_not_same (hacl : r.Admits acl)
    (hn : (r.modifiedDecisions provider acl principal path parameters).result = .ok n)
    (hn' : (r.modifiedDecisions provider acl principal path parameters').result = .ok n')
    (h : n.same n' = false) :
    r.DifferentModification provider acl principal path parameters parameters' := by
  refine ⟨_, _, result_modify hn, result_modify hn', fun hentries => ?_⟩
  rw [DecisionMap.same_of_entries (reachable_modifiedDecisions hacl hn).isLeafMap
    (reachable_modifiedDecisions hacl hn').isLeafMap hentries] at h
  cases h

/-- Where what is allowed under restrictions stands alone, being denied first makes a
    difference. -/
theorem differentModification_of_limits (hp : p ∈ r.privileges)
    (hname : Parameter.ofName? parameter = some (.privilege p.id)) (hvalues : Allowing values)
    (hdenial : values.any Datum.isDenial = true)
    (hlegible : ∀ v ∈ values, ∃ text, v.textOrEmpty = .ok text)
    (hsupported : provider.supported path = .ok known) (hacl : r.Admits acl)
    (hlimits : ∃ m, DecisionMap.ofEntries acl principal = .ok m ∧ m.limits p = true) :
    r.DifferentModification provider acl principal path [(parameter, .list values)]
      [(parameter, .list (withoutDenials values))] := by
  obtain ⟨m, hm, hlimits⟩ := hlimits
  obtain ⟨n, n', hn, hn', heq⟩ := exists_conflict (Provider.load_eq_ok_iff.2 ⟨hsupported, hm⟩) hp
    hname hlegible hvalues
  exact differentModification_of_not_same hacl hn hn' (by rw [heq, hdenial, hlimits]; rfl)

/-! ## Main result -/

/-- A parameter of which some value allows, and none takes anything back, does the same with the
    values that deny and without them, unless some leaf of the privilege is allowed under
    restrictions, and not denied. If there is such a leaf, if some value denies, if the
    parameter can be read, and if the registry makes sense of the stored entries, it leads to
    different entries: each such leaf is left denied without restrictions beside what allows it,
    and without the values that deny it is left as it is. -/
theorem conflict_outcome (r : Registry) (provider : Provider) (acl : List Entry)
    (principal : Principal) (path : Option String) (hp : r.get? name = some p)
    (hdelete : ∀ front, name ≠ front ++ Parameter.deleteTrail)
    (hbreak : ∀ front, name ≠ front ++ "\n") (hvalues : Allowing values) :
    (values.any Datum.isDenial = false ∨
        (∀ m, DecisionMap.ofEntries acl principal = .ok m → m.limits p = false) →
      r.SameModification provider acl principal path (valuesParameter name values)
        (valuesParameter name (withoutDenials values))) ∧
    (values.any Datum.isDenial = true →
      Parameter.ofName? (Parameter.privilegeLead ++ name) = some (.privilege name) →
      (∀ v ∈ values, ∃ text, v.textOrEmpty = .ok text) →
      (∃ known, provider.supported path = .ok known) → r.Admits acl →
      (∃ m, DecisionMap.ofEntries acl principal = .ok m ∧ m.limits p = true) →
      r.DifferentModification provider acl principal path (valuesParameter name values)
        (valuesParameter name (withoutDenials values))) ∧
    (values.any Datum.isDenial = true →
      Parameter.ofName? (Parameter.privilegeLead ++ name) = some (.privilege name) →
      (∀ v ∈ values, ∃ text, v.textOrEmpty = .ok text) →
      (∃ known, provider.supported path = .ok known) → r.Admits acl →
      ∀ m leaf d, DecisionMap.ofEntries acl principal = .ok m → p.covers leaf = true →
        m.get? leaf = some d → d.limited .allow = true →
          Decides (r.modify provider acl principal path (valuesParameter name values)).result
            principal leaf { d with deny := ⟨true, ∅⟩ } ∧
          Decides (r.modify provider acl principal path
            (valuesParameter name (withoutDenials values))).result principal leaf d) := by
  obtain ⟨hmem, rfl⟩ := get?_eq_some_iff.1 hp
  refine ⟨?_, ?_, ?_⟩
  · intro hfree
    rcases Parameter.ofName?_lead hdelete hbreak with hname | hname
    · by_cases hlegible : ∀ v ∈ values, ∃ text, v.textOrEmpty = .ok text
      · refine sameModification_of_same fun known m hload => ?_
        obtain ⟨n, n', hn, hn', heq⟩ := exists_conflict hload hmem hname hlegible hvalues
        refine ⟨n, n', hn, hn', ?_⟩
        rcases hfree with hfree | hfree
        · rw [heq, hfree, Bool.false_and, Bool.not_false]
        · rw [heq, hfree m (Provider.load_eq_ok_iff.1 hload).2, Bool.and_false, Bool.not_false]
      · -- The values are read in neither case.
        push Not at hlegible
        obtain ⟨v, hv, hne⟩ := hlegible
        refine sameModification_of_result_eq
          (Modifications.result_ofParameters_withoutDenials hname ⟨v, hv, ?_⟩)
        cases htext : v.textOrEmpty with
        | ok text => exact absurd htext (hne text)
        | error e => exact ⟨e, rfl⟩
    · refine sameModification_of_result_eq ?_
      rw [valuesParameter, valuesParameter, Modifications.result_ofParameters_of_none hname,
        Modifications.result_ofParameters_of_none hname]
  · rintro hdenial hname hlegible ⟨known, hsupported⟩ hacl hlimits
    exact differentModification_of_limits hmem hname hvalues hdenial hlegible hsupported hacl
      hlimits
  · rintro hdenial hname hlegible ⟨known, hsupported⟩ hacl m leaf d hm hleaf hd hlimited
    exact decides_conflict hacl (Provider.load_eq_ok_iff.2 ⟨hsupported, hm⟩) hmem hname hlegible
      hvalues hdenial hleaf hd hlimited

/-! ## In a diamond -/

/-- Something is denied and allowed. -/
def conflict : List Datum := [.text "deny", .text "allow"]

theorem allowing_conflict : Allowing conflict where
  allows := ⟨.text "allow", by simp [conflict], .inl (by decide +kernel)⟩
  keeps := by
    have hdeny : PrivilegeValue.ofDatum? (.text "deny") ≠ some .none := by decide +kernel
    have hallow : PrivilegeValue.ofDatum? (.text "allow") ≠ some .none := by decide +kernel
    simp [conflict, hdeny, hallow]

/-- What allows is left of what is denied and allowed. -/
theorem withoutDenials_conflict : withoutDenials conflict = [.text "allow"] := by
  have hdeny : (Datum.text "deny").isDenial = true := by decide +kernel
  have hallow : (Datum.text "allow").isDenial = false := by decide +kernel
  simp [withoutDenials, conflict, hdeny, hallow]

theorem legible_conflict : ∀ v ∈ conflict, ∃ text, v.textOrEmpty = .ok text := by
  intro v hv
  simp only [conflict, List.mem_cons, List.not_mem_nil, or_false] at hv
  rcases hv with rfl | rfl
  · exact ⟨"deny", rfl⟩
  · exact ⟨"allow", rfl⟩

/-- Privileges whose names are read in another way in those of parameters. -/
def misread? : Except Error Registry :=
  ofDeclarations [("doc:read", []), ("doc:read\n", []), ("doc:read@Delete", []),
    ("doc:all", [.text "doc:read", .text "doc:read\n", .text "doc:read@Delete"])]
    (.text "doc:all")

theorem misread?_isOk : misread?.toOption.isSome = true := by decide +kernel

/-- The registry of such privileges. -/
def misread : Registry := misread?.toOption.get misread?_isOk

theorem get?_misread : misread.get? "doc:read" = some (.atomic "doc:read") :=
  have hcovers : misread.root.covers "doc:read" = true := by decide +kernel
  get?_leaf hcovers

/-- Where reading is allowed under a restriction, what is denied and allowed, and what is only
    allowed, is told from the entries if the parameter is about reading. -/
theorem differentModification_guarded (hp : r.get? "doc:read" = some (.atomic "doc:read"))
    (hname : Parameter.ofName? parameter = some (.privilege "doc:read")) :
    r.DifferentModification .standard guardedEntries (.text "guest") (some "/")
      [(parameter, .list conflict)] [(parameter, .list (withoutDenials conflict))] :=
  have hmem := (get?_eq_some_iff.1 hp).1
  differentModification_of_limits hmem hname allowing_conflict (by decide +kernel)
    legible_conflict rfl (by simp [Admits, guardedEntries, hmem])
    (exists_of_any_toOption (by decide +kernel))

/-- Sides of a privilege are deleted, and nothing else is asked for. -/
def deleting (name : String) (vs : List DeleteValue) : Modifications :=
  { Modifications.empty with privilegeDeletes := [(name, vs)] }

/-- The edits that delete sides of a privilege. -/
def deletingEdits (p : Privilege) (vs : List DeleteValue) : List Edit :=
  (vs.flatMap DeleteValue.clearing).map fun op => ⟨op, some p⟩

theorem plan_deleting (hp : r.get? name = some p) (vs : List DeleteValue) (known : Vocabulary)
    (d : DepthIndex) : (deleting name vs).plan r known d = (deletingEdits p vs).map .ok := by
  have hunrestrict : (deleting name vs).deleteRestrictions r known = [] := rfl
  have hdelete : (deleting name vs).deletePrivileges r = (deletingEdits p vs).map .ok := by
    rw [Modifications.deletePrivileges, deleting, List.flatMap_singleton, privilege_of_get? hp,
      deletingEdits, List.map_flatMap]
    rfl
  rw [Modifications.plan, hdelete, hunrestrict, Modifications.decidePrivileges_of_nil rfl,
    Modifications.addRestrictions_of_nil rfl]
  simp only [List.append_nil]

/-- Where reading is denied as well, it makes a difference which of its sides are deleted. -/
theorem differentModification_misread :
    misread.DifferentModification .standard readingEntries (.text "guest") (some "/")
      (valuesParameter "doc:read@Delete" conflict)
      (valuesParameter "doc:read@Delete" (withoutDenials conflict)) := by
  have hread := get?_misread
  have hmem := (get?_eq_some_iff.1 hread).1
  obtain ⟨m, hm, hleft⟩ := exists_of_any_toOption
    (x := DecisionMap.ofEntries readingEntries (.text "guest"))
    (p := fun m => (Edit.replay ((deletingEdits (.atomic "doc:read") [.deny, .allow]).filter
      (·.covers "doc:read")) (m.get? "doc:read")).isNone &&
      (Edit.replay ((deletingEdits (.atomic "doc:read") [.allow]).filter
        (·.covers "doc:read")) (m.get? "doc:read")).isSome) (by decide +kernel)
  have hload : Provider.standard.load (some "/") readingEntries (.text "guest") =
      .ok (Vocabulary.standard, m) := Provider.load_eq_ok_iff.2 ⟨rfl, hm⟩
  have hwithin (vs : List DeleteValue) :
      ∀ ed ∈ deletingEdits (.atomic "doc:read") vs, ed.Within misread := by
    intro ed hed
    obtain ⟨op, _, rfl⟩ := List.mem_map.1 hed
    exact hmem
  have hboth : (Modifications.ofParameters (valuesParameter "doc:read@Delete" conflict)).result =
      .ok (deleting "doc:read" [.deny, .allow]) := rfl
  have hone : (Modifications.ofParameters (valuesParameter "doc:read@Delete"
      (withoutDenials conflict))).result = .ok (deleting "doc:read" [.allow]) := by
    rw [withoutDenials_conflict]
    rfl
  obtain ⟨n, hn, hget⟩ := exists_modifiedDecisions hload hboth (plan_deleting hread _ _ _)
    (hwithin _)
  obtain ⟨n', hn', hget'⟩ := exists_modifiedDecisions hload hone (plan_deleting hread _ _ _)
    (hwithin _)
  have hadmits : misread.Admits readingEntries := by simp [Admits, readingEntries, hmem]
  refine differentModification_of_not_same hadmits hn hn' ?_
  rw [← Bool.not_eq_true, DecisionMap.same_iff]
  intro hsame
  have hkept := (hsame "doc:read").isSome_eq
  rw [Bool.and_eq_true, ← hget, ← hget', Option.isNone_iff_eq_none] at hleft
  rw [hleft.1, hleft.2] at hkept
  cases hkept

/-- What is denied and allowed does not do the same as what is only allowed if reading is allowed
    under a restriction, or if the name of the privilege is read in another way. -/
theorem not_sameModification_conflict :
    Allowing conflict ∧ withoutDenials conflict = [.text "allow"] ∧
    diamond.contains "doc:read" = true ∧
    ¬ diamond.SameModification .standard guardedEntries (.text "guest") (some "/")
      (valuesParameter "doc:read" conflict) (valuesParameter "doc:read" (withoutDenials conflict)) ∧
    misread.contains "doc:read\n" = true ∧
    ¬ misread.SameModification .standard guardedEntries (.text "guest") (some "/")
      (valuesParameter "doc:read\n" conflict)
      (valuesParameter "doc:read\n" (withoutDenials conflict)) ∧
    misread.contains "doc:read@Delete" = true ∧
    ¬ misread.SameModification .standard readingEntries (.text "guest") (some "/")
      (valuesParameter "doc:read@Delete" conflict)
      (valuesParameter "doc:read@Delete" (withoutDenials conflict)) :=
  ⟨allowing_conflict, withoutDenials_conflict, by decide +kernel,
    (differentModification_guarded get?_reading (by decide +kernel)).not_sameModification,
    by decide +kernel,
    (differentModification_guarded get?_misread (by decide +kernel)).not_sameModification,
    by decide +kernel, differentModification_misread.not_sameModification⟩

/-- Being denied first makes no difference where reading is denied under a restriction, and makes
    one where it is allowed under a restriction: there it is left denied as well. -/
theorem conflict_outcome_diamond :
    diamond.SameModification .standard readingEntries (.text "guest") (some "/")
      (valuesParameter "doc:read" conflict) (valuesParameter "doc:read" (withoutDenials conflict)) ∧
    diamond.DifferentModification .standard guardedEntries (.text "guest") (some "/")
      (valuesParameter "doc:read" conflict)
      (valuesParameter "doc:read" (withoutDenials conflict)) ∧
    Decides (diamond.modify .standard guardedEntries (.text "guest") (some "/")
      (valuesParameter "doc:read" conflict)).result
      (.text "guest") "doc:read" ⟨⟨true, .single anywhere⟩, ⟨true, ∅⟩⟩ ∧
    Decides (diamond.modify .standard guardedEntries (.text "guest") (some "/")
      (valuesParameter "doc:read" (withoutDenials conflict))).result
      (.text "guest") "doc:read" ⟨⟨true, .single anywhere⟩, .off⟩ := by
  have hdelete (front : String) : "doc:read" ≠ front ++ Parameter.deleteTrail :=
    Parameter.ne_append_of_notMem isPart_reading.unseparated (by decide) front
  have hbreak (front : String) : "doc:read" ≠ front ++ "\n" :=
    Parameter.ne_append_of_notMem isPart_reading.unbroken (by decide) front
  have hadmits : diamond.Admits guardedEntries := by
    simp [Admits, guardedEntries, (get?_eq_some_iff.1 get?_reading).1]
  have houtcome := conflict_outcome diamond .standard guardedEntries (.text "guest") (some "/")
    get?_reading hdelete hbreak allowing_conflict
  refine ⟨?_, ?_, ?_⟩
  · refine (conflict_outcome diamond .standard readingEntries (.text "guest") (some "/")
      get?_reading hdelete hbreak allowing_conflict).1 (.inr fun m hm => ?_)
    have hfree := of_all_toOption (p := fun m => !m.limits (.atomic "doc:read"))
      (by decide +kernel) hm
    simpa using hfree
  · exact houtcome.2.1 (by decide +kernel) (by decide +kernel) legible_conflict ⟨_, rfl⟩ hadmits
      (exists_of_any_toOption (by decide +kernel))
  · obtain ⟨m, d, hm, hd, h⟩ : ∃ m d,
        DecisionMap.ofEntries guardedEntries (.text "guest") = .ok m ∧
        m.get? "doc:read" = some d ∧
        (d.limited .allow && d.same ⟨⟨true, .single anywhere⟩, .off⟩) = true :=
      DecisionMap.exists_get?_of_any (by decide +kernel)
    obtain ⟨hlimited, hsame⟩ := Bool.and_eq_true_iff.1 h
    obtain ⟨hdenied, hallowed⟩ := houtcome.2.2 (by decide +kernel) (by decide +kernel)
      legible_conflict ⟨_, rfl⟩ hadmits m "doc:read" d hm (Privilege.covers_atomic "doc:read") hd
      hlimited
    refine ⟨hdenied.congr ?_, hallowed.congr hsame⟩
    exact (Decision.same_iff_other .allow).2
      ⟨((Decision.same_iff_other .allow).1 hsame).1, Side.same_refl _⟩

end Registry

end AccessControl
