import AccessControl.Proofs.Modification.Outcome
import AccessControl.Proofs.Modification.Parameter

/-!
# Removing restrictions everywhere

Restrictions are removed from all entries of a principal by an amendment, or by parameters
that delete them one by one. The amendment goes through the sides of each decision, the
parameters through the names. Both lead to the same entries, unless the sides of a stored
decision collide when the names are removed: then the amendment is left with what is denied,
and the parameters with what is allowed.

* `DecisionMap.same_stripped`: both ways seen from the loaded decisions;
* `Amendment.removing`, `Registry.removalParameters`: both ways to ask for it;
* `Registry.removing_outcome`: when they do the same, and what they leave otherwise.
-/

namespace AccessControl

/-! ## Loaded decisions -/

/-- Names are removed from both sides one by one. -/
def Decision.unrestrictEach (d : Decision) (names : List (Option String)) : Decision :=
  names.foldl (fun d name => d.unrestrictBoth [name]) d

theorem Decision.strip_same_unrestrictEach {d : Decision} (hd : d.Sound)
    (names : List (Option String)) :
    (d.strip names).same (d.unrestrictEach names) = !d.collides names := by
  have heach : (d.unrestrictEach names).same (d.unrestrictBoth names) = true :=
    foldl_unrestrictBoth_same hd names
  rw [← strip_same hd.clean, Bool.eq_iff_iff]
  exact ⟨fun h => same_trans h heach, fun h => same_trans h (same_symm heach)⟩

namespace DecisionMap

variable {m n : DecisionMap} {names : List (Option String)}

/-- There is a decision whose sides collide. -/
def collides (m : DecisionMap) (names : List (Option String)) : Bool :=
  m.rulings.any (·.decision.collides names)

theorem collides_eq_false_iff :
    m.collides names = false ↔ ∀ k, ∀ d ∈ m.get? k, d.collides names = false := by
  rw [collides, ← forall_mem_rulings_iff, List.any_eq_false]
  simp

/-- Both ways to remove names lead to the same decisions if no sides collide. -/
theorem same_stripped (hm : m.OnAtoms)
    (hget : ∀ k, n.get? k = (m.get? k).map (·.unrestrictEach names)) :
    (m.mapDecisions (·.strip names)).same n = !m.collides names := by
  rw [Bool.eq_iff_iff, Bool.not_eq_true', collides_eq_false_iff, same_iff]
  refine forall_congr' fun k => ?_
  rw [get?_mapDecisions, hget]
  cases hk : m.get? k with
  | none => simp
  | some d =>
    have hsame := Decision.strip_same_unrestrictEach (hm.sound_get? k d hk) names
    simp [hsame]

end DecisionMap

/-! ## Requests -/

/-- Restrictions are removed, and nothing else is done. -/
def Amendment.removing (names : List String) : Amendment where
  privileges := []
  restrictions := []
  listedRestrictions := []
  removed := .list (names.map Datum.text)

/-- Parameters that delete restrictions everywhere; their values make no difference. -/
def removalParameters (removals : List (String × Datum)) : List (String × Datum) :=
  removals.map fun q => ((Parameter.restrictionDelete q.1).write, q.2)

theorem Amendment.names_removing (names : List String) :
    (Amendment.removing names).removed.names = .ok (names.map some) := by
  have hsingles : Datum.singles (names.map Datum.text) = .ok (names.map .text) := by
    rw [Datum.singles, List.mapM_map]
    exact mapM_eq_ok_map fun _ _ => rfl
  have hscalars : (Datum.list (names.map Datum.text)).scalars = .ok (names.map .text) := by
    cases names with
    | nil => rfl
    | cons name names => exact hsingles
  have hnames : (names.map Scalar.text).filterMap Datum.name? = names.map some := by
    rw [List.filterMap_map, ← List.filterMap_eq_map]
    rfl
  rw [removing, Datum.names, hscalars, ← hnames]
  rfl

namespace Modifications

/-- What the parameters ask for that delete restrictions everywhere. -/
theorem result_removalParameters {removals : List (String × Datum)}
    (h : ∀ q ∈ removals, Parameter.IsPart q.1 ∧ ∃ vs, q.2.values = .ok vs) :
    (ofParameters (removalParameters removals)).result =
      .ok { empty with restrictionDeletes := removals.map fun q => ⟨none, q.1, [.all]⟩ } := by
  -- Each parameter adds one more deletion after those that were there.
  have hadd (m : Modifications) :
      (removalParameters removals).foldlM (fun m parameter => (addNamed m parameter).result) m =
        .ok { m with restrictionDeletes :=
          m.restrictionDeletes ++ removals.map fun q => ⟨none, q.1, [.all]⟩ } := by
    rw [removalParameters]
    induction removals generalizing m with
    | nil => simp [pure, Except.pure]
    | cons q removals ih =>
      obtain ⟨⟨hpart, vs, hvs⟩, hrest⟩ := List.forall_mem_cons.1 h
      rw [List.map_cons, List.foldlM_cons,
        result_addNamed m (Parameter.ofName?_restrictionDelete hpart.isSeparable) hvs]
      refine (ih hrest _).trans ?_
      simp
  rw [result_ofParameters, hadd]
  rfl

/-- The edits that remove restrictions everywhere, one after the other. -/
def removalEdits (names : List String) : List Edit :=
  names.map fun name => ⟨.unrestrictBoth [some name], none⟩

theorem deleteRestrictions_removals (r : Registry) {known : Vocabulary}
    {removals : List (String × Datum)} (h : ∀ q ∈ removals, (known.find? q.1).isSome = true) :
    deleteRestrictions { empty with
        restrictionDeletes := removals.map fun q => ⟨none, q.1, [.all]⟩ } r known =
      (removalEdits (removals.map Prod.fst)).map .ok := by
  rw [deleteRestrictions, removalEdits]
  induction removals with
  | nil => rfl
  | cons q removals ih =>
    obtain ⟨hq, hrest⟩ := List.forall_mem_cons.1 h
    obtain ⟨definition, hdefinition⟩ := Option.isSome_iff_exists.1 hq
    rw [List.map_cons, List.flatMap_cons, ih hrest, Vocabulary.definition_of_find? hdefinition]
    rfl

theorem plan_removals (r : Registry) {known : Vocabulary} (d : DepthIndex)
    {removals : List (String × Datum)} (h : ∀ q ∈ removals, (known.find? q.1).isSome = true) :
    plan { empty with restrictionDeletes := removals.map fun q => ⟨none, q.1, [.all]⟩ } r known d =
      (removalEdits (removals.map Prod.fst)).map .ok := by
  have hdelete : deletePrivileges { empty with
      restrictionDeletes := removals.map fun q => ⟨none, q.1, [.all]⟩ } r = [] := rfl
  rw [plan, hdelete, deleteRestrictions_removals r h, decidePrivileges_of_nil rfl,
    addRestrictions_of_nil rfl]
  simp

theorem within_removalEdits (r : Registry) (names : List String) :
    ∀ ed ∈ removalEdits names, ed.Within r := by
  simp [removalEdits, Edit.Within, Operation.IsIdle, Operation.act]

/-- Seen from a leaf, the edits remove one name after the other from its decision. -/
theorem replay_removalEdits (names : List String) (k : String) (o : Option Decision) :
    Edit.replay ((removalEdits names).filter (·.covers k)) o =
      o.map (·.unrestrictEach (names.map some)) := by
  rw [List.filter_eq_self.2 (by simp [removalEdits, Edit.covers]), removalEdits, Edit.replay]
  induction names generalizing o with
  | nil => simp [Decision.unrestrictEach]
  | cons name names ih =>
    rw [List.map_cons, List.foldl_cons, ih]
    simp [Operation.act, Decision.unrestrictEach, Function.comp_def]

end Modifications

namespace Registry

variable {r : Registry} {provider : Provider} {acl : List Entry} {principal : Principal}
  {path : Option String} {known : Vocabulary} {m : DecisionMap}

/-- What the amendment leads to. -/
theorem result_removing (h : provider.load path acl principal = .ok (known, m))
    (names : List String) :
    (r.amendedDecisions provider acl principal path (.removing names)).result =
      .ok (m.mapDecisions (·.strip (names.map some))) := by
  rw [result_amendedDecisions h, Amendment.remove, Amendment.names_removing]
  rfl

/-- What the parameters lead to. -/
theorem exists_unrestricted (h : provider.load path acl principal = .ok (known, m))
    {removals : List (String × Datum)} (hremovals : ∀ q ∈ removals, Parameter.IsPart q.1 ∧
      (known.find? q.1).isSome = true ∧ ∃ vs, q.2.values = .ok vs) :
    ∃ n, (r.modifiedDecisions provider acl principal path (removalParameters removals)).result =
        .ok n ∧
      ∀ k, n.get? k = (m.get? k).map (·.unrestrictEach ((removals.map Prod.fst).map some)) := by
  have hread := Modifications.result_removalParameters fun q hq =>
    ⟨(hremovals q hq).1, (hremovals q hq).2.2⟩
  have hplan := Modifications.plan_removals r r.depths fun q hq => (hremovals q hq).2.1
  obtain ⟨n, hn, hget⟩ := exists_modifiedDecisions h hread hplan
    (Modifications.within_removalEdits r (removals.map Prod.fst))
  refine ⟨n, hn, fun k => ?_⟩
  rw [hget, Modifications.replay_removalEdits]

/-- Both ways, seen from the loaded decisions. -/
theorem exists_removing (h : provider.load path acl principal = .ok (known, m))
    {removals : List (String × Datum)} (hremovals : ∀ q ∈ removals, Parameter.IsPart q.1 ∧
      (known.find? q.1).isSome = true ∧ ∃ vs, q.2.values = .ok vs) :
    ∃ n n', (r.amendedDecisions provider acl principal path
        (.removing (removals.map Prod.fst))).result = .ok n ∧
      (r.modifiedDecisions provider acl principal path (removalParameters removals)).result =
        .ok n' ∧
      n.same n' = !m.collides ((removals.map Prod.fst).map some) := by
  obtain ⟨n', hn', hget⟩ := exists_unrestricted (r := r) h hremovals
  exact ⟨_, n', result_removing h _, hn',
    DecisionMap.same_stripped (Provider.onAtoms_of_load h) hget⟩

/-- Where the sides of a loaded decision collide, the amendment leaves what denies, and the
    parameters what allows. -/
theorem decides_removing (hacl : r.Admits acl)
    (h : provider.load path acl principal = .ok (known, m)) {removals : List (String × Datum)}
    (hremovals : ∀ q ∈ removals, Parameter.IsPart q.1 ∧
      (known.find? q.1).isSome = true ∧ ∃ vs, q.2.values = .ok vs)
    {leaf : String} {d : Decision} (hd : m.get? leaf = some d)
    (hcollides : d.collides ((removals.map Prod.fst).map some) = true) :
    Decides (r.amend provider acl principal path (.removing (removals.map Prod.fst))).result
        principal leaf ⟨.off, d.deny.remove ((removals.map Prod.fst).map some)⟩ ∧
      Decides (r.modify provider acl principal path (removalParameters removals)).result
        principal leaf ⟨d.allow.remove ((removals.map Prod.fst).map some), .off⟩ := by
  have hsound := (Provider.onAtoms_of_load h).sound_get? leaf d hd
  constructor
  · refine decides_amend hacl (result_removing h _) ?_
    rw [DecisionMap.get?_mapDecisions, hd, Option.map_some,
      Decision.strip_of_collides hsound.clean hcollides]
    exact .refl _
  · obtain ⟨n, hn, hget⟩ := exists_unrestricted (r := r) h hremovals
    refine decides_modify hacl hn ?_
    rw [hget, hd, Option.map_some, ← Decision.unrestrictBoth_of_collides hcollides]
    exact .some (Decision.foldl_unrestrictBoth_same hsound _)

/-- Restrictions that are known are removed by an amendment as by parameters, unless the sides
    of a loaded decision collide. If they do, and the registry makes sense of the stored
    entries, both ways lead to different entries: the amendment leaves what denies, without the
    names that are removed, and the parameters what allows. -/
theorem removing_outcome (r : Registry) (provider : Provider) (acl : List Entry)
    (principal : Principal) (path : Option String)
    (hknown : provider.supported path = .ok known) {removals : List (String × Datum)}
    (hremovals : ∀ q ∈ removals, Parameter.IsPart q.1 ∧
      (known.find? q.1).isSome = true ∧ ∃ vs, q.2.values = .ok vs) :
    ((∀ m, DecisionMap.ofEntries acl principal = .ok m →
        m.collides ((removals.map Prod.fst).map some) = false) →
      r.SameOutcome provider acl principal path (.removing (removals.map Prod.fst))
        (removalParameters removals)) ∧
    (r.Admits acl → (∃ m, DecisionMap.ofEntries acl principal = .ok m ∧
        m.collides ((removals.map Prod.fst).map some) = true) →
      r.DifferentOutcome provider acl principal path (.removing (removals.map Prod.fst))
        (removalParameters removals)) ∧
    (r.Admits acl → ∀ m leaf d, DecisionMap.ofEntries acl principal = .ok m →
      m.get? leaf = some d → d.collides ((removals.map Prod.fst).map some) = true →
        Decides (r.amend provider acl principal path (.removing (removals.map Prod.fst))).result
          principal leaf ⟨.off, d.deny.remove ((removals.map Prod.fst).map some)⟩ ∧
        Decides (r.modify provider acl principal path (removalParameters removals)).result
          principal leaf ⟨d.allow.remove ((removals.map Prod.fst).map some), .off⟩) := by
  refine and_assoc.1 ⟨outcome_of_same_eq hknown fun _ hload => exists_removing hload hremovals, ?_⟩
  intro hacl m leaf d hm hd hcollides
  exact decides_removing hacl (Provider.load_eq_ok_iff.2 ⟨hknown, hm⟩) hremovals hd hcollides

/-! ## In a diamond -/

/-- A restriction that leaves out nothing. -/
def anywhere : Restriction := ⟨some RestrictionName.glob, .bool false, [.text "*"]⟩

/-- A restriction whose name cannot be written into that of a parameter. -/
def unnamed : RestrictionDefinition := ⟨"", "String", .bool false⟩

/-- Reading is allowed to the guest of the diamond, and denied under a restriction. -/
def readingEntries : List Entry :=
  [⟨.text "guest", .allow, [.atomic "doc:read"], ∅⟩,
    ⟨.text "guest", .deny, [.atomic "doc:read"], .single anywhere⟩]

/-- Reading is allowed to the guest of the diamond under a restriction without a name. -/
def unnamedEntries : List Entry :=
  [⟨.text "guest", .allow, [.atomic "doc:read"], .single ⟨some "", .bool false, [.text "*"]⟩⟩]

theorem get?_reading : diamond.get? "doc:read" = some (.atomic "doc:read") :=
  get?_leaf (by decide +kernel)

theorem admits_reading : diamond.Admits readingEntries ∧ diamond.Admits unnamedEntries := by
  simp [Admits, readingEntries, unnamedEntries, (get?_eq_some_iff.1 get?_reading).1]

theorem isPart_glob : Parameter.IsPart RestrictionName.glob := ⟨by decide, by decide, by decide⟩

theorem removable_glob : ∀ q ∈ [(RestrictionName.glob, Datum.text "true")],
    Parameter.IsPart q.1 ∧ (Vocabulary.standard.find? q.1).isSome = true ∧
      ∃ vs, q.2.values = .ok vs :=
  List.forall_mem_singleton.2 ⟨isPart_glob, by decide, _, rfl⟩

/-- What both ways remove from a diamond is not the same if the sides collide, or if the
    restriction has no name that could be written. -/
theorem not_sameOutcome_removing :
    (Vocabulary.standard.find? RestrictionName.glob).isSome = true ∧
    ¬ diamond.SameOutcome .standard readingEntries (.text "guest") (some "/")
      (.removing [RestrictionName.glob])
      (removalParameters [(RestrictionName.glob, .text "true")]) ∧
    Provider.supported ⟨[some unnamed]⟩ (some "/") = .ok [unnamed] ∧
    ¬ diamond.SameOutcome ⟨[some unnamed]⟩ unnamedEntries (.text "guest") (some "/")
      (.removing [""]) (removalParameters [("", .text "true")]) := by
  refine ⟨by decide, ?_, rfl, ?_⟩
  · have hcollides := exists_of_any_toOption
      (x := DecisionMap.ofEntries readingEntries (.text "guest"))
      (p := fun m => m.collides [some RestrictionName.glob]) (by decide +kernel)
    have hdiffer : diamond.DifferentOutcome .standard readingEntries (.text "guest") (some "/")
        (.removing [RestrictionName.glob])
        (removalParameters [(RestrictionName.glob, .text "true")]) :=
      (outcome_of_same_eq rfl fun _ hload => exists_removing hload removable_glob).2
        admits_reading.1 hcollides
    exact hdiffer.not_sameOutcome
  · obtain ⟨m, hm, hkept⟩ := exists_of_any_toOption
      (x := DecisionMap.ofEntries unnamedEntries (.text "guest"))
      (p := fun m => !(m.mapDecisions (·.strip [some ""])).same m) (by decide +kernel)
    have hload : Provider.load ⟨[some unnamed]⟩ (some "/") unnamedEntries (.text "guest") =
        .ok ([unnamed], m) := Provider.load_eq_ok_iff.2 ⟨rfl, hm⟩
    -- A parameter that names no restriction removes nothing.
    have hmodified := result_modifiedDecisions_empty (r := diamond) hload
      (show (Modifications.ofParameters (removalParameters [("", .text "true")])).result =
        .ok .empty from rfl)
    exact (differentOutcome_of_not_same admits_reading.2 (result_removing hload [""]) hmodified
      (by simpa using hkept)).not_sameOutcome

/-- Reading is allowed to the guest of the diamond under a restriction. -/
def guardedEntries : List Entry :=
  [⟨.text "guest", .allow, [.atomic "doc:read"], .single anywhere⟩]

/-- The restriction is removed in the same way if nothing is denied, and not otherwise: then
    reading is denied by the amendment, and allowed by the parameters. -/
theorem removing_outcome_diamond :
    diamond.SameOutcome .standard guardedEntries (.text "guest") (some "/")
      (.removing [RestrictionName.glob])
      (removalParameters [(RestrictionName.glob, .text "true")]) ∧
    diamond.DifferentOutcome .standard readingEntries (.text "guest") (some "/")
      (.removing [RestrictionName.glob])
      (removalParameters [(RestrictionName.glob, .text "true")]) ∧
    Decides (diamond.amend .standard readingEntries (.text "guest") (some "/")
      (.removing [RestrictionName.glob])).result (.text "guest") "doc:read" ⟨.off, ⟨true, ∅⟩⟩ ∧
    Decides (diamond.modify .standard readingEntries (.text "guest") (some "/")
      (removalParameters [(RestrictionName.glob, .text "true")])).result
      (.text "guest") "doc:read" ⟨⟨true, ∅⟩, .off⟩ := by
  have houtcome := removing_outcome diamond .standard readingEntries (.text "guest")
    (some "/") rfl removable_glob
  refine ⟨?_, ?_, ?_⟩
  · refine (removing_outcome diamond .standard guardedEntries (.text "guest") (some "/") rfl
      removable_glob).1 fun m hm => ?_
    have hfree := of_all_toOption (p := fun m => !m.collides [some RestrictionName.glob])
      (by decide +kernel) hm
    simpa using hfree
  · exact houtcome.2.1 admits_reading.1 (exists_of_any_toOption (by decide +kernel))
  · obtain ⟨m, d, hm, hd, h⟩ : ∃ m d,
        DecisionMap.ofEntries readingEntries (.text "guest") = .ok m ∧
        m.get? "doc:read" = some d ∧ (d.collides [some RestrictionName.glob] &&
          (⟨.off, d.deny.remove [some RestrictionName.glob]⟩ : Decision).same ⟨.off, ⟨true, ∅⟩⟩ &&
          (⟨d.allow.remove [some RestrictionName.glob], .off⟩ : Decision).same
            ⟨⟨true, ∅⟩, .off⟩) = true :=
      DecisionMap.exists_get?_of_any (by decide +kernel)
    simp only [Bool.and_eq_true] at h
    obtain ⟨⟨hcollides, hdenied⟩, hallowed⟩ := h
    obtain ⟨hamend, hmodify⟩ := houtcome.2.2 admits_reading.1 m "doc:read" d hm hd hcollides
    exact ⟨hamend.congr hdenied, hmodify.congr hallowed⟩

end Registry

end AccessControl
