import AccessControl.Proofs.Entry.Foreign
import AccessControl.Proofs.Modification.Outcome
import AccessControl.Proofs.Modification.Priority
import AccessControl.Proofs.Modification.Removal

/-!
# What an amendment means

An amendment first removes restrictions from all that is decided. Then it goes from value to
value, whatever the privileges are that have it: what some privilege that covers a leaf allows,
is allowed, then what some takes back, is taken back, and in the end what some denies, is
denied. So what becomes of a leaf is told by the values of the privileges that cover it, in
whatever order they are given (`Amendment.ActsLeafwise`). The same is read from the entries
that are written, unless something was decided under the name of an aggregate, by entries about
a privilege that the registry does not know.

* `Amendment.Feasible`: amendments whose names are known, and whose data can be read;
* `Amendment.asks`: whether a value is asked for a leaf;
* `Amendment.outcome`: what becomes of the decision about a leaf;
* `Registry.amendsLeafwise`: this is what is read from the entries after an amendment.
-/

namespace AccessControl

/-! ## Amendments that can be carried out -/

/-- The values of a draft are all single ones. -/
def RestrictionDraft.Single (draft : RestrictionDraft) : Prop :=
  ∀ v ∈ draft.values, ∃ s, v = .scalar s

theorem RestrictionDraft.Single.exists_settle {draft : RestrictionDraft} (h : draft.Single) :
    ∃ restriction, draft.settle = .ok restriction := by
  have hsingle : ∀ v ∈ draft.values, ∃ s, v.single = .ok s := by
    intro v hv
    obtain ⟨s, rfl⟩ := h v hv
    exact ⟨s, rfl⟩
  obtain ⟨values, hvalues⟩ := exists_mapM hsingle
  exact ⟨_, by rw [settle, Datum.singles, hvalues]; rfl⟩

/-- No leaf has the name of an aggregate. -/
theorem Registry.covers_of_mem_aggregates {r : Registry} {p : Privilege} (hp : p ∈ r.aggregates)
    (name : String) : r.covers name p.id = false := by
  obtain ⟨hp, hagg⟩ := List.mem_filter.1 hp
  rw [← Bool.not_eq_true, covers, Option.any_eq_true]
  rintro ⟨q, hq, hcov⟩
  have hatomic := atomic_mem_of_covers (get?_eq_some_iff.1 hq).1 hcov
  rw [eq_of_id_eq hp hatomic rfl] at hagg
  cases hagg

namespace Amendment

variable {a : Amendment} {r : Registry} {known : Vocabulary}

/-- An amendment whose names are all known, and whose data can be read. -/
structure Feasible (a : Amendment) (r : Registry) (known : Vocabulary) : Prop where
  /-- The privileges are known, and what is done with them is given by texts. -/
  privileges : ∀ q ∈ a.privileges,
    r.contains (privilegeName q.1) = true ∧ ∃ text, q.2.textOrEmpty = .ok text
  /-- The restrictions are known, and take single values. -/
  restrictions : ∀ q ∈ a.restrictions, ∃ d, known.find? q.1 = some d ∧
    (RestrictionDraft.ofRaw d q.2).Single
  /-- So are and do those that are given by lists of values. -/
  listedRestrictions : ∀ q ∈ a.listedRestrictions, ∃ d values, known.find? q.1 = some d ∧
    q.2.values = .ok values ∧ (RestrictionDraft.ofRaw d (.list values)).Single
  /-- The restrictions that are removed are given by names. -/
  removed : ∃ names, a.removed.names = .ok names

/-- In another order the same privileges are as feasible. -/
theorem Feasible.perm (h : a.Feasible r known) {request : List (String × Datum)}
    (hperm : request.Perm a.privileges) :
    ({ a with privileges := request } : Amendment).Feasible r known :=
  ⟨fun q hq => h.privileges q (hperm.mem_iff.1 hq), h.restrictions, h.listedRestrictions,
    h.removed⟩

/-- The restrictions of a feasible amendment are a set. -/
theorem Feasible.exists_restrictionSet (h : a.Feasible r known) :
    ∃ rs, a.restrictionSet known = .ok rs := by
  have hplain : ∀ q ∈ a.restrictions, ∃ restriction,
      (do (RestrictionDraft.ofRaw (← known.definition q.1) q.2).settle) = .ok restriction := by
    intro q hq
    obtain ⟨d, hd, hsingle⟩ := h.restrictions q hq
    obtain ⟨restriction, hrestriction⟩ := hsingle.exists_settle
    exact ⟨restriction, by rw [Vocabulary.definition_of_find? hd]; exact hrestriction⟩
  have hlisted : ∀ q ∈ a.listedRestrictions, ∃ restriction, (do
      let definition ← known.definition q.1
      (RestrictionDraft.ofRaw definition (.list (← q.2.values))).settle) = .ok restriction := by
    intro q hq
    obtain ⟨d, values, hd, hvalues, hsingle⟩ := h.listedRestrictions q hq
    obtain ⟨restriction, hrestriction⟩ := hsingle.exists_settle
    exact ⟨restriction, by rw [Vocabulary.definition_of_find? hd, hvalues]; exact hrestriction⟩
  obtain ⟨plain, hplain⟩ := exists_mapM hplain
  obtain ⟨listed, hlisted⟩ := exists_mapM hlisted
  exact ⟨_, by rw [restrictionSet, hplain, hlisted]; rfl⟩

/-! ## What is asked for a leaf -/

/-- Whether a value is asked for a leaf: some privilege has it that covers the leaf. -/
def asks (a : Amendment) (r : Registry) (leaf : String) (v : PrivilegeValue) : Bool :=
  a.privileges.any fun q =>
    r.covers (privilegeName q.1) leaf && PrivilegeValue.ofDatum? q.2 == some v

/-- Whether a leaf is to be allowed. -/
def allows (a : Amendment) (r : Registry) (leaf : String) : Bool :=
  a.asks r leaf .allow || a.asks r leaf .granted

/-- Whether what is decided about a leaf is to be taken back. -/
def drops (a : Amendment) (r : Registry) (leaf : String) : Bool := a.asks r leaf .none

/-- Whether a leaf is to be denied. -/
def denies (a : Amendment) (r : Registry) (leaf : String) : Bool :=
  a.asks r leaf .denied || a.asks r leaf .deny

/-- What an amendment makes of the decision about a leaf: restrictions are removed, and then the
    leaf is allowed, taken back and denied, as far as this is asked for. -/
def outcome (a : Amendment) (r : Registry) (names : List (Option String)) (rs : RestrictionSet)
    (leaf : String) (o : Option Decision) : Option Decision :=
  (Operation.set .deny rs).actIf (a.denies r leaf) (Operation.drop.actIf (a.drops r leaf)
    ((Operation.set .allow rs).actIf (a.allows r leaf) (o.map (·.strip names))))

/-- The order in which the privileges are given makes no difference to what becomes of a leaf. -/
theorem outcome_perm {request : List (String × Datum)} (hperm : request.Perm a.privileges)
    (names : List (Option String)) (rs : RestrictionSet) (leaf : String) (o : Option Decision) :
    ({ a with privileges := request } : Amendment).outcome r names rs leaf o =
      a.outcome r names rs leaf o := by
  have hasks (v : PrivilegeValue) :
      ({ a with privileges := request } : Amendment).asks r leaf v = a.asks r leaf v :=
    hperm.any_eq
  simp only [outcome, denies, drops, allows, hasks]

/-- What is requested is found, with a value if it is one of the known words. -/
theorem Feasible.exists_requested (h : a.Feasible r known) :
    ∃ requested, (a.requested r).result = .ok requested ∧ ∀ leaf v,
      (requested.any fun q => q.2 == v && q.1.covers leaf) = a.asks r leaf v := by
  let found (q : String × Datum) : Option (Privilege × PrivilegeValue) :=
    (r.get? (privilegeName q.1)).bind fun p => (PrivilegeValue.ofDatum? q.2).map fun v => (p, v)
  have hfind : (a.privileges.mapM fun q => (r.find (privilegeName q.1, q.2)).result) =
      .ok (a.privileges.map found) := by
    refine mapM_eq_ok_map fun q hq => ?_
    obtain ⟨hknown, text, htext⟩ := h.privileges q hq
    obtain ⟨p, hp⟩ := Option.isSome_iff_exists.1 hknown
    have hp : r.get? (privilegeName q.1) = some p := hp
    simp only [Registry.find, Journal.result_bind, Journal.result_liftM,
      Registry.privilege_of_get? hp, Except.bind, PrivilegeValue.result_read htext, found,
      hp]
    rfl
  refine ⟨(a.privileges.map found).reduceOption, ?_, fun leaf v => ?_⟩
  · rw [requested_eq, List.mapM_map, Journal.result_bind, Journal.result_mapM]
    change (a.privileges.mapM fun q => (r.find (privilegeName q.1, q.2)).result).bind _ = _
    rw [hfind]
    rfl
  · rw [List.reduceOption, List.filterMap_map, List.any_filterMap, asks]
    congr 1
    funext q
    rw [Registry.covers]
    cases hp : r.get? (privilegeName q.1) <;> cases hv : PrivilegeValue.ofDatum? q.2 <;>
      simp [found, hp, hv, Bool.and_comm]

/-- An amendment does with a leaf what is asked for it. -/
theorem replay_hits {requested : List (Privilege × PrivilegeValue)} {leaf : String}
    (h : ∀ v, (requested.any fun q => q.2 == v && q.1.covers leaf) = a.asks r leaf v)
    (names : List (Option String)) (rs : RestrictionSet) (o : Option Decision) :
    Decision.Alike (replay rs (hits requested leaf) (o.map (·.strip names)))
      (a.outcome r names rs leaf o) := by
  have hhits : hits requested leaf = PrivilegeValue.inOrder.filter (a.asks r leaf) :=
    List.filter_congr fun v _ => h v
  rw [hhits]
  exact replay_inOrder rs (a.asks r leaf) _

/-- Nothing is asked under the name of an aggregate. -/
theorem outcome_of_mem_aggregates {p : Privilege} (hp : p ∈ r.aggregates) (a : Amendment)
    (names : List (Option String)) (rs : RestrictionSet) (o : Option Decision) :
    a.outcome r names rs p.id o = o.map (·.strip names) := by
  have hasks (v : PrivilegeValue) : a.asks r p.id v = false := by
    rw [asks, List.any_eq_false]
    intro q _
    rw [Registry.covers_of_mem_aggregates hp]
    exact Bool.false_ne_true
  rw [outcome, denies, drops, allows, hasks, hasks, hasks, hasks, hasks]
  rfl

end Amendment

/-! ## Leaf by leaf -/

namespace PrivilegeValue

variable {o o' : Option Decision}

theorem holdsIn_congr (v : PrivilegeValue) (h : Decision.Alike o o') (ho' : v.HoldsIn o') :
    v.HoldsIn o := by
  have hactive {e : Effect} (hside : ∃ d, o' = some d ∧ (d.side e).active = true) :
      ∃ d, o = some d ∧ (d.side e).active = true := by
    obtain ⟨d', rfl, hact⟩ := hside
    cases h with
    | some hsame => exact ⟨_, rfl, (Side.same_iff.1 (Decision.same_iff.1 hsame e)).1.trans hact⟩
  cases v with
  | allow | granted => exact hactive (e := .allow) ho'
  | denied | deny => exact hactive (e := .deny) ho'
  | none =>
    cases ho'
    cases h
    rfl

end PrivilegeValue

namespace Amendment

variable {a : Amendment} {r : Registry} {names : List (Option String)} {rs : RestrictionSet}
  {m n : DecisionMap}

/-- The decisions after an amendment, told leaf by leaf from those before it. -/
structure ActsLeafwise (a : Amendment) (r : Registry) (names : List (Option String))
    (rs : RestrictionSet) (m n : DecisionMap) : Prop where
  /-- Restrictions are removed, then it is allowed, taken back and denied what is asked for. -/
  leafwise : ∀ leaf, Decision.Alike (n.get? leaf) (a.outcome r names rs leaf (m.get? leaf))
  /-- What some privilege denies, is denied. -/
  denied : ∀ leaf, a.denies r leaf = true → PrivilegeValue.deny.HoldsIn (n.get? leaf)
  /-- Of what is not denied, that is taken back which some privilege takes back. -/
  dropped : ∀ leaf, a.denies r leaf = false → a.drops r leaf = true →
    PrivilegeValue.none.HoldsIn (n.get? leaf)
  /-- Of the rest, that is allowed which some privilege allows. -/
  allowed : ∀ leaf, a.denies r leaf = false → a.drops r leaf = false →
    a.allows r leaf = true → PrivilegeValue.allow.HoldsIn (n.get? leaf)

/-- If nothing was decided under the name of an aggregate, nothing is afterwards. -/
theorem unbundled_of_alike
    (h : ∀ leaf, Decision.Alike (n.get? leaf) (a.outcome r names rs leaf (m.get? leaf)))
    (hfree : m.Unbundled r) : n.Unbundled r := by
  intro p hp hdepth
  have hnone := h p.id
  rw [outcome_of_mem_aggregates hp, hfree p hp hdepth] at hnone
  cases hn : n.get? p.id with
  | none => rfl
  | some d =>
    rw [hn] at hnone
    cases hnone

theorem actsLeafwise_of_alike
    (h : ∀ leaf, Decision.Alike (n.get? leaf) (a.outcome r names rs leaf (m.get? leaf))) :
    a.ActsLeafwise r names rs m n := by
  refine ⟨h, fun leaf hdeny => ?_, fun leaf hdeny hdrop => ?_, fun leaf hdeny hdrop hallow => ?_⟩
  · refine PrivilegeValue.deny.holdsIn_congr (h leaf) ?_
    rw [outcome, hdeny]
    exact PrivilegeValue.deny.holdsIn_act rs _
  · refine PrivilegeValue.none.holdsIn_congr (h leaf) ?_
    rw [outcome, hdeny, hdrop]
    rfl
  · refine PrivilegeValue.allow.holdsIn_congr (h leaf) ?_
    rw [outcome, hdeny, hdrop, hallow]
    exact PrivilegeValue.allow.holdsIn_act rs _

end Amendment

/-! ## Main result -/

namespace Registry

variable {r : Registry} {provider : Provider} {acl : List Entry} {principal : Principal}
  {path : Option String} {known : Vocabulary} {m : DecisionMap} {a : Amendment}

/-- An amendment can be carried out, and does with every leaf what is asked for it. -/
theorem exists_amended (h : provider.load path acl principal = .ok (known, m))
    (ha : a.Feasible r known) {names : List (Option String)} (hnames : a.removed.names = .ok names)
    {rs : RestrictionSet} (hrs : a.restrictionSet known = .ok rs) :
    ∃ n, (r.amendedDecisions provider acl principal path a).result = .ok n ∧ n.OnAtoms ∧
      ∀ leaf, Decision.Alike (n.get? leaf) (a.outcome r names rs leaf (m.get? leaf)) := by
  obtain ⟨requested, hrequested, hasks⟩ := ha.exists_requested
  obtain ⟨n, hn, hget⟩ := exists_amendedDecisions_of h hnames hrs hrequested
  refine ⟨n, hn, ?_, fun leaf => ?_⟩
  · have hstripped : (m.mapDecisions (·.strip names)).OnAtoms :=
      (Provider.onAtoms_of_load h).mapDecisions fun d hd => Decision.sound_strip hd names
    rw [result_amendedDecisions h, Amendment.remove, hnames, hrs, hrequested] at hn
    exact foldlM_induction (fun _ _ _ _ hm hn => hm.perform hn) hstripped hn
  · rw [hget]
    exact Amendment.replay_hits (hasks leaf) names rs (m.get? leaf)

/-- What is read from the entries after an amendment is what it makes of each leaf. -/
def AmendsLeafwise (r : Registry) (provider : Provider) (acl : List Entry)
    (principal : Principal) (path : Option String) (a : Amendment) : Prop :=
  ∃ known m names rs entries n, provider.supported path = .ok known ∧
    DecisionMap.ofEntries acl principal = .ok m ∧ a.removed.names = .ok names ∧
    a.restrictionSet known = .ok rs ∧
    (r.amend provider acl principal path a).result = .ok entries ∧
    DecisionMap.ofEntries entries principal = .ok n ∧ a.ActsLeafwise r names rs m n

/-- An amendment whose names are known is carried out. After it, what is read from the entries
    is what it makes of each leaf, if nothing was decided under the name of an aggregate. The
    order in which the privileges are given makes no difference. -/
theorem amendsLeafwise (r : Registry) (provider : Provider) (acl : List Entry)
    (principal : Principal) (path : Option String) (a : Amendment)
    (hsupported : provider.supported path = .ok known)
    (hm : DecisionMap.ofEntries acl principal = .ok m) (hfree : m.Unbundled r)
    (ha : a.Feasible r known) :
    r.AmendsLeafwise provider acl principal path a ∧
    ∀ request, request.Perm a.privileges → ∃ entries entries',
      (r.amend provider acl principal path a).result = .ok entries ∧
      (r.amend provider acl principal path { a with privileges := request }).result =
        .ok entries' ∧
      List.Forall₂ (fun a b : Entry => a.same b = true) entries entries' := by
  have hload := Provider.load_eq_ok_iff.2 ⟨hsupported, hm⟩
  obtain ⟨names, hnames⟩ := ha.removed
  obtain ⟨rs, hrs⟩ := ha.exists_restrictionSet
  obtain ⟨n, hn, hatoms, hleaf⟩ := exists_amended hload ha hnames hrs
  constructor
  · obtain ⟨n', hn', hsame⟩ := DecisionMap.exists_ofEntries_entries_atoms hatoms
      (Amendment.unbundled_of_alike hleaf hfree) principal
    refine ⟨known, m, names, rs, _, n', hsupported, hm, hnames, hrs, result_amend hn, hn', ?_⟩
    exact Amendment.actsLeafwise_of_alike fun leaf =>
      (DecisionMap.same_iff.1 hsame leaf).trans (hleaf leaf)
  · intro request hperm
    obtain ⟨n', hn', _, hleaf'⟩ := exists_amended hload (ha.perm hperm) hnames hrs
    have hsame : n.same n' = true := by
      refine DecisionMap.same_iff.2 fun leaf => (hleaf leaf).trans (.symm ?_)
      exact Amendment.outcome_perm hperm names rs leaf _ ▸ hleaf' leaf
    exact ⟨_, _, result_amend hn, result_amend hn', DecisionMap.entries_congr
      (DecisionMap.consolidate_congr hsame (.refl r) _) _ _⟩

/-! ## In a diamond -/

/-- To the guest of the diamond reading is allowed under a restriction, here and elsewhere, and
    writing is denied. -/
def elsewhereEntries : List Entry :=
  [⟨.text "guest", .allow, [.atomic "wiki:read", .atomic "doc:read"], .single anywhere⟩,
    ⟨.text "guest", .deny, [.atomic "doc:write"], ∅⟩]

/-- Viewing is allowed, editing is denied, and what is said of sharing is taken back. -/
def overlapping : Amendment where
  privileges := [("doc:view", .text "allow"), ("privilege@doc:edit", .text " Deny "),
    ("doc:share", .text "none"), ("doc:all", .null)]
  restrictions := [(RestrictionName.glob, .list [.text "/a", .text "/b"])]
  listedRestrictions := [(RestrictionName.leads, .list [.text "doc", .text "wiki"])]
  removed := .list [.text RestrictionName.glob]

theorem feasible_overlapping : overlapping.Feasible diamond .standard where
  privileges := by
    have hknown : ∀ q ∈ overlapping.privileges,
        diamond.contains (Amendment.privilegeName q.1) = true := by decide +kernel
    refine fun q hq => ⟨hknown q hq, ?_⟩
    simp only [overlapping, List.mem_cons, List.not_mem_nil, or_false] at hq
    rcases hq with rfl | rfl | rfl | rfl <;> exact ⟨_, rfl⟩
  restrictions := by
    simp only [overlapping, List.mem_singleton, forall_eq]
    exact ⟨_, rfl, fun v hv => ⟨_, List.mem_singleton.1 hv⟩⟩
  listedRestrictions := by
    simp only [overlapping, List.mem_singleton, forall_eq]
    refine ⟨_, _, rfl, rfl, fun v hv => ?_⟩
    rcases List.mem_pair.1 hv with rfl | rfl <;> exact ⟨_, rfl⟩
  removed := ⟨_, rfl⟩

/-- What overlaps is denied, whether it is given first or last. -/
theorem amendsLeafwise_overlapping :
    overlapping.Feasible diamond .standard ∧
    diamond.AmendsLeafwise .standard elsewhereEntries (.text "guest") (some "/") overlapping ∧
    ∃ entries entries',
      (diamond.amend .standard elsewhereEntries (.text "guest") (some "/")
        overlapping).result = .ok entries ∧
      (diamond.amend .standard elsewhereEntries (.text "guest") (some "/")
        { overlapping with privileges := overlapping.privileges.reverse }).result = .ok entries' ∧
      List.Forall₂ (fun a b : Entry => a.same b = true) entries entries' := by
  obtain ⟨m, hm, hfree⟩ := exists_of_any_toOption
    (x := DecisionMap.ofEntries elsewhereEntries (.text "guest"))
    (p := fun m => diamond.aggregates.all fun p => (m.get? p.id).isNone) (by decide +kernel)
  have hfree : m.Unbundled diamond := fun p hp _ => by simpa using List.all_eq_true.1 hfree p hp
  obtain ⟨hamends, hsame⟩ := amendsLeafwise diamond .standard elsewhereEntries (.text "guest")
    (some "/") overlapping rfl hm hfree feasible_overlapping
  exact ⟨feasible_overlapping, hamends, hsame _ (List.reverse_perm _)⟩

/-- To the guest a privilege is allowed that has the name of an aggregate of the diamond, and is
    none. -/
def foreignEntries : List Entry := [⟨.text "guest", .allow, [.atomic "doc:view"], ∅⟩]

/-- Viewing is allowed. -/
def viewing : Amendment := .deciding [("doc:view", .text "allow")]

/-- What is allowed by the aggregate is written under its name, and is not read as what it
    allows. -/
theorem not_amendsLeafwise_viewing :
    viewing.Feasible diamond .standard ∧
    (∃ m, DecisionMap.ofEntries foreignEntries (.text "guest") = .ok m) ∧
    ¬ diamond.AmendsLeafwise .standard foreignEntries (.text "guest") (some "/") viewing := by
  have hfeasible : viewing.Feasible diamond .standard := by
    refine ⟨?_, List.forall_mem_nil _, List.forall_mem_nil _, ⟨_, rfl⟩⟩
    simp only [viewing, Amendment.deciding, List.mem_singleton, forall_eq]
    exact ⟨by decide +kernel, _, rfl⟩
  obtain ⟨m, hm, _⟩ := exists_of_any_toOption
    (x := DecisionMap.ofEntries foreignEntries (.text "guest")) (p := fun _ => true)
    (by decide +kernel)
  refine ⟨hfeasible, ⟨m, hm⟩, ?_⟩
  rintro ⟨known, m', names, rs, entries, n, _, _, _, _, hentries, hn, hleaf⟩
  obtain ⟨d, hd, _⟩ := hleaf.allowed "doc:read" (by decide +kernel) (by decide +kernel)
    (by decide +kernel)
  have hread : ((diamond.amend .standard foreignEntries (.text "guest") (some "/")
      viewing).result.bind fun entries => DecisionMap.ofEntries entries (.text "guest")) =
        .ok n := by
    rw [hentries]
    exact hn
  have hnone := of_all_toOption (p := fun n => (n.get? "doc:read").isNone) (by
    simp only [amend, Journal.result_bind, Journal.result_pure, DecisionMap.consolidate, foldSteps,
      aggregatesByDepth_eq, DecisionMap.entries, DecisionMap.entriesFor_eq, DecisionMap.ordered_eq]
    decide +kernel) hread
  rw [hd] at hnone
  cases hnone

end Registry

end AccessControl
