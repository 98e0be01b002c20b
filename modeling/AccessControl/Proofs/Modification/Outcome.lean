import AccessControl.Proofs.Decision.Removal
import AccessControl.Proofs.Entry.Faithful
import AccessControl.Proofs.Modification.Leafwise
import AccessControl.Proofs.Modification.ReadBack

/-!
# Outcomes of modifications

The same modification may be given as an amendment or by the parameters of a request. Both
start from what is known at a path and from the decisions of the stored entries, and what
they make of these may be compared before it is folded and written.

* `Registry.exists_amendedDecisions`, `Registry.exists_modifiedDecisions`: the decisions they
  lead to, seen from a leaf;
* `Registry.SameOutcome`: an amendment and a request do the same;
* `Registry.sameOutcome_of_same`: they do if they lead to the same decisions;
* `Registry.DifferentOutcome`, `Registry.differentOutcome_of_not_same`: they do not
  otherwise;
* `Registry.outcome_of_same_eq`: both, told from the decisions that are loaded;
* `Decides`, `Registry.decides_amend`, `Registry.decides_modify`: what is read for a leaf from the
  entries that they lead to.
-/

namespace AccessControl

/-- What a modification starts from: the restrictions that are known at a path, and the
    decisions that the stored entries of a principal make up. -/
def Provider.load (provider : Provider) (path : Option String) (acl : List Entry)
    (principal : Principal) : Except Error (Vocabulary × DecisionMap) := do
  let known ← provider.supported path
  let m ← DecisionMap.ofEntries acl principal
  return (known, m)

theorem Provider.load_eq_ok_iff {provider : Provider} {path : Option String} {acl : List Entry}
    {principal : Principal} {known : Vocabulary} {m : DecisionMap} :
    provider.load path acl principal = .ok (known, m) ↔
      provider.supported path = .ok known ∧ DecisionMap.ofEntries acl principal = .ok m := by
  rw [load]
  cases provider.supported path <;> cases DecisionMap.ofEntries acl principal <;>
    simp [bind, Except.bind, pure, Except.pure]

theorem Provider.onAtoms_of_load {provider : Provider} {path : Option String}
    {acl : List Entry} {principal : Principal} {known : Vocabulary} {m : DecisionMap}
    (h : provider.load path acl principal = .ok (known, m)) : m.OnAtoms :=
  DecisionMap.onAtoms_of_ofEntries (load_eq_ok_iff.1 h).2

/-- A stored decision about a leaf, with a property that is evaluated. -/
theorem DecisionMap.exists_get?_of_any {acl : List Entry} {principal : Principal} {leaf : String}
    {p : Decision → Bool}
    (h : (ofEntries acl principal).toOption.any (fun m => (m.get? leaf).any p) = true) :
    ∃ m d, ofEntries acl principal = .ok m ∧ m.get? leaf = some d ∧ p d = true := by
  obtain ⟨m, hm, hany⟩ := exists_of_any_toOption h
  obtain ⟨d, hd, hp⟩ := (Option.any_eq_true _ _).1 hany
  exact ⟨m, d, hm, hd, hp⟩

/-- There are entries as a result, from which a decision about a leaf is read. -/
def Decides (result : Except Error (List Entry)) (principal : Principal) (leaf : String)
    (d : Decision) : Prop :=
  ∃ entries n, result = .ok entries ∧ DecisionMap.ofEntries entries principal = .ok n ∧
    Decision.Alike (n.get? leaf) (some d)

/-- How a decision is written makes no difference. -/
theorem Decides.congr {result : Except Error (List Entry)} {principal : Principal}
    {leaf : String} {d d' : Decision} (h : Decides result principal leaf d)
    (hsame : d.same d' = true) : Decides result principal leaf d' := by
  obtain ⟨entries, n, hentries, hn, halike⟩ := h
  exact ⟨entries, n, hentries, hn, halike.trans (.some hsame)⟩

namespace Registry

variable {r : Registry} {provider : Provider} {acl : List Entry} {principal : Principal}
  {path : Option String} {a : Amendment} {parameters : List (String × Datum)}
  {known : Vocabulary} {m n n' : DecisionMap} {e : Error}

/-! ## After loading -/

theorem result_amendedDecisions (h : provider.load path acl principal = .ok (known, m)) :
    (r.amendedDecisions provider acl principal path a).result = (do
      let m ← a.remove m
      let rs ← a.restrictionSet known
      let requested ← (a.requested r).result
      Amendment.decide requested rs m) := by
  obtain ⟨hknown, hm⟩ := Provider.load_eq_ok_iff.1 h
  simp only [amendedDecisions, Journal.result_bind, Journal.result_liftM, hknown, hm]
  rfl

theorem result_modifiedDecisions (h : provider.load path acl principal = .ok (known, m))
    {modifications : Modifications}
    (hread : (Modifications.ofParameters parameters).result = .ok modifications) :
    (r.modifiedDecisions provider acl principal path parameters).result =
      match m.carryOut (modifications.plan r known r.depths) with
      | (m, none) => .ok m
      | (_, some e) => .error e := by
  obtain ⟨hknown, hm⟩ := Provider.load_eq_ok_iff.1 h
  simp only [modifiedDecisions, Journal.result_bind, Journal.result_liftM, hknown, hm, hread,
    Except.bind]
  generalize m.carryOut (modifications.plan r known r.depths) = x
  obtain ⟨m, _ | e⟩ := x <;> rfl

/-- An amendment does with every leaf what it requests of it, once restrictions are removed. -/
theorem exists_amendedDecisions_of (h : provider.load path acl principal = .ok (known, m))
    {names : List (Option String)} (hnames : a.removed.names = .ok names) {rs : RestrictionSet}
    (hrs : a.restrictionSet known = .ok rs) {requested : List (Privilege × PrivilegeValue)}
    (hrequested : (a.requested r).result = .ok requested) :
    ∃ n, (r.amendedDecisions provider acl principal path a).result = .ok n ∧
      ∀ k, n.get? k =
        Amendment.replay rs (Amendment.hits requested k) ((m.get? k).map (·.strip names)) := by
  obtain ⟨n, hn, hget⟩ := Amendment.exists_decide (Amendment.mem_of_requested hrequested) rs
    (m.mapDecisions (·.strip names))
  refine ⟨n, ?_, fun k => by rw [hget, DecisionMap.get?_mapDecisions]⟩
  have hremove : a.remove m = .ok (m.mapDecisions (·.strip names)) := by
    rw [Amendment.remove, hnames]
  rw [result_amendedDecisions h, hremove, hrs, hrequested]
  exact hn

/-- An amendment that removes nothing does with every leaf what it requests of it. -/
theorem exists_amendedDecisions (h : provider.load path acl principal = .ok (known, m))
    (hremoved : a.removed = .null) {rs : RestrictionSet}
    (hrs : a.restrictionSet known = .ok rs) {requested : List (Privilege × PrivilegeValue)}
    (hrequested : (a.requested r).result = .ok requested) :
    ∃ n, (r.amendedDecisions provider acl principal path a).result = .ok n ∧
      ∀ k, Decision.Alike (n.get? k)
        (Amendment.replay rs (Amendment.hits requested k) (m.get? k)) := by
  have hm := Provider.onAtoms_of_load h
  have hnames : a.removed.names = .ok [] := by rw [hremoved]; rfl
  obtain ⟨n, hn, hget⟩ := exists_amendedDecisions_of h hnames hrs hrequested
  refine ⟨n, hn, fun k => ?_⟩
  rw [hget]
  refine Amendment.replay_congr rs _ ?_
  cases hk : m.get? k with
  | none => exact .none
  | some d => exact .some (Decision.strip_nil_same (hm.sound_get? k d hk))

/-- A request does with every leaf what the edits that cover the leaf do with it. -/
theorem exists_modifiedDecisions (h : provider.load path acl principal = .ok (known, m))
    {modifications : Modifications}
    (hread : (Modifications.ofParameters parameters).result = .ok modifications)
    {edits : List Edit} (hplan : modifications.plan r known r.depths = edits.map .ok)
    (hedits : ∀ ed ∈ edits, ed.Within r) :
    ∃ n, (r.modifiedDecisions provider acl principal path parameters).result = .ok n ∧
      ∀ k, n.get? k = Edit.replay (edits.filter (·.covers k)) (m.get? k) := by
  obtain ⟨n, hn, hget⟩ := (Provider.onAtoms_of_load h).exists_carryOut hedits
  exact ⟨n, by rw [result_modifiedDecisions h hread, hplan, hn], hget⟩

/-- A request that asks for nothing leaves the decisions as they are. -/
theorem result_modifiedDecisions_empty (h : provider.load path acl principal = .ok (known, m))
    (hread : (Modifications.ofParameters parameters).result = .ok .empty) :
    (r.modifiedDecisions provider acl principal path parameters).result = .ok m := by
  rw [result_modifiedDecisions h hread, Modifications.plan_empty]
  rfl

theorem result_amend (h : (r.amendedDecisions provider acl principal path a).result = .ok n) :
    (r.amend provider acl principal path a).result =
      .ok ((n.consolidate r.depths r).entries r.depths principal) := by
  rw [amend, Journal.result_bind, h]
  rfl

theorem result_modify
    (h : (r.modifiedDecisions provider acl principal path parameters).result = .ok n) :
    (r.modify provider acl principal path parameters).result =
      .ok ((n.consolidate r.depths r).entries r.depths principal) := by
  rw [modify, Journal.result_bind, h]
  rfl

/-- What cannot be loaded cannot be modified, in whatever way. -/
theorem result_of_load_eq_error (h : provider.load path acl principal = .error e) :
    (r.amend provider acl principal path a).result = .error e ∧
      (r.modify provider acl principal path parameters).result = .error e := by
  rw [Provider.load] at h
  simp only [amend, amendedDecisions, modify, modifiedDecisions, Journal.result_bind,
    Journal.result_liftM]
  cases hknown : provider.supported path with
  | error e' =>
    rw [hknown] at h
    cases h
    exact ⟨rfl, rfl⟩
  | ok known =>
    cases hm : DecisionMap.ofEntries acl principal with
    | error e' =>
      rw [hknown, hm] at h
      cases h
      exact ⟨rfl, rfl⟩
    | ok m =>
      rw [hknown, hm] at h
      cases h

/-! ## Decisions that are read from the outcome -/

/-- Decisions that are folded and written decide a leaf as before. -/
theorem decides_entries (hm : m.IsLeafMap r) {leaf : String} {d : Decision}
    (h : Decision.Alike (m.get? leaf) (some d)) :
    Decides (.ok ((m.consolidate r.depths r).entries r.depths principal)) principal leaf d := by
  obtain ⟨n, hn, _, hsame⟩ := DecisionMap.exists_ofEntries_entries_of hm r.depths principal
  exact ⟨_, n, rfl, hn, (DecisionMap.same_iff.1 hsame leaf).trans h⟩

/-- So do those that an amendment leads to from entries that the registry makes sense of. -/
theorem decides_amend (hacl : r.Admits acl)
    (hn : (r.amendedDecisions provider acl principal path a).result = .ok n) {leaf : String}
    {d : Decision} (h : Decision.Alike (n.get? leaf) (some d)) :
    Decides (r.amend provider acl principal path a).result principal leaf d := by
  rw [result_amend hn]
  exact decides_entries (isLeafMap_amendedDecisions hacl hn) h

/-- So do those that a request leads to. -/
theorem decides_modify (hacl : r.Admits acl)
    (hn : (r.modifiedDecisions provider acl principal path parameters).result = .ok n)
    {leaf : String} {d : Decision} (h : Decision.Alike (n.get? leaf) (some d)) :
    Decides (r.modify provider acl principal path parameters).result principal leaf d := by
  rw [result_modify hn]
  exact decides_entries (reachable_modifiedDecisions hacl hn).isLeafMap h

/-! ## The same outcome -/

/-- An amendment and the parameters of a request lead to the same entries, if there is
    something to start from, and fail for the same reason otherwise. -/
structure SameOutcome (r : Registry) (provider : Provider) (acl : List Entry)
    (principal : Principal) (path : Option String) (a : Amendment)
    (parameters : List (String × Datum)) : Prop where
  /-- Both fail if what they start from cannot be loaded. -/
  failure : ∀ e, provider.load path acl principal = .error e →
    (r.amend provider acl principal path a).result = .error e ∧
      (r.modify provider acl principal path parameters).result = .error e
  /-- Otherwise both succeed, with entries that are the same. -/
  success : ∀ known m, provider.load path acl principal = .ok (known, m) →
    ∃ entries entries', (r.amend provider acl principal path a).result = .ok entries ∧
      (r.modify provider acl principal path parameters).result = .ok entries' ∧
      List.Forall₂ (fun a b : Entry => a.same b = true) entries entries'

/-- An amendment and the parameters of a request lead to entries that are not the same. -/
def DifferentOutcome (r : Registry) (provider : Provider) (acl : List Entry)
    (principal : Principal) (path : Option String) (a : Amendment)
    (parameters : List (String × Datum)) : Prop :=
  ∃ entries entries', (r.amend provider acl principal path a).result = .ok entries ∧
    (r.modify provider acl principal path parameters).result = .ok entries' ∧
    ¬ List.Forall₂ (fun a b : Entry => a.same b = true) entries entries'

/-- Decisions that are the same are folded and written the same. -/
theorem sameOutcome_of_same
    (h : ∀ known m, provider.load path acl principal = .ok (known, m) → ∃ n n',
      (r.amendedDecisions provider acl principal path a).result = .ok n ∧
      (r.modifiedDecisions provider acl principal path parameters).result = .ok n' ∧
      n.same n' = true) :
    r.SameOutcome provider acl principal path a parameters where
  failure _ := result_of_load_eq_error
  success known m hload := by
    obtain ⟨n, n', hn, hn', hsame⟩ := h known m hload
    exact ⟨_, _, result_amend hn, result_modify hn', DecisionMap.entries_congr
      (DecisionMap.consolidate_congr hsame (.refl r) _) _ _⟩

/-- Decisions that are not the same can be told from the entries. -/
theorem differentOutcome_of_not_same (hacl : r.Admits acl)
    (hn : (r.amendedDecisions provider acl principal path a).result = .ok n)
    (hn' : (r.modifiedDecisions provider acl principal path parameters).result = .ok n')
    (h : n.same n' = false) : r.DifferentOutcome provider acl principal path a parameters := by
  refine ⟨_, _, result_amend hn, result_modify hn', fun hentries => ?_⟩
  rw [DecisionMap.same_of_entries (isLeafMap_amendedDecisions hacl hn)
    (reachable_modifiedDecisions hacl hn').isLeafMap hentries] at h
  cases h

/-- If it is known when an amendment and a request lead to the same decisions, it is known when
    they have the same outcome. -/
theorem outcome_of_same_eq {differ : DecisionMap → Bool}
    (hsupported : provider.supported path = .ok known)
    (h : ∀ m, provider.load path acl principal = .ok (known, m) → ∃ n n',
      (r.amendedDecisions provider acl principal path a).result = .ok n ∧
      (r.modifiedDecisions provider acl principal path parameters).result = .ok n' ∧
      n.same n' = !differ m) :
    ((∀ m, DecisionMap.ofEntries acl principal = .ok m → differ m = false) →
      r.SameOutcome provider acl principal path a parameters) ∧
    (r.Admits acl → (∃ m, DecisionMap.ofEntries acl principal = .ok m ∧ differ m = true) →
      r.DifferentOutcome provider acl principal path a parameters) := by
  constructor
  · refine fun hsame => sameOutcome_of_same fun known' m hload => ?_
    obtain ⟨hsupported', hm⟩ := Provider.load_eq_ok_iff.1 hload
    obtain rfl := Except.ok.inj (hsupported.symm.trans hsupported')
    obtain ⟨n, n', hn, hn', heq⟩ := h m hload
    exact ⟨n, n', hn, hn', by rw [heq, hsame m hm, Bool.not_false]⟩
  · rintro hacl ⟨m, hm, hdiffer⟩
    obtain ⟨n, n', hn, hn', heq⟩ := h m (Provider.load_eq_ok_iff.2 ⟨hsupported, hm⟩)
    exact differentOutcome_of_not_same hacl hn hn' (by rw [heq, hdiffer, Bool.not_true])

theorem DifferentOutcome.not_sameOutcome
    (h : r.DifferentOutcome provider acl principal path a parameters) :
    ¬ r.SameOutcome provider acl principal path a parameters := by
  intro hsame
  obtain ⟨entries, entries', hamend, hmodify, hne⟩ := h
  cases hload : provider.load path acl principal with
  | error e => cases hamend.symm.trans (hsame.failure e hload).1
  | ok start =>
    obtain ⟨es, es', hes, hes', heq⟩ := hsame.success start.1 start.2 hload
    obtain rfl := Except.ok.inj (hamend.symm.trans hes)
    obtain rfl := Except.ok.inj (hmodify.symm.trans hes')
    exact hne heq

end Registry

end AccessControl
