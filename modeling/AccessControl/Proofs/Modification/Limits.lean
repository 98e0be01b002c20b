import AccessControl.Proofs.Decision.Origin
import AccessControl.Proofs.Modification.Request

/-!
# What a request leaves alone

A request rewrites all entries of a principal, but the decisions that are read from them
afterwards differ from those before only as far as its parameters say. Leaves that no
parameter names a privilege of are decided as before, and parameters that only delete, or
restrict what there is, bring nothing into force. Both hold as long as nothing is decided
under the name of an aggregate: what is folded into an aggregate could not be told from it.

* `Parameter.AsksFor.covers_eq`: an edit is about the leaves that its parameter names;
* `Registry.leavesAlone_of_modify`: leaves that are not named are decided as before;
* `Parameter.AsksFor.grants?_eq_none`: only some parameters ask to put a side in force;
* `Registry.bringsNothing_of_modify`: the others bring nothing into force;
* `Registry.not_leavesAlone_borrowing`, `Registry.not_bringsNothing_borrowing`: what happens
  where a name is that of an aggregate.
-/

namespace AccessControl

/-! ## Parameters and leaves -/

namespace Parameter

variable {r : Registry} {p : Parameter} {ed : Edit} {leaf : String}

/-- The name of the privilege that a parameter is about, if it is about one. -/
def subject? : Parameter → Option String
  | privilege p | privilegeDelete p | restrictionOf p _ _ | restrictionDeleteOf p _ => some p
  | restriction _ | restrictionDelete _ => none

/-- Whether a leaf is below the privilege that a parameter is about. -/
def reaches (r : Registry) (leaf : String) (p : Parameter) : Bool :=
  p.subject?.any fun name => r.covers name leaf

/-- What is asked for a privilege is about its leaves. -/
theorem AsksFor.covers_eq (h : p.AsksFor r ed) (hp : p.subject?.isSome = true) :
    ed.covers leaf = p.reaches r leaf := by
  cases h with
  | privilege hq | privilegeDelete hq | restrictionOf hq | restrictionDeleteOf hq =>
    exact (Registry.covers_eq hq leaf).symm
  | restrictionDelete | restriction => cases hp

/-- Whether a parameter may put a side of a privilege in force. -/
def grants : Parameter → Bool
  | privilege _ | restrictionOf _ _ _ => true
  | privilegeDelete _ | restriction _ | restrictionDelete _ | restrictionDeleteOf _ _ => false

/-- Other parameters ask for no operation that puts a side in force. -/
theorem AsksFor.grants?_eq_none (h : p.AsksFor r ed) (hp : p.grants = false) :
    ed.operation.grants? = none := by
  cases h with
  | privilege | restrictionOf => cases hp
  | privilegeDelete | restriction => rfl
  | restrictionDelete v | restrictionDeleteOf _ v => cases v <;> rfl

end Parameter

/-! ## Entries of a fold -/

/-- What is written of a fold names only leaves that were in force before it. -/
theorem DecisionMap.exists_inForce?_of_covers {r : Registry} {m : DecisionMap} (hm : m.OnAtoms)
    (hfree : m.Unbundled r) {principal : Principal} {a : Entry}
    (ha : a ∈ (m.consolidate r.depths r).entries r.depths principal) {p : Privilege}
    (hp : p ∈ a.privileges) {leaf : String} (hleaf : p.covers leaf = true) :
    ∃ rs, m.inForce? a.effect leaf = some rs ∧ a.restrictions.same rs = true := by
  -- A registry that knows the atomic privileges as well folds the same.
  have hsteps := (r.rooted.foldSteps_withAtoms (m.privileges.map Privilege.id) r.depths).trans
    r.foldSteps_rooted.symm
  have hleaves := isLeafMap_withAtoms hm hfree
  rw [consolidate_eq_of_foldSteps_eq hsteps.symm] at ha
  obtain ⟨hmem, rs, hrs, hsame⟩ := exists_inForce?_of_mem_privileges ha hp
  have hknown := mem_privileges_consolidate r.depths (fun q hq => (hleaves.atomic q hq).1) p hmem
  obtain ⟨ss, hss, hsame'⟩ := (represents_consolidate r.depths hleaves.atomic a.effect).sound
    p.id leaf rs hrs ((Registry.covers_eq hknown leaf).trans hleaf)
  exact ⟨ss, hss, RestrictionSet.same_trans (RestrictionSet.same_symm hsame) hsame'⟩

/-! ## Main results -/

namespace Registry

variable {r : Registry} {provider : Provider} {acl entries : List Entry} {principal : Principal}
  {path : Option String} {parameters : List (String × Datum)} {m n : DecisionMap}
  {edits : List Edit}

/-- What is read from the entries of a request is what it leads to, if nothing is decided under
    the name of an aggregate. -/
theorem Carries.exists_ofEntries (h : r.Carries parameters m n edits) (hm : m.Unbundled r)
    (principal : Principal) : ∃ n',
      DecisionMap.ofEntries ((n.consolidate r.depths r).entries r.depths principal) principal =
        .ok n' ∧ n'.same n = true :=
  DecisionMap.exists_ofEntries_entries_atoms h.onAtoms (h.unbundled hm) principal

/-- Of leaves that are below none of the privileges that parameters are about, new entries say
    what the stored ones said. -/
def LeavesAlone (r : Registry) (acl entries : List Entry) (principal : Principal)
    (parameters : List (String × Datum)) : Prop :=
  ∃ m n, DecisionMap.ofEntries acl principal = .ok m ∧
    DecisionMap.ofEntries entries principal = .ok n ∧
    ∀ leaf, (∀ p ∈ Parameter.accepted parameters, p.reaches r leaf = false) →
      Decision.Alike (n.get? leaf) (m.get? leaf)

/-- A request all of whose parameters are about privileges leaves all other leaves alone. -/
theorem leavesAlone_of_modify
    (h : (r.modify provider acl principal path parameters).result = .ok entries)
    (hfree : ∀ m, DecisionMap.ofEntries acl principal = .ok m → m.Unbundled r)
    (hsubject : ∀ p ∈ Parameter.accepted parameters, p.subject?.isSome = true) :
    r.LeavesAlone acl entries principal parameters := by
  obtain ⟨m, n, edits, hm, hcarries, rfl⟩ := exists_of_modify h
  obtain ⟨n', hn', hsame⟩ := hcarries.exists_ofEntries (hfree m hm) principal
  refine ⟨m, n', hm, hn', fun leaf hleaf => (DecisionMap.same_iff.1 hsame leaf).trans ?_⟩
  -- No edit is about the leaf.
  have hnone : edits.filter (·.covers leaf) = [] := by
    refine List.filter_eq_nil_iff.2 fun ed hed => ?_
    obtain ⟨p, hp, hasks⟩ := hcarries.asked ed hed
    rw [hasks.covers_eq (hsubject p hp), hleaf p hp]
    exact Bool.false_ne_true
  rw [hcarries.get?, hnone]
  exact .refl _

/-- Nothing is decided elsewhere under the name of an aggregate of the diamond. -/
theorem unbundled_elsewhereEntries (m : DecisionMap)
    (h : DecisionMap.ofEntries elsewhereEntries (.text "guest") = .ok m) :
    m.Unbundled diamond := by
  have hall := of_all_toOption (p := fun m => diamond.aggregates.all fun p => (m.get? p.id).isNone)
    (by decide +kernel) h
  exact fun p hp _ => by simpa using List.all_eq_true.1 hall p hp

/-- What was said of writing is taken back, and writing is allowed under a restriction. -/
def rewriting : List (String × Datum) :=
  [("privilege@doc:write@Delete", .text "all"),
    ("restriction@doc:write@rep:glob@Allow", .text "/a"), ("order", .text "first")]

/-- Reading, here and elsewhere, is decided as before. -/
theorem leavesAlone_of_modify_rewriting : ∃ entries,
    (diamond.modify .standard elsewhereEntries (.text "guest") (some "/") rewriting).result =
      .ok entries ∧
    diamond.LeavesAlone elsewhereEntries entries (.text "guest") rewriting := by
  obtain ⟨entries, h⟩ := exists_of_isSome_toOption
    (x := (diamond.modify .standard elsewhereEntries (.text "guest") (some "/") rewriting).result)
    (by decide +kernel)
  exact ⟨entries, h, leavesAlone_of_modify h unbundled_elsewhereEntries (by decide +kernel)⟩

/-- To the guest of the diamond editing is allowed, and a privilege that has the name of an
    aggregate of the diamond, and is none. -/
def borrowedEntries : List Entry :=
  [⟨.text "guest", .allow, [.atomic "doc:view"], ∅⟩,
    ⟨.text "guest", .allow, [.atomic "doc:share", .atomic "doc:write"], ∅⟩]

/-- Writing is allowed. -/
def writing : List (String × Datum) := [("privilege@doc:write", .text "allow")]

/-- What has the name of the aggregate is folded with editing into the root, and is read as
    reading, which nobody has asked for. -/
theorem not_leavesAlone_borrowing :
    (∀ p ∈ Parameter.accepted writing, p.subject?.isSome = true) ∧
    ∃ entries, (diamond.modify .standard borrowedEntries (.text "guest") (some "/")
        writing).result = .ok entries ∧
      ¬ diamond.LeavesAlone borrowedEntries entries (.text "guest") writing := by
  refine ⟨by decide +kernel, ?_⟩
  obtain ⟨entries, h, hread⟩ := exists_of_any_toOption
    (x := (diamond.modify .standard borrowedEntries (.text "guest") (some "/") writing).result)
    (p := fun entries => (DecisionMap.ofEntries entries (.text "guest")).toOption.any
      fun n => (n.get? "doc:read").isSome) (by
    simp only [modify, Journal.result_bind, Journal.result_pure, DecisionMap.consolidate, foldSteps,
      aggregatesByDepth_eq, DecisionMap.entries, DecisionMap.entriesFor_eq, DecisionMap.ordered_eq]
    decide +kernel)
  refine ⟨entries, h, ?_⟩
  rintro ⟨m, n, hm, hn, hleaf⟩
  rw [hn, Except.toOption, Option.any_some] at hread
  have hnone : (m.get? "doc:read").isNone = true :=
    of_all_toOption (p := fun m => (m.get? "doc:read").isNone) (by decide +kernel) hm
  have halike := hleaf "doc:read" (by decide +kernel)
  rw [Option.isNone_iff_eq_none.1 hnone] at halike
  cases hread' : n.get? "doc:read" with
  | none => simp [hread'] at hread
  | some d =>
    rw [hread'] at halike
    cases halike

/-- New entries put in force only what the stored ones did, whether they are read or their
    privileges are looked at. -/
structure BringsNothing (acl entries : List Entry) (principal : Principal)
    (m n : DecisionMap) : Prop where
  /-- The decisions of the stored entries. -/
  before : DecisionMap.ofEntries acl principal = .ok m
  /-- Those of the new entries. -/
  after : DecisionMap.ofEntries entries principal = .ok n
  /-- A leaf is allowed or denied only if it was. -/
  inForce : ∀ e leaf, (n.inForce? e leaf).isSome = true → (m.inForce? e leaf).isSome = true
  /-- An entry names only privileges whose leaves were allowed or denied. -/
  named : ∀ a ∈ entries, ∀ p ∈ a.privileges, ∀ leaf, p.covers leaf = true →
    (m.inForce? a.effect leaf).isSome = true

/-- A request that only deletes, or restricts what is decided, brings nothing into force. -/
theorem bringsNothing_of_modify
    (h : (r.modify provider acl principal path parameters).result = .ok entries)
    (hfree : ∀ m, DecisionMap.ofEntries acl principal = .ok m → m.Unbundled r)
    (hgrants : ∀ p ∈ Parameter.accepted parameters, p.grants = false) :
    ∃ m n, BringsNothing acl entries principal m n := by
  obtain ⟨m, n, edits, hm, hcarries, rfl⟩ := exists_of_modify h
  obtain ⟨n', hn', hsame⟩ := hcarries.exists_ofEntries (hfree m hm) principal
  have hforce (e : Effect) (leaf : String) (hleaf : (n.inForce? e leaf).isSome = true) :
      (m.inForce? e leaf).isSome = true := by
    rw [DecisionMap.isSome_inForce?_iff, hcarries.get?] at hleaf
    rw [DecisionMap.isSome_inForce?_iff]
    refine Edit.replay_induction (P := fun o => Decision.IsOn e o → Decision.IsOn e (m.get? leaf))
      (fun ed hed o ho hact => ho (Operation.isOn_of_act ?_ hact)) id hleaf
    obtain ⟨p, hp, hasks⟩ := hcarries.asked ed (List.mem_filter.1 hed).1
    rw [hasks.grants?_eq_none (hgrants p hp)]
    exact Option.some_ne_none e ∘ Eq.symm
  refine ⟨m, n', hm, hn', fun e leaf hleaf => hforce e leaf ?_, fun a ha p hp leaf hleaf => ?_⟩
  · rwa [← (DecisionMap.inForce?_congr hsame e leaf).isSome_eq]
  · obtain ⟨rs, hrs, _⟩ := DecisionMap.exists_inForce?_of_covers hcarries.onAtoms
      (hcarries.unbundled (hfree m hm)) ha hp hleaf
    exact hforce _ _ (Option.isSome_of_eq_some hrs)

/-- What allows writing is taken back, a restriction is deleted, and another one is added to
    everything. -/
def narrowing : List (String × Datum) :=
  [("privilege@doc:edit@Delete", .text "allow"), ("restriction@rep:glob@Delete", .text ""),
    ("restriction@rep:prefixes", .list [.text "doc", .text "wiki"]),
    ("restriction@doc:view@rep:prefixes@Delete", .text "deny")]

/-- Nothing is in force afterwards but what was so elsewhere. -/
theorem bringsNothing_of_modify_narrowing : ∃ entries m n,
    (diamond.modify .standard elsewhereEntries (.text "guest") (some "/") narrowing).result =
      .ok entries ∧ BringsNothing elsewhereEntries entries (.text "guest") m n := by
  obtain ⟨entries, h⟩ := exists_of_isSome_toOption
    (x := (diamond.modify .standard elsewhereEntries (.text "guest") (some "/") narrowing).result)
    (by decide +kernel)
  obtain ⟨m, n, hbrings⟩ :=
    bringsNothing_of_modify h unbundled_elsewhereEntries (by decide +kernel)
  exact ⟨entries, m, n, h, hbrings⟩

/-- What allows reading is taken back. -/
def unreading : List (String × Datum) := [("privilege@doc:read@Delete", .text "all")]

/-- What has the name of the aggregate brings up reading, which was not allowed before. -/
theorem not_bringsNothing_borrowing :
    (∀ p ∈ Parameter.accepted unreading, p.grants = false) ∧
    ∃ entries, (diamond.modify .standard borrowedEntries (.text "guest") (some "/")
        unreading).result = .ok entries ∧
      ¬ ∃ m n, BringsNothing borrowedEntries entries (.text "guest") m n := by
  refine ⟨by decide +kernel, ?_⟩
  obtain ⟨entries, h, hread⟩ := exists_of_any_toOption
    (x := (diamond.modify .standard borrowedEntries (.text "guest") (some "/") unreading).result)
    (p := fun entries => (DecisionMap.ofEntries entries (.text "guest")).toOption.any
      fun n => (n.inForce? .allow "doc:read").isSome) (by
    simp only [modify, Journal.result_bind, Journal.result_pure, DecisionMap.consolidate, foldSteps,
      aggregatesByDepth_eq, DecisionMap.entries, DecisionMap.entriesFor_eq, DecisionMap.ordered_eq]
    decide +kernel)
  refine ⟨entries, h, ?_⟩
  rintro ⟨m, n, hbrings⟩
  rw [hbrings.after, Except.toOption, Option.any_some] at hread
  have hnone : (m.inForce? .allow "doc:read").isNone = true :=
    of_all_toOption (p := fun m => (m.inForce? .allow "doc:read").isNone) (by decide +kernel)
      hbrings.before
  have hbefore := hbrings.inForce .allow "doc:read" hread
  rw [Option.isNone_iff_eq_none.1 hnone] at hbefore
  cases hbefore

end Registry

end AccessControl
