import AccessControl.Proofs.Decision.Origin
import AccessControl.Proofs.Modification.Request

/-!
# Deleted restrictions

A restriction that is deleted everywhere is in no entry afterwards, however many restrictions
of its name there were and whatever else is done, unless it is added again. That holds for
the parameters of a request, where the deletion comes before what is allowed, denied and added,
and for an amendment, which removes restrictions from the stored entries first.

* `Registry.Carries.lacks`: edits that add nothing of a name leave nothing of it once it has
  been deleted;
* `Amendment.lacks_remove`, `Amendment.names_restrictionSet`: what an amendment removes, and
  what it adds;
* `DecisionMap.not_named_of_lacks`: what no decision has is in no entry;
* `Registry.deleted_everywhere`: the two ways put together.
-/

namespace AccessControl

theorem PrivilegeValue.names_added_operation {rs : RestrictionSet} {name : Option String}
    (h : rs.names name = false) (v : PrivilegeValue) :
    (v.operation rs).added.names name = false := by
  cases v with
  | allow | granted | denied | deny => exact h
  | none => exact RestrictionSet.names_empty name

/-! ## Requests -/

namespace Parameter

variable {r : Registry} {p : Parameter} {ed : Edit} {x : String}

/-- Whether a parameter adds a restriction of a name. -/
def adds (x : String) : Parameter → Bool
  | restriction y | restrictionOf _ y _ => y == x
  | privilege _ | privilegeDelete _ | restrictionDelete _ | restrictionDeleteOf _ _ => false

/-- No parameter asks for an operation that adds more than the one restriction it is about. -/
theorem AsksFor.added (h : p.AsksFor r ed) : ed.operation.added = ∅ ∨
    ∃ y restriction, p.adds y = true ∧ restriction.name = some y ∧
      ed.operation.added = .single restriction := by
  cases h with
  | privilege _ v => cases v <;> exact .inl rfl
  | privilegeDelete => exact .inl rfl
  | restrictionDelete v | restrictionDeleteOf _ v => cases v <;> exact .inl rfl
  | restriction hy | restrictionOf _ hy => exact .inr ⟨_, _, beq_self_eq_true _, hy, rfl⟩

/-- Other parameters ask for no operation that adds one. -/
theorem AsksFor.names_added (h : p.AsksFor r ed) (hp : p.adds x = false) :
    ed.operation.added.names (some x) = false := by
  rcases h.added with hnone | ⟨y, restriction, hy, hname, hone⟩
  · rw [hnone, RestrictionSet.names_empty]
  · rw [hone]
    refine RestrictionSet.names_single fun heq => ?_
    obtain rfl := Option.some.inj (hname.symm.trans heq)
    exact Bool.false_ne_true (hp.symm.trans hy)

end Parameter

/-- After edits that delete a restriction everywhere, and none of which adds it, it is nowhere. -/
theorem Registry.Carries.lacks {r : Registry} {parameters : List (String × Datum)}
    {m n : DecisionMap} {edits : List Edit} (h : r.Carries parameters m n edits) {x : String}
    (hx : .restrictionDelete x ∈ Parameter.accepted parameters)
    (hadds : ∀ p ∈ Parameter.accepted parameters, p.adds x = false) :
    ∀ k, ∀ d ∈ n.get? k, d.Lacks (some x) := by
  intro k
  obtain ⟨front, back, hedits⟩ := List.append_of_mem (h.deleted x hx)
  have hsplit : n.get? k = Edit.replay (back.filter (·.covers k))
      ((Operation.unrestrictBoth [some x]).act
        (Edit.replay (front.filter (·.covers k)) (m.get? k))) := by
    rw [h.get?, hedits, List.filter_append, List.filter_cons_of_pos rfl, Edit.replay,
      List.foldl_append]
    rfl
  rw [hsplit]
  -- It is gone after the deletion, and no later edit brings it back.
  refine Edit.replay_induction (P := fun o => ∀ d ∈ o, d.Lacks (some x))
    (fun ed hed o ho => Operation.lacks_act ?_ ho) fun d hd => ?_
  · have hmem : ed ∈ edits := by
      rw [hedits]
      exact List.mem_append_right _ (List.mem_cons_of_mem _ (List.mem_filter.1 hed).1)
    obtain ⟨p, hp, hasks⟩ := h.asked ed hmem
    exact hasks.names_added (hadds p hp)
  · obtain ⟨d, _, rfl⟩ := Option.map_eq_some_iff.1 hd
    exact Decision.lacks_unrestrictBoth List.mem_cons_self d

/-! ## Amendments -/

/-- A name is among the names that data hold: the characters of a text, the members of a list or
    the names of the fields of a record. -/
def Datum.HoldsName (x : String) : Datum → Prop
  | scalar (.text s) => ∃ c ∈ s.toList, c.toString = x
  | scalar _ => False
  | list items => .text x ∈ items
  | record fields => x ∈ fields.map Prod.fst

theorem Datum.HoldsName.isTrue {d : Datum} {x : String} (h : d.HoldsName x) :
    d.isTrue = true := by
  cases d with
  | scalar s =>
    cases s with
    | text s =>
      obtain ⟨c, hc, _⟩ := h
      simpa [Datum.isTrue] using fun hs : s = "" => by simp [hs] at hc
    | null | bool _ | int _ => cases h
  | list items => simpa [Datum.isTrue] using List.ne_nil_of_mem h
  | record fields =>
    simpa [Datum.isTrue] using fun hs : fields = [] => by simp [HoldsName, hs] at h

theorem Datum.HoldsName.mem_names {d : Datum} {x : String} (h : d.HoldsName x)
    {names : List (Option String)} (hnames : d.names = .ok names) : some x ∈ names := by
  obtain ⟨ss, hss, hnames⟩ := exists_of_bind_eq_ok hnames
  cases hnames
  rw [scalars.eq_def, if_pos h.isTrue] at hss
  refine List.mem_filterMap.2 ⟨.text x, ?_, rfl⟩
  cases d with
  | scalar s =>
    cases s with
    | text s =>
      obtain ⟨c, hc, rfl⟩ := h
      cases hss
      exact List.mem_map.2 ⟨c, hc, rfl⟩
    | null | bool _ | int _ => cases h
  | list items =>
    obtain ⟨s, hs, hsingle⟩ := (corresponds_of_mapM hss).forth _ h
    cases hsingle
    exact hs
  | record fields =>
    cases hss
    obtain ⟨field, hfield, rfl⟩ := List.mem_map.1 h
    exact List.mem_map.2 ⟨field, hfield, rfl⟩

namespace Amendment

variable {a : Amendment} {r : Registry} {m n : DecisionMap} {known : Vocabulary} {x : String}

/-- No decision has a restriction that is removed. -/
theorem lacks_remove (hm : m.OnAtoms) (hx : a.removed.HoldsName x) (h : a.remove m = .ok n) :
    ∀ k, ∀ d ∈ n.get? k, d.Lacks (some x) := by
  intro k d hd
  rw [remove] at h
  split at h
  next names hnames =>
    cases h
    rw [DecisionMap.get?_mapDecisions] at hd
    obtain ⟨d₀, hd₀, rfl⟩ := Option.map_eq_some_iff.1 hd
    exact Decision.lacks_strip (hm.sound_get? k d₀ hd₀).clean (hx.mem_names hnames)
  next e he =>
    split at h
    · cases h
    next hundecided =>
      -- There is no decision, as one of its sides would be in force.
      cases h
      obtain ⟨b, hb, rfl, rfl⟩ := DecisionMap.get?_eq_some_iff.1 hd
      refine absurd (List.any_eq_true.2 ⟨b, hb, ?_⟩) hundecided
      rw [(hm.sound b hb).decided, Bool.not_false]

/-- The restrictions of an amendment have the names under which they are given. -/
theorem names_restrictionSet {rs : RestrictionSet} (h : a.restrictionSet known = .ok rs)
    (hplain : x ∉ a.restrictions.map Prod.fst) (hlisted : x ∉ a.listedRestrictions.map Prod.fst) :
    rs.names (some x) = false := by
  obtain ⟨plain, hplain', h⟩ := exists_of_bind_eq_ok h
  obtain ⟨listed, hlisted', h⟩ := exists_of_bind_eq_ok h
  cases h
  refine RestrictionSet.names_ofList
    (List.forall_mem_append.2 ⟨fun y hy heq => ?_, fun y hy heq => ?_⟩)
  · obtain ⟨q, hq, hsettle⟩ := (corresponds_of_mapM hplain').back y hy
    obtain ⟨definition, hdefinition, hsettle⟩ := exists_of_bind_eq_ok hsettle
    rw [RestrictionDraft.name_of_settle_ofRaw hsettle, Option.some.injEq,
      Vocabulary.name_of_definition hdefinition] at heq
    exact hplain (heq ▸ List.mem_map_of_mem hq)
  · obtain ⟨q, hq, hsettle⟩ := (corresponds_of_mapM hlisted').back y hy
    obtain ⟨definition, hdefinition, hsettle⟩ := exists_of_bind_eq_ok hsettle
    obtain ⟨_, _, hsettle⟩ := exists_of_bind_eq_ok hsettle
    rw [RestrictionDraft.name_of_settle_ofRaw hsettle, Option.some.injEq,
      Vocabulary.name_of_definition hdefinition] at heq
    exact hlisted (heq ▸ List.mem_map_of_mem hq)

/-- What is decided under other restrictions does not bring one back. -/
theorem lacks_decide {requested : List (Privilege × PrivilegeValue)} {rs : RestrictionSet}
    (hrequested : ∀ q ∈ requested, q.1 ∈ r.privileges) (hrs : rs.names (some x) = false)
    (hm : ∀ k, ∀ d ∈ m.get? k, d.Lacks (some x)) (h : decide requested rs m = .ok n) :
    ∀ k, ∀ d ∈ n.get? k, d.Lacks (some x) := by
  intro k
  obtain ⟨n', hn', hget⟩ := exists_decide hrequested rs m
  obtain rfl := Except.ok.inj (hn'.symm.trans h)
  rw [hget, replay]
  exact List.foldlRecOn (motive := fun o : Option Decision => ∀ d ∈ o, d.Lacks (some x)) _ _ (hm k)
    fun o ho v _ => Operation.lacks_act (PrivilegeValue.names_added_operation hrs v) ho

end Amendment

/-! ## Entries -/

/-- What no decision has is in none of the entries that the decisions are folded and written
    as. -/
theorem DecisionMap.not_named_of_lacks {m : DecisionMap} {x : String}
    (h : ∀ k, ∀ d ∈ m.get? k, d.Lacks (some x)) {d d' : DepthIndex} {r : Registry}
    {principal : Principal} {a : Entry} (ha : a ∈ (m.consolidate d r).entries d' principal) :
    ∀ y ∈ a.restrictions, y.name ≠ some x := by
  have hforce := forall_inForce?_of_onSides (onSides_consolidate (d := d) (r := r)
    (P := fun rs => rs.names (some x) = false) (RestrictionSet.names_empty _) h)
  have hnames : a.restrictions.names (some x) = false :=
    forall_mem_entries (fun rs ss hsame hrs => RestrictionSet.names_congr hsame _ ▸ hrs) hforce ha
  rw [← Bool.not_eq_true, RestrictionSet.names_iff] at hnames
  exact fun y hy heq => hnames ⟨Option.some_ne_none x, y, hy, heq⟩

/-! ## Main result -/

namespace Registry

variable {x : String}

/-- A restriction that is deleted everywhere, or removed from the stored entries first, is in no
    entry afterwards, unless it is added by the same request or amendment. -/
theorem deleted_everywhere (r : Registry) (provider : Provider) (acl : List Entry)
    (principal : Principal) (path : Option String) (hx : Parameter.IsSeparable x) :
    (∀ (parameters : List (String × Datum)) (entries : List Entry),
      (r.modify provider acl principal path parameters).result = .ok entries →
      (Parameter.restrictionDelete x).write ∈ parameters.map Prod.fst →
      (∀ p ∈ Parameter.accepted parameters, p.adds x = false) →
      ∀ a ∈ entries, ∀ y ∈ a.restrictions, y.name ≠ some x) ∧
    ∀ (a : Amendment) (entries : List Entry),
      (r.amend provider acl principal path a).result = .ok entries →
      a.removed.HoldsName x → x ∉ a.restrictions.map Prod.fst →
      x ∉ a.listedRestrictions.map Prod.fst →
      ∀ b ∈ entries, ∀ y ∈ b.restrictions, y.name ≠ some x := by
  constructor
  · intro parameters entries h hdelete hadds a ha
    obtain ⟨m, n, edits, _, hcarries, rfl⟩ := exists_of_modify h
    obtain ⟨q, hq, hname⟩ := List.mem_map.1 hdelete
    have haccepted : .restrictionDelete x ∈ Parameter.accepted parameters :=
      List.mem_filterMap.2 ⟨q, hq, hname ▸ Parameter.ofName?_restrictionDelete hx⟩
    exact DecisionMap.not_named_of_lacks (hcarries.lacks haccepted hadds) ha
  · intro a entries h hremoved hplain hlisted b hb
    obtain ⟨n, hn, h⟩ := Journal.exists_of_result_bind h
    cases h
    obtain ⟨known, _, hn⟩ := Journal.exists_of_result_bind hn
    obtain ⟨m, hm, hn⟩ := Journal.exists_of_result_bind hn
    obtain ⟨m', hm', hn⟩ := Journal.exists_of_result_bind hn
    obtain ⟨rs, hrs, hn⟩ := Journal.exists_of_result_bind hn
    obtain ⟨requested, hrequested, hn⟩ := Journal.exists_of_result_bind hn
    have hatoms := DecisionMap.onAtoms_of_ofEntries hm
    have hlacks := Amendment.lacks_decide (Amendment.mem_of_requested hrequested)
      (Amendment.names_restrictionSet hrs hplain hlisted)
      (Amendment.lacks_remove hatoms hremoved hm') hn
    exact DecisionMap.not_named_of_lacks hlacks hb

/-- To the guest of the diamond reading is allowed and denied, and writing is denied, under
    restrictions of one name with different values, some of them of another arity. -/
def scatteredEntries : List Entry :=
  [⟨.text "guest", .allow, [.atomic "doc:read"], .ofList [anywhere,
      ⟨some RestrictionName.leads, .bool true, [.text "doc"]⟩]⟩,
    ⟨.text "guest", .deny, [.atomic "doc:read"],
      .single ⟨some RestrictionName.glob, .bool true, [.text "/a", .text "/b"]⟩⟩,
    ⟨.text "guest", .deny, [.atomic "doc:write"],
      .single ⟨some RestrictionName.glob, .bool false, [.text "/c"]⟩⟩]

/-- A restriction is deleted, editing is allowed, and others are added. -/
def gathering : List (String × Datum) :=
  [("privilege@doc:edit", .list [.text "allow"]),
    ("restriction@doc:view@rep:prefixes@Deny", .text "wiki"),
    ("restriction@rep:itemNames", .list [.text "a", .text "b"]),
    ("restriction@rep:glob@Delete", .null)]

/-- The same restriction is removed, and editing is allowed under another one. -/
def replacing : Amendment where
  privileges := [("doc:edit", .text "allow")]
  restrictions := []
  listedRestrictions := [(RestrictionName.leads, .list [.text "wiki"])]
  removed := .list [.null, .text RestrictionName.glob]

/-- Either way, no restriction of the name is left. -/
theorem deleted_everywhere_scattered :
    (∃ entries, (diamond.modify .standard scatteredEntries (.text "guest") (some "/")
        gathering).result = .ok entries ∧
      ∀ a ∈ entries, ∀ y ∈ a.restrictions, y.name ≠ some RestrictionName.glob) ∧
    ∃ entries, (diamond.amend .standard scatteredEntries (.text "guest") (some "/")
        replacing).result = .ok entries ∧
      ∀ a ∈ entries, ∀ y ∈ a.restrictions, y.name ≠ some RestrictionName.glob := by
  obtain ⟨hmodify, hamend⟩ := deleted_everywhere diamond .standard scatteredEntries
    (.text "guest") (some "/") isPart_glob.isSeparable
  constructor
  · obtain ⟨entries, h⟩ := exists_of_isSome_toOption
      (x := (diamond.modify .standard scatteredEntries (.text "guest") (some "/")
        gathering).result) (by decide +kernel)
    exact ⟨entries, h, hmodify gathering entries h (by decide +kernel) (by decide +kernel)⟩
  · obtain ⟨entries, h⟩ := exists_of_isSome_toOption
      (x := (diamond.amend .standard scatteredEntries (.text "guest") (some "/")
        replacing).result) (by decide +kernel)
    exact ⟨entries, h, hamend replacing entries h (.tail _ (.head _)) (by decide) (by decide)⟩

end Registry

end AccessControl
