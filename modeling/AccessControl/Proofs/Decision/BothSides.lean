import AccessControl.Proofs.Decision.Targets

/-!
# Both sides, in any order

Restrictions may be changed on both sides of a decision at once: one of them is merged into the
sides that are in force, or those of a name are removed. If the sides come to contradict each
other, what denies gives way. In another order they may come to do so earlier or later, but a
change treats both sides in one way, so that a side which has to give way may as well do so
after the next change (`Decision.yield_onSides`): it only counts how the sides are in the end.
And as each change is confined to the restrictions of one name, changes of different names lead
to the same sides in any order.

* `Side.Confined.comm`: changes that are confined to different names can be made in either
  order;
* `Decision.changeBoth_comm`: so can changes of both sides, whichever side gives way when;
* `NameChange.replay_perm`: changes of different names in any order, seen from a leaf;
* `DecisionMap.makeAll_same`: changes of a map in any order, and names that are removed at once.
-/

namespace AccessControl

/-! ## Changes of one name -/

namespace Side

variable {f g : Side → Side} {name name' : Option String} {s t : Side}

/-- A change of a side that is confined to the restrictions of one name: it leaves others
    alone, and does not look at them. -/
structure Confined (name : Option String) (f : Side → Side) : Prop where
  /-- The side is in force if it was. -/
  active : ∀ s, (f s).active = s.active
  /-- A side that is off stays as it is. -/
  off : f .off = .off
  /-- Restrictions of other names are left alone. -/
  others : ∀ s r, r.name ≠ name → (r ∈ (f s).restrictions ↔ r ∈ s.restrictions)
  /-- What becomes of those of the name depends on nothing else. -/
  own : ∀ s t, s.active = t.active →
    (∀ r, r.name = name → (r ∈ s.restrictions ↔ r ∈ t.restrictions)) →
      ∀ r, r.name = name → (r ∈ (f s).restrictions ↔ r ∈ (f t).restrictions)

theorem confined_remove (name : Option String) : Confined name fun s => s.remove [name] where
  active _ := rfl
  off := remove_off [name]
  others s r hr := by
    rw [remove, withRestrictions, RestrictionSet.mem_remove, List.mem_singleton]
    exact and_iff_left hr
  own s t _ _ r hr := by
    simp only [remove, withRestrictions, RestrictionSet.mem_remove, List.mem_singleton, hr,
      not_true_eq_false, and_false]

theorem confined_merge (x : Restriction) :
    Confined x.name fun s => if s.active then s.merge (.single x) else s where
  active s := by split <;> rfl
  off := rfl
  others s r hr := by
    split
    · -- What is merged has the name of the one restriction, and replaces nothing else.
      have hnew : r ∉ RestrictionSet.single x := fun h => hr (RestrictionSet.name_of_mem_single h)
      rw [merge, withRestrictions, RestrictionSet.mem_merge_iff_names, or_iff_right hnew,
        RestrictionSet.names_single (Ne.symm hr)]
      exact and_iff_left rfl
    · rfl
  own s t hact hst r hr := by
    rw [← hact]
    split
    · simp only [merge, withRestrictions, RestrictionSet.mem_merge, hst r hr]
    · exact hst r hr

theorem Confined.steady (hf : Confined name f) : Steady f where
  active := hf.active
  off := hf.off
  congr {s t} h := by
    obtain ⟨hactive, hrestrictions⟩ := same_iff.1 h
    have hmem := RestrictionSet.same_iff.1 hrestrictions
    have hchanged : (f s).active = (f t).active := by rw [hf.active, hf.active, hactive]
    refine same_iff.2 ⟨hchanged, RestrictionSet.same_iff.2 fun r => ?_⟩
    by_cases hr : r.name = name
    · exact hf.own s t hactive (fun r _ => hmem r) r hr
    · rw [hf.others s r hr, hf.others t r hr, hmem r]

/-- Changes that are confined to different names can be made in either order. -/
theorem Confined.comm (hf : Confined name f) (hg : Confined name' g) (hne : name ≠ name')
    (s : Side) : (f (g s)).same (g (f s)) = true := by
  have hactive : (f (g s)).active = (g (f s)).active := by
    rw [hf.active, hg.active, hg.active, hf.active]
  refine same_iff.2 ⟨hactive, RestrictionSet.same_iff.2 fun r => ?_⟩
  by_cases hr : r.name = name
  · -- The other change neither has made a difference to these restrictions, nor makes one.
    rw [hg.others (f s) r (hr ▸ hne)]
    exact hf.own (g s) s (hg.active s) (fun r hr => hg.others s r (hr ▸ hne)) r hr
  by_cases hr' : r.name = name'
  · rw [hf.others (g s) r hr]
    refine hg.own s (f s) (hf.active s).symm (fun r hr' => ?_) r hr'
    exact (hf.others s r (hr' ▸ hne.symm)).symm
  · rw [hf.others (g s) r hr, hg.others s r hr', hg.others (f s) r hr', hf.others s r hr]

end Side

/-! ## Changes of decisions -/

namespace Decision

variable {f g : Side → Side} {name name' : Option String} {d d' : Decision}

/-- Changes both sides in one way, and lets what denies give way if they come to contradict
    each other. -/
def changeBoth (d : Decision) (f : Side → Side) : Decision :=
  (d.onSides fun _ => f).yield .deny

theorem changeBoth_eq (d : Decision) (f : Side → Side) :
    d.changeBoth f = (d.onSides fun _ => f).yield .deny := rfl

/-- Changes of different names can be made in either order. -/
theorem changeBoth_comm (hf : Side.Confined name f) (hg : Side.Confined name' g)
    (hne : name ≠ name') (d : Decision) :
    ((d.changeBoth f).changeBoth g).same ((d.changeBoth g).changeBoth f) = true := by
  have hsides : ((d.onSides fun _ => f).onSides fun _ => g).same
      ((d.onSides fun _ => g).onSides fun _ => f) = true := by
    refine same_iff.2 fun e => ?_
    simp only [side_onSides]
    exact hg.comm hf hne.symm _
  rw [changeBoth_eq, changeBoth_eq, changeBoth_eq, changeBoth_eq, yield_onSides hg.steady,
    yield_onSides hf.steady]
  exact yield_congr hsides .deny

theorem unrestrictBoth_sameMembers_same {names names' : List (Option String)}
    (h : SameMembers names names') (d : Decision) :
    (d.unrestrictBoth names).same (d.unrestrictBoth names') = true := by
  have hside (s : Side) : (s.remove names).same (s.remove names') = true :=
    Side.same_iff.2 ⟨rfl, RestrictionSet.remove_sameMembers h _⟩
  have hsides : (d.without names).same (d.without names') = true := by
    rw [same, without, without, hside, hside]
    rfl
  exact yield_congr hsides .deny

end Decision

theorem Operation.act_unrestrictBoth_sameMembers {names names' : List (Option String)}
    (h : SameMembers names names') (o : Option Decision) :
    Decision.Alike ((Operation.unrestrictBoth names).act o)
      ((Operation.unrestrictBoth names').act o) := by
  cases o with
  | none => exact .none
  | some d => exact .some (d.unrestrictBoth_sameMembers_same h)

/-- A change of the restrictions of one name, on both sides at once. -/
inductive NameChange
  /-- A restriction is merged into the sides that are in force. -/
  | put (x : Restriction)
  /-- The restrictions of a name are removed. -/
  | take (name : Option String)

namespace NameChange

variable {c c' : NameChange} {cs cs' : List NameChange} {o o' : Option Decision}
  {names : List (Option String)}

/-- The name whose restrictions are changed. -/
def name : NameChange → Option String
  | put x => x.name
  | take name => name

/-- The operation that makes a change. -/
def operation : NameChange → Operation
  | put x => .restrict (.single x)
  | take name => .unrestrictBoth [name]

/-- What is done to either side. -/
def onSide : NameChange → Side → Side
  | put x => fun s => if s.active then s.merge (.single x) else s
  | take name => fun s => s.remove [name]

theorem confined_onSide (c : NameChange) : Side.Confined c.name c.onSide := by
  cases c with
  | put x => exact Side.confined_merge x
  | take name => exact Side.confined_remove name

theorem act_operation (c : NameChange) (o : Option Decision) :
    c.operation.act o = o.map (·.changeBoth c.onSide) := by
  cases c <;> rfl

theorem act_comm (hne : c.name ≠ c'.name) (o : Option Decision) :
    Decision.Alike (c'.operation.act (c.operation.act o))
      (c.operation.act (c'.operation.act o)) := by
  simp only [act_operation]
  cases o with
  | none => exact .none
  | some d => exact .some (d.changeBoth_comm c.confined_onSide c'.confined_onSide hne)

/-- What becomes of a decision when changes are made one after the other. -/
def replay (cs : List NameChange) (o : Option Decision) : Option Decision :=
  cs.foldl (fun o c => c.operation.act o) o

theorem replay_congr (h : Decision.Alike o o') (cs : List NameChange) :
    Decision.Alike (replay cs o) (replay cs o') := by
  induction cs generalizing o o' with
  | nil => exact h
  | cons c cs ih => exact ih (Operation.act_congr h c.operation)

/-- Changes of different names can be made in any order. -/
theorem replay_perm (hperm : cs.Perm cs') (hcs : (cs.map name).Nodup) (o : Option Decision) :
    Decision.Alike (replay cs o) (replay cs' o) := by
  induction hperm generalizing o with
  | nil => exact .refl o
  | cons c _ ih => exact ih (List.nodup_cons.1 hcs).2 (c.operation.act o)
  | swap c c' cs =>
    rw [List.map_cons, List.map_cons, List.nodup_cons, List.mem_cons, not_or] at hcs
    exact replay_congr (act_comm hcs.1.1 o) cs
  | trans hperm _ ih ih' =>
    exact (ih hcs o).trans (ih' ((hperm.map name).nodup_iff.1 hcs) o)

/-- Names are removed one by one as they are removed together. -/
theorem replay_take (hne : names ≠ []) (o : Option Decision) :
    Decision.Alike (replay (names.map take) o) ((Operation.unrestrictBoth names).act o) := by
  induction names generalizing o with
  | nil => exact absurd rfl hne
  | cons name names ih =>
    cases names with
    | nil => exact .refl _
    | cons name' names =>
      refine (ih (List.cons_ne_nil _ _) _).trans ?_
      cases o with
      | none => exact .none
      | some d => exact .some (d.unrestrictBoth_append_same [name] (name' :: names))

/-! ## Changes of maps -/

/-- What is called to make a change. -/
def make (c : NameChange) (m : DecisionMap) (targets : List Privilege) :
    Except Error DecisionMap :=
  match c with
  | put x => m.restrict x.draft targets
  | take name => m.unrestrictBoth (.list [.scalar (.ofName name)]) targets

theorem called_make (c : NameChange) : Operation.Called c.operation c.make := by
  cases c with
  | put x => exact .restrict x.settle_draft
  | take name =>
    refine .unrestrictBoth ?_
    cases name <;> rfl

theorem make_eq_perform (c : NameChange) (m : DecisionMap) (targets : List Privilege) :
    c.make m targets = m.perform c.operation targets :=
  congrFun (congrFun c.called_make.eq_perform m) targets

end NameChange

namespace DecisionMap

variable {m : DecisionMap} {r : Registry} {targets : List Privilege}

/-- Makes changes one after the other. -/
def makeAll (m : DecisionMap) (cs : List NameChange) (targets : List Privilege) :
    Except Error DecisionMap :=
  cs.foldlM (fun m c => c.make m targets) m

theorem exists_makeAll (ht : ∀ p ∈ targets, p ∈ r.privileges) (cs : List NameChange)
    (m : DecisionMap) : ∃ n, m.makeAll cs targets = .ok n ∧ ∀ k, n.get? k =
      if targets.any (·.covers k) then NameChange.replay cs (m.get? k) else m.get? k := by
  induction cs generalizing m with
  | nil => exact ⟨m, rfl, fun k => (ite_self _).symm⟩
  | cons c cs ih =>
    obtain ⟨l, hl, hget⟩ := exists_perform_actIf ht c.operation m
    obtain ⟨n, hn, hget'⟩ := ih l
    refine ⟨n, ?_, fun k => ?_⟩
    · rw [makeAll, List.foldlM_cons, NameChange.make_eq_perform, hl]
      exact hn
    · rw [hget', hget]
      cases targets.any (·.covers k) <;> rfl

/-- Changes of both sides, one name each, can be made in any order. To remove several names
    at once is to remove each of them, once or more often, in any order. -/
theorem makeAll_same (ht : ∀ p ∈ targets, p ∈ r.privileges) (m : DecisionMap) :
    (∀ cs cs' : List NameChange, cs.Perm cs' → (cs.map NameChange.name).Nodup →
      SameResult (m.makeAll cs targets) (m.makeAll cs' targets)) ∧
    ∀ (d : Datum) (names names' : List (Option String)), d.names = .ok names → names ≠ [] →
      SameMembers names names' →
        SameResult (m.unrestrictBoth d targets) (m.makeAll (names'.map .take) targets) := by
  constructor
  · intro cs cs' hperm hcs
    obtain ⟨n, hn, hget⟩ := exists_makeAll ht cs m
    obtain ⟨n', hn', hget'⟩ := exists_makeAll ht cs' m
    refine ⟨n, n', hn, hn', same_iff.2 fun k => ?_⟩
    rw [hget, hget']
    split
    · exact NameChange.replay_perm hperm hcs _
    · exact .refl _
  · intro d names names' hnames hne hmem
    have hne' : names' ≠ [] := by
      obtain ⟨name, hname⟩ := List.exists_mem_of_ne_nil names hne
      exact List.ne_nil_of_mem ((hmem name).1 hname)
    have hcalled := Operation.Called.unrestrictBoth hnames
    obtain ⟨n, hn, hget⟩ := exists_perform_actIf ht (.unrestrictBoth names) m
    obtain ⟨n', hn', hget'⟩ := exists_makeAll ht (names'.map .take) m
    refine ⟨n, n', ?_, hn', same_iff.2 fun k => ?_⟩
    · rw [← hn]
      exact congrFun (congrFun hcalled.eq_perform m) targets
    · rw [hget, hget', Operation.actIf]
      split
      · exact (Operation.act_unrestrictBoth_sameMembers hmem _).trans
          (NameChange.replay_take hne' _).symm
      · exact .refl _

/-- What is denied in the guarded diamond gives way in either order: at once, or only when the
    second change is made. -/
theorem makeAll_same_guarded :
    (∀ p ∈ [Registry.diamond.root], p ∈ Registry.diamond.privileges) ∧
      let put : NameChange := .put ⟨some RestrictionName.glob, .bool false, [.text "*"]⟩
      let take : NameChange := .take (some RestrictionName.leads)
      ([put, take].map NameChange.name).Nodup ∧
        SameResult (guarded.makeAll [put, take] [Registry.diamond.root])
          (guarded.makeAll [take, put] [Registry.diamond.root]) ∧
        SameResult
          (guarded.unrestrictBoth (.list [.text RestrictionName.leads, .text RestrictionName.glob])
            [Registry.diamond.root])
          (guarded.makeAll [.take (some RestrictionName.glob), take] [Registry.diamond.root]) := by
  have hroot : ∀ p ∈ [Registry.diamond.root], p ∈ Registry.diamond.privileges :=
    List.forall_mem_singleton.2 Registry.diamond.root_mem
  have hnames : ([some RestrictionName.glob, some RestrictionName.leads] : List _).Nodup := by
    decide
  obtain ⟨horder, htogether⟩ := makeAll_same hroot guarded
  refine ⟨hroot, hnames, horder _ _ (List.Perm.swap _ _ []) hnames, ?_⟩
  refine htogether _ [some RestrictionName.leads, some RestrictionName.glob]
    [some RestrictionName.glob, some RestrictionName.leads] rfl (List.cons_ne_nil _ _) ?_
  intro name
  exact (List.Perm.swap _ _ []).mem_iff

end DecisionMap

end AccessControl
