import AccessControl.Modification.Parameter

/-!
# The grammar of parameter names

Names of parameters are read by trying one form after the other. What each reader accepts is
told here as a text that is put together of its parts, whatever the parts are: the name of a
privilege may hold separators, and that of a restriction line breaks. No name has two forms,
so it does not matter in which order they are tried.

* `Parameter.Spells`: the forms of a name;
* `Parameter.restrictionParts?_eq_some_iff`: the parts of a name that is about a restriction;
* `Parameter.ofName?_eq_some_iff`: a name is read as a parameter just if it spells it;
* `Parameter.Spells.unique`: no name has two forms.
-/

namespace AccessControl

namespace Text

variable {c : Char} {trail lead rest cs body : List Char}

/-- What stands before the last separator and what follows it. -/
theorem upTo?_append_cons (ht : c ∉ trail) (hr : c ∉ rest) :
    upTo? (c :: trail) (lead ++ c :: rest) = if rest = trail then some lead else none := by
  split
  next h =>
    subst h
    exact upTo?_eq_some_iff.2 rfl
  next hne =>
    rw [Option.eq_none_iff_forall_ne_some]
    intro x hx
    -- If the text ended with the trail, the last separators would be in different places.
    rcases List.append_eq_append_iff.1 (upTo?_eq_some_iff.1 hx) with ⟨as, _, h⟩ | ⟨as, _, h⟩
    · rcases as with _ | ⟨a, as⟩
      · exact hne (List.cons.inj h).2
      · exact hr ((List.cons.inj h).2 ▸ List.mem_append_right _ List.mem_cons_self)
    · rcases as with _ | ⟨a, as⟩
      · exact hne (List.cons.inj h).2.symm
      · exact ht ((List.cons.inj h).2 ▸ List.mem_append_right _ List.mem_cons_self)

/-- The parts of a text that is split have no separators. -/
theorem notMem_of_mem_splitOn (h : cs ∈ body.splitOn c) : c ∉ cs := by
  induction body generalizing cs with
  | nil =>
    rw [List.splitOn_nil, List.mem_singleton] at h
    exact h ▸ List.not_mem_nil
  | cons b body ih =>
    rw [List.splitOn_cons_eq_if_modifyHead] at h
    split at h
    · rcases List.mem_cons.1 h with rfl | h
      · exact List.not_mem_nil
      · exact ih h
    next hb =>
      cases hparts : body.splitOn c with
      | nil => exact absurd hparts (List.splitOn_ne_nil _ _)
      | cons part parts =>
        rw [hparts] at h ih
        rcases List.mem_cons.1 h with rfl | h
        · refine fun hc => ?_
          rcases List.mem_cons.1 hc with rfl | hc
          · exact hb BEq.rfl
          · exact ih List.mem_cons_self hc
        · exact ih (List.mem_cons_of_mem _ h)

end Text

namespace Parameter

variable {name short x : String} {n cs body : List Char} {parts : List String} {p q : Parameter}

/-! ## Forms of names -/

/-- A name without the line break at its end, if it has one. -/
inductive Shortens (name short : String) : Prop
  | broken : name = short ++ "\n" → Shortens name short
  | unbroken : name = short → (∀ front, name ≠ front ++ "\n") → Shortens name short

/-- A text that is one line, and not empty. -/
structure IsLine (s : String) : Prop where
  /-- It is not empty. -/
  nonempty : s ≠ ""
  /-- It is written on one line. -/
  unbroken : '\n' ∉ s.toList

/-- A name that can be told from others that it is separated from. -/
structure IsSeparable (s : String) : Prop where
  /-- It is not empty. -/
  nonempty : s ≠ ""
  /-- Nothing in it separates the parts of a name. -/
  unseparated : '@' ∉ s.toList

/-- What the name of a parameter spells. -/
inductive Spells (name : String) : Parameter → Prop
  | privilegeDelete {x : String} : IsLine x → Shortens name (privilegeLead ++ x ++ deleteTrail) →
    Spells name (privilegeDelete x)
  | privilege {x : String} : IsLine x → Shortens name (privilegeLead ++ x) →
    (∀ front, privilegeLead ++ x ≠ front ++ deleteTrail) → Spells name (privilege x)
  | restrictionDelete {a : String} : IsSeparable a →
    Shortens name (restrictionLead ++ a ++ deleteTrail) → Spells name (restrictionDelete a)
  | restrictionDeleteOf {a b : String} : IsSeparable a → IsSeparable b →
    Shortens name (restrictionLead ++ a ++ "@" ++ b ++ deleteTrail) →
    Spells name (restrictionDeleteOf a b)
  /-- Here a line break at the end belongs to the name of the restriction. -/
  | restriction {a : String} : IsSeparable a → name = restrictionLead ++ a →
    Spells name (restriction a)
  | restrictionOf {a b : String} {e : Effect} : IsSeparable a → IsSeparable b →
    Shortens name (restrictionLead ++ a ++ "@" ++ b ++ "@" ++ sideWord e) →
    Spells name (restrictionOf a b e)

theorem upTo?_eq_none_iff {trail : String} :
    Text.upTo? trail.toList name.toList = none ↔ ∀ front, name ≠ front ++ trail := by
  rw [Option.eq_none_iff_forall_ne_some]
  constructor
  · rintro h front rfl
    exact h front.toList (Text.upTo?_eq_some_iff.2 String.toList_append)
  · intro h body hbody
    refine h (String.ofList body) ?_
    rw [← String.toList_inj, String.toList_append, String.toList_ofList]
    exact Text.upTo?_eq_some_iff.1 hbody

theorem upTo?_break (short : String) :
    Text.upTo? ['\n'] (short ++ "\n").toList = some short.toList :=
  Text.upTo?_eq_some_iff.2 String.toList_append

theorem shortens_iff : Shortens name short ↔ withoutBreak name.toList = short.toList := by
  rw [withoutBreak]
  constructor
  · rintro (rfl | ⟨rfl, hno⟩)
    · rw [upTo?_break]
      rfl
    · have hnone : Text.upTo? ['\n'] name.toList = none := upTo?_eq_none_iff.2 hno
      rw [hnone]
      rfl
  · intro h
    cases hn : Text.upTo? ['\n'] name.toList with
    | some m =>
      rw [hn, Option.getD_some] at h
      refine .broken ?_
      rw [← String.toList_inj, String.toList_append, ← h]
      exact Text.upTo?_eq_some_iff.1 hn
    | none =>
      rw [hn, Option.getD_none] at h
      exact .unbroken (String.toList_inj.1 h) (upTo?_eq_none_iff.1 hn)

/-! ## Readers -/

theorem privilegeName?_eq_some_iff : privilegeName? cs = some x ↔ IsLine x ∧ cs = x.toList := by
  rw [privilegeName?]
  split
  next h =>
    refine iff_of_false nofun ?_
    rintro ⟨hx, rfl⟩
    simp [hx.nonempty, hx.unbroken] at h
  next h =>
    rw [Option.some.injEq]
    constructor
    · rintro rfl
      simp only [Bool.or_eq_true, List.isEmpty_iff, List.contains_iff_mem, not_or] at h
      refine ⟨⟨fun hx => h.1 ?_, ?_⟩, String.toList_ofList.symm⟩
      · rw [← String.toList_ofList (l := cs), hx]
        rfl
      · rw [String.toList_ofList]
        exact h.2
    · rintro ⟨_, rfl⟩
      exact String.ofList_toList

theorem privilegeDelete?_eq_some_iff : privilegeDelete? n = some p ↔ ∃ x, IsLine x ∧
    n = privilegeLead.toList ++ x.toList ++ deleteTrail.toList ∧ p = privilegeDelete x := by
  simp only [privilegeDelete?, Option.bind_eq_bind, Option.bind_eq_some_iff,
    Text.upTo?_eq_some_iff, Text.after?_eq_some_iff, privilegeName?_eq_some_iff]
  constructor
  · rintro ⟨body, rfl, cs, rfl, x, ⟨hx, rfl⟩, hp⟩
    exact ⟨x, hx, rfl, (Option.some.inj hp).symm⟩
  · rintro ⟨x, hx, rfl, rfl⟩
    exact ⟨_, rfl, _, rfl, x, ⟨hx, rfl⟩, rfl⟩

theorem privilege?_eq_some_iff : privilege? n = some p ↔ ∃ x, IsLine x ∧
    n = privilegeLead.toList ++ x.toList ∧ Text.upTo? deleteTrail.toList n = none ∧
      p = privilege x := by
  rw [privilege?]
  cases hn : Text.upTo? deleteTrail.toList n with
  | some body => exact iff_of_false nofun fun ⟨_, _, _, h, _⟩ => by cases h
  | none =>
    simp only [Option.bind_eq_bind, Option.bind_eq_some_iff, Text.after?_eq_some_iff,
      privilegeName?_eq_some_iff]
    constructor
    · rintro ⟨cs, rfl, x, ⟨hx, rfl⟩, hp⟩
      exact ⟨x, hx, rfl, trivial, (Option.some.inj hp).symm⟩
    · rintro ⟨x, hx, rfl, _, rfl⟩
      exact ⟨_, rfl, x, ⟨hx, rfl⟩, rfl⟩

/-- The parts of a name that is about a restriction, put together with separators. -/
theorem restrictionParts?_eq_some_iff : restrictionParts? n = some parts ↔
    parts ≠ [] ∧ (∀ s ∈ parts, IsSeparable s) ∧
      n = restrictionLead.toList ++ ['@'].intercalate (parts.map String.toList) := by
  rw [restrictionParts?, Option.bind_eq_bind, Option.bind_eq_some_iff]
  constructor
  · rintro ⟨body, hbody, hparts⟩
    dsimp only at hparts
    split at hparts
    · cases hparts
    next hempty =>
      obtain rfl := Option.some.inj hparts
      have htexts : ((body.splitOn '@').map String.ofList).map String.toList =
          body.splitOn '@' := by
        simp [Function.comp_def]
      refine ⟨by simp, fun s hs => ?_, ?_⟩
      · obtain ⟨cs, hcs, rfl⟩ := List.mem_map.1 hs
        have hne : cs ≠ [] := fun h => hempty (List.any_eq_true.2 ⟨cs, hcs, by rw [h]; rfl⟩)
        refine ⟨by simpa using hne, ?_⟩
        rw [String.toList_ofList]
        exact Text.notMem_of_mem_splitOn hcs
      · rw [htexts, List.intercalate_splitOn]
        exact Text.after?_eq_some_iff.1 hbody
  · rintro ⟨hne, hparts, rfl⟩
    refine ⟨_, Text.after?_eq_some_iff.2 rfl, ?_⟩
    have hsplit : (['@'].intercalate (parts.map String.toList)).splitOn '@' =
        parts.map String.toList := by
      refine List.splitOn_intercalate _ (fun cs hcs => ?_) (by simpa using hne)
      obtain ⟨s, hs, rfl⟩ := List.mem_map.1 hcs
      exact (hparts s hs).unseparated
    have hnone : (parts.map String.toList).any List.isEmpty = false := by
      simpa using fun s hs => (hparts s hs).nonempty
    simp [hsplit, hnone]

theorem restrictionDelete?_eq_some_iff : restrictionDelete? n = some p ↔
    (∃ a, IsSeparable a ∧
      n = restrictionLead.toList ++ a.toList ++ deleteTrail.toList ∧ p = restrictionDelete a) ∨
    ∃ a b, IsSeparable a ∧ IsSeparable b ∧
      n = restrictionLead.toList ++ (a.toList ++ '@' :: b.toList) ++ deleteTrail.toList ∧
        p = restrictionDeleteOf a b := by
  simp only [restrictionDelete?, Option.bind_eq_bind, Option.bind_eq_some_iff,
    Text.upTo?_eq_some_iff, restrictionParts?_eq_some_iff]
  constructor
  · rintro ⟨body, rfl, parts, ⟨_, hparts, rfl⟩, hp⟩
    match parts, hparts, hp with
    | [a], hparts, hp =>
      exact .inl ⟨a, by simpa using hparts, by simp, (Option.some.inj hp).symm⟩
    | [a, b], hparts, hp =>
      have hab : IsSeparable a ∧ IsSeparable b := by simpa using hparts
      exact .inr ⟨a, b, hab.1, hab.2, by simp, (Option.some.inj hp).symm⟩
  · rintro (⟨a, ha, rfl, rfl⟩ | ⟨a, b, ha, hb, rfl, rfl⟩)
    · exact ⟨_, rfl, [a], ⟨by simp, by simpa using ha, by simp⟩, rfl⟩
    · exact ⟨_, rfl, [a, b], ⟨by simp, by simp [ha, hb], by simp⟩, rfl⟩

theorem restriction?_eq_some_iff : restriction? n = some p ↔
    ∃ a, IsSeparable a ∧ n = restrictionLead.toList ++ a.toList ∧ p = restriction a := by
  simp only [restriction?, Option.bind_eq_bind, Option.bind_eq_some_iff,
    restrictionParts?_eq_some_iff]
  constructor
  · rintro ⟨parts, ⟨_, hparts, rfl⟩, hp⟩
    match parts, hparts, hp with
    | [a], hparts, hp =>
      exact ⟨a, by simpa using hparts, by simp, (Option.some.inj hp).symm⟩
  · rintro ⟨a, ha, rfl, rfl⟩
    exact ⟨[a], ⟨by simp, by simpa using ha, by simp⟩, rfl⟩

theorem isSeparable_sideWord (e : Effect) : IsSeparable (sideWord e) := by
  cases e <;> exact ⟨by decide, by decide⟩

theorem side?_eq_some_iff {w : String} {e : Effect} : side? w = some e ↔ w = sideWord e := by
  rw [side?]
  split
  next h => cases e <;> simp [h, sideWord]
  next h =>
    split
    next h' => cases e <;> simp [h', sideWord]
    next h' => cases e <;> simp [h, h']

theorem restrictionOf?_eq_some_iff : restrictionOf? n = some p ↔
    ∃ a b e, IsSeparable a ∧ IsSeparable b ∧ n = restrictionLead.toList ++
      (a.toList ++ '@' :: (b.toList ++ '@' :: (sideWord e).toList)) ∧ p = restrictionOf a b e := by
  simp only [restrictionOf?, Option.bind_eq_bind, Option.bind_eq_some_iff,
    restrictionParts?_eq_some_iff]
  constructor
  · rintro ⟨parts, ⟨_, hparts, rfl⟩, hp⟩
    match parts, hparts, hp with
    | [a, b, w], hparts, hp =>
      obtain ⟨e, he, hside⟩ := Option.bind_eq_some_iff.1 hp
      obtain rfl := side?_eq_some_iff.1 he
      have hab : IsSeparable a ∧ IsSeparable b ∧ IsSeparable (sideWord e) := by simpa using hparts
      exact ⟨a, b, e, hab.1, hab.2.1, by simp, (Option.some.inj hside).symm⟩
  · rintro ⟨a, b, e, ha, hb, rfl, rfl⟩
    refine ⟨[a, b, sideWord e], ⟨by simp, ?_, by simp⟩, ?_⟩
    · simp [ha, hb, isSeparable_sideWord]
    · exact Option.bind_eq_some_iff.2 ⟨e, side?_eq_some_iff.2 rfl, rfl⟩

/-- A name spells what one of the readers accepts. -/
theorem spells_iff : Spells name p ↔
    privilegeDelete? (withoutBreak name.toList) = some p ∨
    privilege? (withoutBreak name.toList) = some p ∨
    restrictionDelete? (withoutBreak name.toList) = some p ∨
    restriction? name.toList = some p ∨ restrictionOf? (withoutBreak name.toList) = some p := by
  simp only [privilegeDelete?_eq_some_iff, privilege?_eq_some_iff, restrictionDelete?_eq_some_iff,
    restriction?_eq_some_iff, restrictionOf?_eq_some_iff]
  constructor
  · rintro (⟨hx, hname⟩ | ⟨hx, hname, hdelete⟩ | ⟨ha, hname⟩ | ⟨ha, hb, hname⟩ | ⟨ha, rfl⟩ |
      ⟨ha, hb, hname⟩)
    · exact .inl ⟨_, hx, by simpa using shortens_iff.1 hname, rfl⟩
    · have hn := shortens_iff.1 hname
      exact .inr (.inl ⟨_, hx, by simpa using hn, hn ▸ upTo?_eq_none_iff.2 hdelete, rfl⟩)
    · exact .inr (.inr (.inl (.inl ⟨_, ha, by simpa using shortens_iff.1 hname, rfl⟩)))
    · exact .inr (.inr (.inl (.inr ⟨_, _, ha, hb, by simpa using shortens_iff.1 hname, rfl⟩)))
    · exact .inr (.inr (.inr (.inl ⟨_, ha, String.toList_append, rfl⟩)))
    · exact .inr (.inr (.inr (.inr ⟨_, _, _, ha, hb, by simpa using shortens_iff.1 hname, rfl⟩)))
  · rintro (⟨x, hx, hn, rfl⟩ | ⟨x, hx, hn, hdelete, rfl⟩ | (⟨a, ha, hn, rfl⟩ |
      ⟨a, b, ha, hb, hn, rfl⟩) | ⟨a, ha, hn, rfl⟩ | ⟨a, b, e, ha, hb, hn, rfl⟩)
    · exact .privilegeDelete hx (shortens_iff.2 (by simpa using hn))
    · have hshort : withoutBreak name.toList = (privilegeLead ++ x).toList := by simpa using hn
      exact .privilege hx (shortens_iff.2 hshort) (upTo?_eq_none_iff.1 (hshort ▸ hdelete))
    · exact .restrictionDelete ha (shortens_iff.2 (by simpa using hn))
    · exact .restrictionDeleteOf ha hb (shortens_iff.2 (by simpa using hn))
    · exact .restriction ha (String.toList_inj.1 (by simpa using hn))
    · exact .restrictionOf ha hb (shortens_iff.2 (by simpa using hn))

/-! ## No name has two forms -/

theorem exists_eq_withoutBreak_append (cs : List Char) : ∃ rest, cs = withoutBreak cs ++ rest := by
  rw [withoutBreak]
  cases h : Text.upTo? ['\n'] cs with
  | none => exact ⟨[], (List.append_nil cs).symm⟩
  | some body => exact ⟨['\n'], Text.upTo?_eq_some_iff.1 h⟩

theorem append_ne_append (cs body : List Char) :
    privilegeLead.toList ++ cs ≠ restrictionLead.toList ++ body :=
  fun h => absurd (List.cons.inj h).1 (by decide)

/-- What is read as the name of a restriction is not about a privilege. -/
theorem privilege_readers_eq_none (h : name.toList = restrictionLead.toList ++ body) :
    privilegeDelete? (withoutBreak name.toList) = none ∧
      privilege? (withoutBreak name.toList) = none := by
  obtain ⟨rest, hrest⟩ := exists_eq_withoutBreak_append name.toList
  have hlead (cs : List Char) (hcs : withoutBreak name.toList = privilegeLead.toList ++ cs) :
      False := by
    rw [hcs, h, List.append_assoc] at hrest
    exact append_ne_append _ _ hrest.symm
  constructor
  · refine Option.eq_none_iff_forall_ne_some.2 fun p hp => ?_
    obtain ⟨x, _, hx, _⟩ := privilegeDelete?_eq_some_iff.1 hp
    exact hlead _ (hx.trans (List.append_assoc _ _ _))
  · refine Option.eq_none_iff_forall_ne_some.2 fun p hp => ?_
    obtain ⟨x, _, hx, _⟩ := privilege?_eq_some_iff.1 hp
    exact hlead _ hx

/-- A name of a restriction of everything has one separator, and keeps no more than this one. -/
theorem count_le_one (h : restriction? name.toList = some p) :
    (withoutBreak name.toList).count '@' ≤ 1 := by
  obtain ⟨a, ha, hname, _⟩ := restriction?_eq_some_iff.1 h
  obtain ⟨rest, hrest⟩ := exists_eq_withoutBreak_append name.toList
  have hcount := congrArg (List.count '@') (hrest.symm.trans hname)
  have hlead : restrictionLead.toList.count '@' = 1 := by decide
  rw [List.count_append, List.count_append, hlead, List.count_eq_zero.2 ha.unseparated] at hcount
  omega

theorem two_le_count_of_restrictionDelete? (h : restrictionDelete? n = some p) :
    2 ≤ n.count '@' := by
  have hlead : restrictionLead.toList.count '@' = 1 := by decide
  have htrail : deleteTrail.toList.count '@' = 1 := by decide
  rcases restrictionDelete?_eq_some_iff.1 h with ⟨a, _, rfl, _⟩ | ⟨a, b, _, _, rfl, _⟩ <;>
    rw [List.count_append, List.count_append, hlead, htrail] <;> omega

theorem two_le_count_of_restrictionOf? (h : restrictionOf? n = some p) : 2 ≤ n.count '@' := by
  have hlead : restrictionLead.toList.count '@' = 1 := by decide
  obtain ⟨a, b, e, _, _, rfl, _⟩ := restrictionOf?_eq_some_iff.1 h
  rw [List.count_append, hlead, List.count_append, List.count_cons_self]
  omega

/-- What a word for a side follows is not deleted. -/
theorem restrictionDelete?_of_restrictionOf? (h : restrictionOf? n = some p) :
    restrictionDelete? n = none := by
  obtain ⟨a, b, e, _, _, rfl, _⟩ := restrictionOf?_eq_some_iff.1 h
  have htrail : deleteTrail.toList = '@' :: "Delete".toList := rfl
  have hword : (sideWord e).toList ≠ "Delete".toList := by cases e <;> decide
  have hlast : Text.upTo? ('@' :: "Delete".toList)
      (restrictionLead.toList ++ (a.toList ++ '@' :: b.toList) ++ '@' :: (sideWord e).toList) = _ :=
    Text.upTo?_append_cons (by decide) (isSeparable_sideWord e).unseparated
  rw [if_neg hword, ← htrail, List.append_assoc, List.append_assoc, List.cons_append] at hlast
  rw [restrictionDelete?, hlast]
  rfl

theorem privilegeDelete?_of_privilege? (h : privilege? n = some p) : privilegeDelete? n = none := by
  obtain ⟨_, _, _, hdelete, _⟩ := privilege?_eq_some_iff.1 h
  rw [privilegeDelete?, hdelete]
  rfl

/-- What one of the readers for restrictions accepts begins as they do. -/
theorem exists_restrictionLead (h : restrictionDelete? (withoutBreak name.toList) = some p ∨
    restriction? name.toList = some p ∨ restrictionOf? (withoutBreak name.toList) = some p) :
    ∃ body, name.toList = restrictionLead.toList ++ body := by
  obtain ⟨rest, hrest⟩ := exists_eq_withoutBreak_append name.toList
  rw [restrictionDelete?_eq_some_iff, restriction?_eq_some_iff, restrictionOf?_eq_some_iff] at h
  rcases h with (⟨a, _, hn, _⟩ | ⟨a, b, _, _, hn, _⟩) | ⟨a, _, hn, _⟩ | ⟨a, b, e, _, _, hn, _⟩
  · exact ⟨_, by rw [hrest, hn, List.append_assoc, List.append_assoc]⟩
  · exact ⟨_, by rw [hrest, hn, List.append_assoc, List.append_assoc]⟩
  · exact ⟨_, hn⟩
  · exact ⟨_, by rw [hrest, hn, List.append_assoc]⟩

/-- A name is about a privilege, or begins as those of restrictions. -/
theorem Spells.about_privilege_or (h : Spells name p) :
    (∃ x, p = .privilege x ∨ p = .privilegeDelete x) ∨
      ∃ body, name.toList = restrictionLead.toList ++ body := by
  rcases spells_iff.1 h with h | h | h
  · obtain ⟨x, _, _, rfl⟩ := privilegeDelete?_eq_some_iff.1 h
    exact .inl ⟨x, .inr rfl⟩
  · obtain ⟨x, _, _, _, rfl⟩ := privilege?_eq_some_iff.1 h
    exact .inl ⟨x, .inl rfl⟩
  · exact .inr (exists_restrictionLead h)

/-- A name is read as a parameter just if it spells it. -/
theorem ofName?_eq_some_iff : ofName? name = some p ↔ Spells name p := by
  rw [spells_iff, ofName?]
  simp only [Option.orElse_eq_orElse, Option.orElse_eq_or, Option.or_eq_some_iff]
  constructor
  · rintro (h | ⟨_, h | ⟨_, h | ⟨_, h | ⟨_, h⟩⟩⟩⟩)
    · exact .inl h
    · exact .inr (.inl h)
    · exact .inr (.inr (.inl h))
    · exact .inr (.inr (.inr (.inl h)))
    · exact .inr (.inr (.inr (.inr h)))
  · -- What one reader accepts, those before it do not.
    rintro (h | h | h)
    · exact .inl h
    · exact .inr ⟨privilegeDelete?_of_privilege? h, .inl h⟩
    · obtain ⟨body, hbody⟩ := exists_restrictionLead h
      obtain ⟨hdelete, hprivilege⟩ := privilege_readers_eq_none hbody
      refine .inr ⟨hdelete, .inr ⟨hprivilege, ?_⟩⟩
      rcases h with h | h | h
      · exact .inl h
      · have hcount := count_le_one h
        refine .inr ⟨Option.eq_none_iff_forall_ne_some.2 fun q hq => ?_, .inl h⟩
        have htwo := two_le_count_of_restrictionDelete? hq
        omega
      · have hcount := two_le_count_of_restrictionOf? h
        refine .inr ⟨restrictionDelete?_of_restrictionOf? h, .inr ⟨?_, h⟩⟩
        refine Option.eq_none_iff_forall_ne_some.2 fun q hq => ?_
        have hone := count_le_one hq
        omega

theorem ofName?_eq_none_iff : ofName? name = none ↔ ∀ p, ¬Spells name p := by
  rw [Option.eq_none_iff_forall_ne_some]
  exact forall_congr' fun _ => not_congr ofName?_eq_some_iff

/-- No name has two forms. -/
theorem Spells.unique (hp : Spells name p) (hq : Spells name q) : p = q :=
  Option.some.inj ((ofName?_eq_some_iff.2 hp).symm.trans (ofName?_eq_some_iff.2 hq))

end Parameter

end AccessControl
