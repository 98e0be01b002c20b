import AccessControl.Journal
import AccessControl.Proofs.Correspondence

/-!
# Computations that succeed

What is known of a computation that consists of several, if it succeeds: all of
them did. If it fails, one of them did.

* `exists_of_bind_eq_ok`: one computation after the other;
* `corresponds_of_mapM`, `foldlM_induction`: one for each member of a list;
* `exists_of_mapM_eq_error`, `exists_of_foldlM_eq_error`: where an error comes from;
* `errorOf?_bind`, `errorOf?_mapM`: which error it is;
* `Journal.result_mapM`, `Journal.result_foldlM`: the same for computations that remark on
  what they read.
-/

namespace AccessControl

variable {α β : Type}

theorem exists_of_bind_eq_ok {x : Except Error α} {f : α → Except Error β} {b : β}
    (h : x.bind f = .ok b) : ∃ a, x = .ok a ∧ f a = .ok b := by
  cases x with
  | error e => cases h
  | ok a => exact ⟨a, rfl, h⟩

theorem exists_of_isSome_toOption {x : Except Error α} (h : x.toOption.isSome = true) :
    ∃ a, x = .ok a := by
  cases x with
  | error e => cases h
  | ok a => exact ⟨a, rfl⟩

/-- What is said of the result of a computation is said of one that succeeds. -/
theorem exists_of_any_toOption {x : Except Error α} {p : α → Bool}
    (h : x.toOption.any p = true) : ∃ a, x = .ok a ∧ p a = true := by
  cases x with
  | error e => cases h
  | ok a => exact ⟨a, rfl, h⟩

/-- What is said of any result of a computation is said of the one it has. -/
theorem of_all_toOption {x : Except Error α} {p : α → Bool} (h : x.toOption.all p = true)
    {a : α} (ha : x = .ok a) : p a = true := by
  subst ha
  exact h

/-- The results of several computations are those of each of them. -/
theorem forall₂_of_mapM {f : α → Except Error β} {as : List α} {bs : List β}
    (h : as.mapM f = .ok bs) : List.Forall₂ (fun a b => f a = .ok b) as bs := by
  induction as generalizing bs with
  | nil =>
    cases h
    exact .nil
  | cons a as ih =>
    rw [List.mapM_cons] at h
    obtain ⟨b', ha, h⟩ := exists_of_bind_eq_ok h
    obtain ⟨bs', has, h⟩ := exists_of_bind_eq_ok h
    cases h
    exact .cons ha (ih has)

theorem corresponds_of_mapM {f : α → Except Error β} {as : List α} {bs : List β}
    (h : as.mapM f = .ok bs) : Corresponds (fun a b => f a = .ok b) as bs :=
  corresponds_of_forall₂ (forall₂_of_mapM h)

/-- Computations that are all known to succeed. -/
theorem mapM_eq_ok_map {f : α → Except Error β} {g : α → β} {as : List α}
    (h : ∀ a ∈ as, f a = .ok (g a)) : as.mapM f = .ok (as.map g) := by
  induction as with
  | nil => rfl
  | cons a as ih =>
    obtain ⟨ha, hrest⟩ := List.forall_mem_cons.1 h
    rw [List.mapM_cons, ha, ih hrest]
    rfl

/-- If each of several computations succeeds, so do all of them. -/
theorem exists_mapM {f : α → Except Error β} {as : List α} (h : ∀ a ∈ as, ∃ b, f a = .ok b) :
    ∃ bs, as.mapM f = .ok bs := by
  induction as with
  | nil => exact ⟨[], rfl⟩
  | cons a as ih =>
    obtain ⟨⟨b, hb⟩, hrest⟩ := List.forall_mem_cons.1 h
    obtain ⟨bs, hbs⟩ := ih hrest
    exact ⟨b :: bs, by rw [List.mapM_cons, hb, hbs]; rfl⟩

/-- What is made of each of several results is made of all of them. -/
theorem mapM_map_eq {γ : Type} (f : α → Except Error β) (g : β → γ) (as : List α) :
    (as.mapM fun a => (f a).map g) = (as.mapM f).map (List.map g) := by
  induction as with
  | nil => rfl
  | cons a as ih =>
    rw [List.mapM_cons, List.mapM_cons, ih]
    cases f a with
    | error e => rfl
    | ok b => cases as.mapM f <;> rfl

/-- An error of several computations is an error of one of them. -/
theorem exists_of_mapM_eq_error {f : α → Except Error β} {as : List α} {e : Error}
    (h : as.mapM f = .error e) : ∃ a ∈ as, f a = .error e := by
  induction as with
  | nil => cases h
  | cons a as ih =>
    rw [List.mapM_cons] at h
    cases ha : f a with
    | error e' =>
      rw [ha] at h
      cases h
      exact ⟨a, List.mem_cons_self, ha⟩
    | ok b =>
      cases has : as.mapM f with
      | error e' =>
        rw [ha, has] at h
        cases h
        obtain ⟨a', ha', h⟩ := ih has
        exact ⟨a', List.mem_cons_of_mem _ ha', h⟩
      | ok bs =>
        rw [ha, has] at h
        cases h

/-- The error of a computation, if it fails. -/
def errorOf? : Except Error α → Option Error
  | .ok _ => none
  | .error e => some e

/-- One computation after the other fails as the first one, or else as the second one. -/
theorem errorOf?_bind {f : α → Except Error β} {o : Option Error} (x : Except Error α)
    (h : ∀ a, errorOf? (f a) = o) : errorOf? (x.bind f) = (errorOf? x).or o := by
  cases x with
  | error e => rfl
  | ok a => exact h a

/-- If the second one cannot fail, they fail as the first one. -/
theorem errorOf?_bind_of_none {f : α → Except Error β} (x : Except Error α)
    (h : ∀ a, errorOf? (f a) = none) : errorOf? (x.bind f) = errorOf? x := by
  rw [errorOf?_bind x h, Option.or_none]

/-- Several computations fail as the first of them that fails. -/
theorem errorOf?_mapM (f : α → Except Error β) (as : List α) :
    errorOf? (as.mapM f) = as.findSome? fun a => errorOf? (f a) := by
  induction as with
  | nil => rfl
  | cons a as ih =>
    rw [List.mapM_cons, List.findSome?_cons, ← ih]
    cases f a with
    | error e => rfl
    | ok b => cases as.mapM f <;> rfl

/-- What is known of the steps up to then, if every step extends it to itself, is known of all
    of them. -/
theorem foldlM_append_induction {f : β → α → Except Error β} {as : List α}
    {P : β → List α → Prop}
    (step : ∀ a ∈ as, ∀ b done c, P b done → f b a = .ok c → P c (done ++ [a])) {b c : β}
    {done : List α} (hb : P b done) (h : as.foldlM f b = .ok c) : P c (done ++ as) := by
  induction as generalizing b done with
  | nil =>
    cases h
    rwa [List.append_nil]
  | cons a as ih =>
    obtain ⟨hstep, hrest⟩ := List.forall_mem_cons.1 step
    rw [List.foldlM_cons] at h
    obtain ⟨mid, hmid, h⟩ := exists_of_bind_eq_ok h
    rw [List.append_cons]
    exact ih hrest (hstep b done mid hb hmid) h

/-- What every step keeps is kept by all of them. -/
theorem foldlM_induction {f : β → α → Except Error β} {as : List α} {P : β → Prop} {b c : β}
    (step : ∀ a ∈ as, ∀ b c, P b → f b a = .ok c → P c) (hb : P b) (h : as.foldlM f b = .ok c) :
    P c :=
  @foldlM_append_induction _ _ f as (fun b _ => P b)
    (fun a ha b _ c hb hc => step a ha b c hb hc) b c [] hb h

/-- If every step succeeds, so do all of them. -/
theorem exists_foldlM {f : β → α → Except Error β} {as : List α}
    (step : ∀ a ∈ as, ∀ b, ∃ c, f b a = .ok c) (b : β) : ∃ c, as.foldlM f b = .ok c := by
  induction as generalizing b with
  | nil => exact ⟨b, rfl⟩
  | cons a as ih =>
    obtain ⟨mid, hmid⟩ := step a List.mem_cons_self b
    rw [List.foldlM_cons, hmid]
    exact ih (fun a ha => step a (List.mem_cons_of_mem _ ha)) mid

/-- If every step succeeds and what is known of the steps up to then extends to it, then it
    extends to all of them. -/
theorem exists_foldlM_append {f : β → α → Except Error β} {as : List α} {P : β → List α → Prop}
    (step : ∀ a ∈ as, ∀ b done, P b done → ∃ c, f b a = .ok c ∧ P c (done ++ [a])) {b : β}
    {done : List α} (hb : P b done) : ∃ c, as.foldlM f b = .ok c ∧ P c (done ++ as) := by
  induction as generalizing b done with
  | nil => exact ⟨b, rfl, by rwa [List.append_nil]⟩
  | cons a as ih =>
    obtain ⟨hstep, hrest⟩ := List.forall_mem_cons.1 step
    obtain ⟨mid, hmid, hdone⟩ := hstep b done hb
    obtain ⟨c, hc, hall⟩ := ih hrest hdone
    refine ⟨c, ?_, by rwa [List.append_cons]⟩
    rw [List.foldlM_cons, hmid]
    exact hc

/-- An error of several steps is an error of one of them. -/
theorem exists_of_foldlM_eq_error {f : β → α → Except Error β} {as : List α} {b : β} {e : Error}
    (h : as.foldlM f b = .error e) : ∃ a ∈ as, ∃ c, f c a = .error e := by
  induction as generalizing b with
  | nil => cases h
  | cons a as ih =>
    rw [List.foldlM_cons] at h
    cases hmid : f b a with
    | error e' =>
      rw [hmid] at h
      cases h
      exact ⟨a, List.mem_cons_self, b, hmid⟩
    | ok mid =>
      rw [hmid] at h
      obtain ⟨a', ha', h⟩ := ih h
      exact ⟨a', List.mem_cons_of_mem _ ha', h⟩

namespace Journal

/-- Remarks are put one after the other, in whatever way computations are combined. -/
instance : LawfulMonad Journal := .mk' Journal
  (fun j => by
    obtain ⟨ws, result⟩ := j
    cases result with
    | error e => rfl
    | ok a => exact congrArg (fun ws => Journal.mk ws (.ok a)) (List.append_nil ws))
  (fun a f => congrArg (fun ws => Journal.mk ws (f a).result) (List.nil_append (f a).warnings))
  (fun j f g => by
    obtain ⟨ws, result⟩ := j
    cases result with
    | error e => rfl
    | ok a =>
      cases h : (f a).result with
      | error e => simp [bind, andThen, h]
      | ok b => simp [bind, andThen, h])

@[simp] theorem result_liftM (x : Except Error α) : (liftM x : Journal α).result = x := rfl

theorem exists_of_result_bind {j : Journal α} {f : α → Journal β} {b : β}
    (h : (j >>= f).result = .ok b) : ∃ a, j.result = .ok a ∧ (f a).result = .ok b :=
  exists_of_bind_eq_ok (result_bind j f ▸ h)

theorem result_mapM (f : α → Journal β) (as : List α) :
    (as.mapM f).result = as.mapM fun a => (f a).result := by
  induction as with
  | nil => rfl
  | cons a as ih =>
    rw [List.mapM_cons, List.mapM_cons, result_bind]
    congr 1
    funext b
    rw [result_bind, ih]
    rfl

theorem result_foldlM (f : β → α → Journal β) (as : List α) (b : β) :
    (as.foldlM f b).result = as.foldlM (fun b a => (f b a).result) b := by
  induction as generalizing b with
  | nil => rfl
  | cons a as ih =>
    rw [List.foldlM_cons, List.foldlM_cons, result_bind]
    congr 1
    exact funext ih

end Journal

end AccessControl
