import AccessControl.Proofs.Success

/-!
# Computations that agree

Two computations agree if they fail with errors, or lead to results, that are related in a
given way. Computations made of others, one after the other or for every
member of a list, agree if these do. Where it makes no difference which error is met
first, the lists need not have their members in the same order.

* `Agree`: agreement of computations;
* `Journal.Agree`: agreement of computations that remark on what they read;
* `Agree.bind`, `agree_mapM`, `agree_foldlM`: how it is put together.
-/

namespace AccessControl

variable {α β γ δ ι κ : Type}

/-- Errors, or results, that are related. -/
inductive Agree (E : Error → Error → Prop) (R : α → β → Prop) :
    Except Error α → Except Error β → Prop
  | ok {a : α} {b : β} : R a b → Agree E R (.ok a) (.ok b)
  | error {e e' : Error} : E e e' → Agree E R (.error e) (.error e')

/-- Errors of the same kind. -/
def Error.Akin (e e' : Error) : Prop := e.kind = e'.kind

section

variable {E : Error → Error → Prop} {R : α → β → Prop} {S : γ → δ → Prop} {T : ι → κ → Prop}
  {as : List ι} {bs : List κ}

theorem Agree.refl (hE : ∀ e, E e e) {R : α → α → Prop} (hR : ∀ a, R a a) (x : Except Error α) :
    Agree E R x x := by
  cases x with
  | error e => exact .error (hE e)
  | ok a => exact .ok (hR a)

/-- What is known of the results may be used. -/
theorem Agree.imp {x : Except Error α} {y : Except Error β} {Q : α → β → Prop}
    (h : Agree E R x y) (hRQ : ∀ a b, x = .ok a → y = .ok b → R a b → Q a b) : Agree E Q x y := by
  cases h with
  | error h => exact .error h
  | ok h => exact .ok (hRQ _ _ rfl rfl h)

theorem Agree.bind {x : Except Error α} {y : Except Error β} {f : α → Except Error γ}
    {g : β → Except Error δ} (h : Agree E R x y) (hfg : ∀ a b, R a b → Agree E S (f a) (g b)) :
    Agree E S (x >>= f) (y >>= g) := by
  cases h with
  | error h => exact .error h
  | ok h => exact hfg _ _ h

theorem rel_of_agree_ok {a : α} {b : β} (h : Agree E R (.ok a) (.ok b)) : R a b := by
  cases h with
  | ok h => exact h

/-- Computations for the members of lists agree if they do member by member. -/
theorem agree_mapM {f : ι → Except Error γ} {g : κ → Except Error δ} (h : List.Forall₂ T as bs)
    (hfg : ∀ a b, T a b → Agree E S (f a) (g b)) :
    Agree E (List.Forall₂ S) (as.mapM f) (bs.mapM g) := by
  induction h with
  | nil => exact .ok .nil
  | cons hab _ ih =>
    rw [List.mapM_cons, List.mapM_cons]
    exact (hfg _ _ hab).bind fun c d hcd => ih.bind fun cs ds hcds => .ok (.cons hcd hcds)

/-- The same for lists in different orders, if any error that may be met is related to any
    other one. -/
theorem agree_mapM_of_corresponds {f : ι → Except Error γ} {g : κ → Except Error δ}
    (h : Corresponds T as bs) (hfg : ∀ a b, T a b → Agree E S (f a) (g b))
    (hE : ∀ a b e e', f a = .error e → g b = .error e' → E e e') :
    Agree E (Corresponds S) (as.mapM f) (bs.mapM g) := by
  cases hcs : as.mapM f with
  | error e =>
    obtain ⟨a, ha, hfa⟩ := exists_of_mapM_eq_error hcs
    cases hds : bs.mapM g with
    | error e' =>
      obtain ⟨b, _, hgb⟩ := exists_of_mapM_eq_error hds
      exact .error (hE a b e e' hfa hgb)
    | ok ds =>
      obtain ⟨b, hb, hab⟩ := h.forth a ha
      obtain ⟨d, _, hgb⟩ := (corresponds_of_mapM hds).forth b hb
      cases hfa ▸ hgb ▸ hfg a b hab
  | ok cs =>
    cases hds : bs.mapM g with
    | error e' =>
      obtain ⟨b, hb, hgb⟩ := exists_of_mapM_eq_error hds
      obtain ⟨a, ha, hab⟩ := h.back b hb
      obtain ⟨c, _, hfa⟩ := (corresponds_of_mapM hcs).forth a ha
      cases hfa ▸ hgb ▸ hfg a b hab
    | ok ds =>
      refine .ok ⟨fun c hc => ?_, fun d hd => ?_⟩
      · obtain ⟨a, ha, hfa⟩ := (corresponds_of_mapM hcs).back c hc
        obtain ⟨b, hb, hab⟩ := h.forth a ha
        obtain ⟨d, hd, hgb⟩ := (corresponds_of_mapM hds).forth b hb
        exact ⟨d, hd, rel_of_agree_ok (hfa ▸ hgb ▸ hfg a b hab)⟩
      · obtain ⟨b, hb, hgb⟩ := (corresponds_of_mapM hds).back d hd
        obtain ⟨a, ha, hab⟩ := h.back b hb
        obtain ⟨c, hc, hfa⟩ := (corresponds_of_mapM hcs).forth a ha
        exact ⟨c, hc, rel_of_agree_ok (hfa ▸ hgb ▸ hfg a b hab)⟩

/-- Computations that take the members of lists in turn agree if each step does. -/
theorem agree_foldlM {f : γ → ι → Except Error γ} {g : δ → κ → Except Error δ}
    (h : List.Forall₂ T as bs) (hfg : ∀ a b c d, T a b → S c d → Agree E S (f c a) (g d b))
    {c : γ} {d : δ} (hcd : S c d) : Agree E S (as.foldlM f c) (bs.foldlM g d) := by
  induction h generalizing c d with
  | nil => exact .ok hcd
  | cons hab _ ih =>
    rw [List.foldlM_cons, List.foldlM_cons]
    exact (hfg _ _ c d hab hcd).bind fun _ _ => ih

end

namespace Journal

/-- The same remarks, and the same error, or results that are related. -/
structure Agree (R : α → β → Prop) (j : Journal α) (k : Journal β) : Prop where
  /-- What is remarked is the same. -/
  warnings : j.warnings = k.warnings
  /-- The results agree. -/
  result : AccessControl.Agree Eq R j.result k.result

namespace Agree

variable {R : α → β → Prop} {S : γ → δ → Prop}

theorem refl {R : α → α → Prop} (hR : ∀ a, R a a) (j : Journal α) : Agree R j j :=
  ⟨rfl, .refl (fun _ => rfl) hR j.result⟩

theorem pure {a : α} {b : β} (h : R a b) : Agree R (Pure.pure a : Journal α) (Pure.pure b) :=
  ⟨rfl, .ok h⟩

theorem liftM {x : Except Error α} {y : Except Error β} (h : AccessControl.Agree Eq R x y) :
    Agree R (MonadLiftT.monadLift x : Journal α) (MonadLiftT.monadLift y) :=
  ⟨rfl, h⟩

theorem bind {j : Journal α} {k : Journal β} {f : α → Journal γ} {g : β → Journal δ}
    (h : Agree R j k) (hfg : ∀ a b, R a b → Agree S (f a) (g b)) :
    Agree S (j >>= f) (k >>= g) := by
  obtain ⟨ws, x⟩ := j
  obtain ⟨ws', y⟩ := k
  obtain ⟨hws, hxy⟩ := h
  dsimp only at hws hxy
  subst hws
  cases hxy with
  | error h => exact ⟨rfl, .error h⟩
  | ok h =>
    obtain ⟨hws, hresult⟩ := hfg _ _ h
    exact ⟨congrArg (ws ++ ·) hws, hresult⟩

theorem mapM {f : ι → Journal γ} {g : ι → Journal δ} (hfg : ∀ a, Agree S (f a) (g a))
    (as : List ι) : Agree (List.Forall₂ S) (as.mapM f) (as.mapM g) := by
  induction as with
  | nil => exact pure .nil
  | cons a as ih =>
    rw [List.mapM_cons, List.mapM_cons]
    exact (hfg a).bind fun c d hcd => ih.bind fun cs ds hcds => pure (.cons hcd hcds)

end Agree

end Journal

end AccessControl
