import AccessControl.Error

/-!
# Journals

A computation that reads a request may have something to remark on the way: a
value it ignores, a principal it does not find. A `Journal` is a result or an
error together with the warnings given up to then, so that the warnings of a
computation that fails are not lost.

* `Journal.result_bind`: the result of a computation does not depend on what it
  remarks.
-/

namespace AccessControl

/-- A remark on a request that does not stop it. -/
inductive Warning
  /-- A privilege value that is none of the known ones. -/
  | ignoredPrivilegeValue (value : Datum)
  /-- A delete value that is none of the known ones. -/
  | ignoredDeleteValue (value : Datum)
  /-- The entries of a principal were to be deleted, and there are none. -/
  | nothingDeleted (principal : Scalar)

/-- The text of a warning. -/
def Warning.message : Warning → String
  | ignoredPrivilegeValue value => "Ignoring invalid privilege value " ++ value.literal
  | ignoredDeleteValue value => "Ignoring invalid delete value " ++ value.literal
  | nothingDeleted principal =>
    "No access control entry was found to be deleted for principal: " ++ principal.plain

/-- The outcome of a computation together with its warnings, in order. -/
structure Journal (α : Type) where
  /-- The warnings given before the computation ended. -/
  warnings : List Warning
  /-- How the computation ended. -/
  result : Except Error α

namespace Journal

variable {α β : Type}

/-- A computation that gives no warning. -/
def ofExcept (result : Except Error α) : Journal α := ⟨[], result⟩

/-- A computation that only gives a warning. -/
def warn (w : Warning) : Journal Unit := ⟨[w], .ok ()⟩

/-- One computation after the other; the second one happens if the first one
    ends well. -/
def andThen (j : Journal α) (f : α → Journal β) : Journal β :=
  match j.result with
  | .ok a => ⟨j.warnings ++ (f a).warnings, (f a).result⟩
  | .error e => ⟨j.warnings, .error e⟩

instance : Monad Journal where
  pure a := ⟨[], .ok a⟩
  bind := andThen

instance : MonadLift (Except Error) Journal := ⟨ofExcept⟩

@[simp] theorem result_pure (a : α) : (pure a : Journal α).result = .ok a := rfl

@[simp] theorem result_bind (j : Journal α) (f : α → Journal β) :
    (j >>= f).result = j.result.bind fun a => (f a).result := by
  obtain ⟨w, r⟩ := j
  cases r <;> rfl

end Journal

end AccessControl
