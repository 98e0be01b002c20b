import AccessControl.Decision.Operation
import AccessControl.Privilege.Registry

/-!
# Folding decisions

Decisions are taken on leaves and told of aggregates: where all immediate
children of an aggregate are allowed under the same restrictions, the aggregate
is allowed under these restrictions instead, and likewise for what is denied.
Anything short of that leaves the children as they are.

* `DecisionMap.fold?`: one step, for an aggregate and an effect;
* `DecisionMap.sweep`: all steps once, the deepest aggregates first;
* `DecisionMap.consolidate`: sweeps until nothing more folds.
-/

namespace AccessControl

/-- An aggregate that decisions may be folded into, with its immediate children
    and the effect that is looked at. -/
structure FoldStep where
  /-- The aggregate. -/
  aggregate : Privilege
  /-- The names of its immediate children. -/
  children : List String
  /-- The effect whose side is folded. -/
  effect : Effect

/-- The steps of a sweep over the aggregates of a registry in a depth index,
    deepest first. -/
def Registry.foldSteps (r : Registry) (d : DepthIndex) : List FoldStep :=
  (r.aggregatesByDepth d).flatMap fun p =>
    let children := r.immediateChildren p.id
    [⟨p, children, .allow⟩, ⟨p, children, .deny⟩]

namespace DecisionMap

/-- The restrictions under which all given privileges are allowed or denied, if
    they are and there are any; written as for the first of them. -/
def common? (m : DecisionMap) (e : Effect) : List String → Option RestrictionSet
  | [] => none
  | id :: ids =>
    (m.inForce? e id).filter fun rs => ids.all fun k => (m.inForce? e k).any rs.same

/-- Folds the children of an aggregate into it, if they are all allowed or
    denied under the same restrictions. What the side of the aggregate held
    before is replaced. -/
def fold? (m : DecisionMap) (step : FoldStep) : Option DecisionMap :=
  (m.common? step.effect step.children).map fun rs =>
    (m.performOnLeaves (.clear step.effect) step.children).rule step.aggregate fun d =>
      d.onSide step.effect fun _ => ⟨true, rs⟩

/-- Tries the steps one after the other; tells whether one of them folded. -/
def sweep (m : DecisionMap) (steps : List FoldStep) : DecisionMap × Bool :=
  steps.foldl (fun (m, folded) step =>
    match m.fold? step with
    | some m => (m, true)
    | none => (m, folded)) (m, false)

/-- Sweeps until nothing folds, at most `bound` times. -/
def sweeps (m : DecisionMap) (steps : List FoldStep) : (bound : Nat) → DecisionMap
  | 0 => m
  | bound + 1 =>
    match m.sweep steps with
    | (m, true) => m.sweeps steps bound
    | (m, false) => m

/-- Folds the decisions of a map into the aggregates of a registry, as far as
    these are in a depth index.

    A step moves a side from privileges to one that has fewer ancestors than
    each of them. Each of the sides in force, at most two for a privilege, can
    be moved up at most as often as there are privileges, so that the number of
    steps, and of sweeps that fold something, is bounded. -/
def consolidate (m : DecisionMap) (d : DepthIndex) (r : Registry) : DecisionMap :=
  m.sweeps (r.foldSteps d) (2 * r.size * r.size + 1)

end DecisionMap

end AccessControl
