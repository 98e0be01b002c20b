import AccessControl.Configuration.Setup
import AccessControl.Proofs.Configuration.Registry
import AccessControl.Proofs.Decision.Atoms
import AccessControl.Proofs.Decision.BothSides
import AccessControl.Proofs.Decision.Canonical
import AccessControl.Proofs.Decision.FoldBack
import AccessControl.Proofs.Decision.Idempotence
import AccessControl.Proofs.Decision.Interleaving
import AccessControl.Proofs.Decision.Removal
import AccessControl.Proofs.Decision.Sides
import AccessControl.Proofs.Decision.SingleSweep
import AccessControl.Proofs.Decision.Targets
import AccessControl.Proofs.Entry.Faithful
import AccessControl.Proofs.Entry.Foreign
import AccessControl.Proofs.Entry.Grouping
import AccessControl.Proofs.Entry.Keeping
import AccessControl.Proofs.Entry.Order
import AccessControl.Proofs.Modification.Amending
import AccessControl.Proofs.Modification.Asking
import AccessControl.Proofs.Modification.Conflict
import AccessControl.Proofs.Modification.Deleting
import AccessControl.Proofs.Modification.Granting
import AccessControl.Proofs.Modification.Leafwise
import AccessControl.Proofs.Modification.Limits
import AccessControl.Proofs.Modification.Listing
import AccessControl.Proofs.Modification.Names
import AccessControl.Proofs.Modification.Outcome
import AccessControl.Proofs.Modification.Parameter
import AccessControl.Proofs.Modification.Priority
import AccessControl.Proofs.Modification.ReadBack
import AccessControl.Proofs.Modification.Removal
import AccessControl.Proofs.Modification.Unambiguous
import AccessControl.Proofs.Modification.Values
import AccessControl.Proofs.Modification.Writing
import AccessControl.Proofs.Privilege.Expansion
import AccessControl.Proofs.Privilege.Reduction
import AccessControl.Proofs.Privilege.Validation
