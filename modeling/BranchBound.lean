import BranchBound.Main
import BranchBound.Relaxation.Prescribed
import BranchBound.Proofs.OneRow.Enumeration
import BranchBound.Proofs.Verdict
import BranchBound.Proofs.WarmStart
import BranchBound.Proofs.Accounting
import BranchBound.Proofs.Deduplication
import BranchBound.Proofs.Restart
import BranchBound.Proofs.OneRow.Duality
import BranchBound.Proofs.Incumbents
import BranchBound.Proofs.Anytime
import BranchBound.Proofs.Ceiling
import BranchBound.Proofs.Interleaving
import BranchBound.Proofs.Faults
import BranchBound.Proofs.Termination
import BranchBound.Proofs.Unproven
import BranchBound.Proofs.OneRow.Narrowing
import BranchBound.Proofs.OneRow.Failure
import BranchBound.Proofs.FiniteTree
import BranchBound.Proofs.Stability
import BranchBound.Proofs.Binaries
import BranchBound.Proofs.OneRow.Fractions
import BranchBound.Proofs.Sameness
import BranchBound.Proofs.Double.Division
import BranchBound.Proofs.Double.Accuracy
import BranchBound.Proofs.OneRow.Acceptance
import BranchBound.Proofs.Marks
import BranchBound.Proofs.Generation
