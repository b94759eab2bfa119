import PackedSet.BitSet.Algebra.Membership
import PackedSet.Cursor.Progress
import PackedSet.Store
import PackedSet.Main
import PackedSet.Proofs.Capacity
import PackedSet.Proofs.Failure
import PackedSet.Proofs.HiddenCapacity
import PackedSet.Proofs.InPlace
import PackedSet.Proofs.Storing
import PackedSet.Proofs.Lattice
import PackedSet.Proofs.Passes
import PackedSet.Proofs.Changes
import PackedSet.Proofs.FirstFit
import PackedSet.Proofs.Cursor.Places
import PackedSet.Proofs.EventLog
import PackedSet.Proofs.Twins
import PackedSet.Proofs.Digest
import PackedSet.Proofs.Numeral.RoundTrip
import PackedSet.Proofs.Liveness.LeastSolution
import PackedSet.Proofs.Checked.Script
import PackedSet.Proofs.Cursor.Remaining
import PackedSet.Proofs.Cursor.Scan
import PackedSet.Proofs.Numeral.Value
import PackedSet.Proofs.Numeral.Strangers
import PackedSet.Proofs.Members.RoundTrip
import PackedSet.Proofs.Collecting
import PackedSet.Proofs.GrowthCost
