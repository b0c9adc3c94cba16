import HotPatch.Session.Basic
import HotPatch.Proofs.Memory.Atomicity
import HotPatch.Proofs.Pattern.Printing
import HotPatch.Proofs.Code.Branch
import HotPatch.Proofs.Transaction.Atomicity
import HotPatch.Proofs.Transaction.Calls
import HotPatch.Proofs.Transaction.Rollback
import HotPatch.Proofs.Patch.Steady
import HotPatch.Proofs.Patch.Traceless
import HotPatch.Proofs.Ledger.Install
import HotPatch.Proofs.Manager.Conservation
import HotPatch.Proofs.Manager.Teardown
import HotPatch.Proofs.Hook.Round
import HotPatch.Proofs.Hook.Sweep
import HotPatch.Proofs.Hook.Course
import HotPatch.Proofs.Hook.Outcome
import HotPatch.Proofs.Hook.Atomicity
import HotPatch.Proofs.Hook.Redoing
import HotPatch.Proofs.InOrder
import HotPatch.Proofs.Patch.RoundTrip
import HotPatch.Proofs.Patch.Life
import HotPatch.Proofs.Patch.Pursuit
import HotPatch.Proofs.Patch.Mirror
import HotPatch.Proofs.Manager.Persistence
import HotPatch.Proofs.Setting.ReadBack
import HotPatch.Proofs.Trampoline.Allocation
import HotPatch.Proofs.Session.Custody
import HotPatch.Proofs.ReadableRanges
import HotPatch.Proofs.Matched.Session
import HotPatch.Proofs.Session.Hooking
import HotPatch.Proofs.Manager.Padding
