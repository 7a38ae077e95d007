import Chronicle.Branches
import Chronicle.Machine.Builder
import Chronicle.View
import Chronicle.Proofs.Stamps
import Chronicle.Proofs.Calls
import Chronicle.Proofs.Timeline
import Chronicle.Proofs.Lineage
import Chronicle.Proofs.Audit
import Chronicle.Proofs.Transparency
import Chronicle.Proofs.Erasure
import Chronicle.Proofs.Counting
import Chronicle.Proofs.Replay
import Chronicle.Proofs.Validity
import Chronicle.Proofs.Overrides
import Chronicle.Proofs.Leaves
import Chronicle.Proofs.Places
import Chronicle.Proofs.Thread
import Chronicle.Proofs.Views
import Chronicle.Proofs.Pauses
import Chronicle.Proofs.Outlines
import Chronicle.Proofs.Definitions
import Chronicle.Proofs.Exports
import Chronicle.Proofs.Sending
import Chronicle.Proofs.Affordances
import Chronicle.Proofs.Problems
import Chronicle.Proofs.Builders
import Chronicle.Proofs.Checkpoints
import Chronicle.Proofs.Walks
import Chronicle.Proofs.Logging
import Chronicle.Proofs.Fields
import Chronicle.Proofs.Transitions
import Chronicle.Proofs.Keys
import Chronicle.Proofs.Interchange
