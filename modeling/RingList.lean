import RingList.Session.Transcript
import RingList.Proofs.Fates
import RingList.Proofs.Invariant
import RingList.Proofs.Sequences
import RingList.Proofs.Separation
import RingList.Proofs.Attribution
import RingList.Proofs.Balance
import RingList.Proofs.Seats
import RingList.Proofs.Walks
import RingList.Proofs.Traversal
import RingList.Proofs.Parametricity
import RingList.Proofs.Duplication
import RingList.Proofs.Verdict
import RingList.Proofs.Iterators
import RingList.Proofs.DoubleEnded
import RingList.Proofs.Copies
import RingList.Proofs.Refusals
import RingList.Proofs.Clearing
import RingList.Proofs.Routes
import RingList.Proofs.Consulting
import RingList.Proofs.Pointwise
import RingList.Proofs.Identity
import RingList.Proofs.Encodings
import RingList.Proofs.Feeds
import RingList.Proofs.Turning
import RingList.Proofs.Merging
import RingList.Proofs.Undoing
import RingList.Proofs.SharedHooks
