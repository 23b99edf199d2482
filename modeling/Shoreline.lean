import Shoreline.Version
import Shoreline.Session
import Shoreline.Handoff
import Shoreline.Link.Capture
import Shoreline.Trial
import Shoreline.Proofs.SlowBurst
import Shoreline.Proofs.Agreement
import Shoreline.Proofs.Convergence
import Shoreline.Proofs.Retry
import Shoreline.Proofs.BurstScan
import Shoreline.Proofs.BurstPieces
import Shoreline.Proofs.BurstStream
import Shoreline.Proofs.Reencoding
import Shoreline.Proofs.Identity
import Shoreline.Proofs.Lossless
import Shoreline.Proofs.AnyOrder
import Shoreline.Proofs.Apart
import Shoreline.Proofs.Pending
import Shoreline.Proofs.Confirmation
import Shoreline.Proofs.Courses
import Shoreline.Proofs.Finality
import Shoreline.Proofs.Consistency
import Shoreline.Proofs.Room
import Shoreline.Proofs.Requests
import Shoreline.Proofs.Jams
import Shoreline.Proofs.BurstForm
import Shoreline.Proofs.ControlForm
import Shoreline.Proofs.Chatter
import Shoreline.Proofs.LineCuts
import Shoreline.Proofs.Acquisition
import Shoreline.Proofs.Transmission
import Shoreline.Proofs.Partition
import Shoreline.Proofs.Framing
import Shoreline.Proofs.Attempts
import Shoreline.Proofs.Economy
import Shoreline.Proofs.Rounds
import Shoreline.Proofs.RoundLines
import Shoreline.Proofs.Damage
import Shoreline.Proofs.Decoding
import Shoreline.Proofs.HeaderForm
import Shoreline.Proofs.Discards
import Shoreline.Proofs.Recording
import Shoreline.Proofs.LinkFailure
import Shoreline.Proofs.Base85Form
import Shoreline.Proofs.Queues
import Shoreline.Proofs.Inverses
import Shoreline.Proofs.Rebuilding
import Shoreline.Proofs.InPlace
