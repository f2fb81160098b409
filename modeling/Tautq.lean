import Tautq.Lib.Run
import Tautq.Lib.Path
import Tautq.Lib.History
import Tautq.Lib.Assoc
import Tautq.Core.Cluster
import Tautq.Theory.Reach
import Tautq.Theory.Birth
import Tautq.Theory.Seq
import Tautq.Theory.Tokens
import Tautq.Theory.Leases
import Tautq.Theory.Tended
import Tautq.Theory.Versions
import Tautq.Safety.Completion
import Tautq.Safety.AckMajority
import Tautq.Safety.SubmitMajority
import Tautq.Safety.Epochs
import Tautq.Safety.Inherit
import Tautq.Safety.Tokens
import Tautq.Safety.Keys
import Tautq.Safety.Fixed
import Tautq.Safety.Exclusion
import Tautq.Safety.Wrap
import Tautq.Safety.Fencing
import Tautq.Safety.Stranded
import Tautq.Safety.Monotone
import Tautq.Safety.Takeover
import Tautq.Safety.Repair
import Tautq.Safety.Merging
import Tautq.Safety.Dominance
import Tautq.Theory.Codec
import Tautq.Safety.Durable
import Tautq.Safety.Atomic
import Tautq.Theory.Refine
import Tautq.Safety.Verdict
import Tautq.Safety.Placement
import Tautq.Safety.Lone
import Tautq.Safety.Pinned
import Tautq.Safety.Drained
import Tautq.Safety.Budget
import Tautq.Safety.Forward
import Tautq.Safety.Arrival
import Tautq.Safety.Reply
import Tautq.Safety.Params
import Tautq.Safety.Callbacks
import Tautq.Safety.Pairing
import Tautq.Safety.Matching
import Tautq.Safety.Resyncs
import Tautq.Safety.Reported
import Tautq.Safety.Stored
