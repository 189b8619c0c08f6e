import Wiring.Inspection
import Wiring.Session.Basic
import Wiring.Cache.Threads
import Wiring.Proofs.Module.Precedence
import Wiring.Proofs.Module.Reorder
import Wiring.Proofs.Resolution.Once
import Wiring.Proofs.Resolution.Success
import Wiring.Proofs.Cache.Threads
import Wiring.Proofs.Resolution.Moment
import Wiring.Proofs.Resolution.Bound
import Wiring.Proofs.Resolution.Restored
import Wiring.Proofs.Resolution.Reports
import Wiring.Proofs.Resolution.Termination
import Wiring.Proofs.Resolution.Validated
import Wiring.Proofs.Resolution.Typing
import Wiring.Proofs.Resolution.Values
import Wiring.Proofs.Registry.Rivalry
import Wiring.Proofs.Registry.Replay
import Wiring.Proofs.Resolution.Finality
import Wiring.Proofs.Resolution.Monotone
import Wiring.Proofs.Module.StableOrder
import Wiring.Proofs.Module.Cycles
import Wiring.Proofs.Registry.Ranking
import Wiring.Proofs.Registry.Survivors
import Wiring.Proofs.Resolution.Composition
import Wiring.Proofs.Resolution.Maps
import Wiring.Proofs.Cache.Wakeups
import Wiring.Proofs.Resolution.Conduct
import Wiring.Proofs.Resolution.Hereafter
import Wiring.Proofs.Resolution.Making
import Wiring.Proofs.Resolution.Requests
import Wiring.Proofs.Resolution.Assembly
import Wiring.Proofs.Resolution.Identity
import Wiring.Proofs.Name
import Wiring.Proofs.Registry.Search
import Wiring.Proofs.Resolution.Isolation
import Wiring.Proofs.Display.Usage
