import OxDex.Types.Comparison
import OxDex.Types.Encoding
import OxDex.Matching.Gap
import OxDex.Matching.Limits
import OxDex.Matching.Uniform
import OxDex.Matching.Progress
import OxDex.Matching.Independence
import OxDex.Matching.Reproducible
import OxDex.Matching.Surplus
import OxDex.Matching.Removal
import OxDex.Matching.Priority
import OxDex.Matching.LastFill
import OxDex.Matching.ExactOut
import OxDex.Matching.PanicFree
import OxDex.Matching.Queue
import OxDex.Matching.Leftover
import OxDex.Matching.Backing
import OxDex.Matching.Anonymous
import OxDex.Storage.Retries
import OxDex.IntentPool.Cancellation
import OxDex.Auctioneer.Winner
import OxDex.Auctioneer.Frame
import OxDex.Node.Expiry
import OxDex.Node.Finality
import OxDex.Node.AtMostOnce
import OxDex.Node.StoreInvariant
import OxDex.Node.Faults
import OxDex.Node.Durability
import OxDex.Node.Custody
import OxDex.Node.Lifecycle
import OxDex.Node.Liveness
import OxDex.Node.Process
import OxDex.Node.Backends
import OxDex.Node.Quiet
import OxDex.Node.Server
import OxDex.Node.Sharded
import OxDex.Storage.Statements
