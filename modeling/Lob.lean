import Lob.Resting.Aggregate
import Lob.Resting.Disclosure
import Lob.Resting.Priority
import Lob.Engine.Completeness
import Lob.Engine.Exactness
import Lob.Engine.Fairness
import Lob.Engine.Activation
import Lob.Engine.Slots
import Lob.Engine.Ledger
import Lob.Engine.Isolation
import Lob.Concurrent.SpscRing
import Lob.Concurrent.Pipeline
import Lob.Concurrent.Shards
import Lob.Resting.Identity
import Lob.Resting.Positive
import Lob.Mirror.Runs
import Lob.MarketData.Shutdown
import Lob.Resting.Execution
import Lob.Resting.Amendment
import Lob.Resting.Resplit
import Lob.Resting.Apportionment
import Lob.Resting.FillPaths
import Lob.Resting.Splitting
import Lob.Resting.Cancellation
import Lob.Resting.Recovery
import Lob.Engine.Termination
import Lob.Concurrent.Retries
import Lob.Resting.Increase
import Lob.MarketData.Acceptance
import Lob.Flow.Completion
import Lob.Flow.Coverage
import Lob.Flow.Reports
import Lob.Concurrent.RingWords
import Lob.Concurrent.SeqlockWords
import Lob.Concurrent.LockFreedom
import Lob.Concurrent.Drain
import Lob.Concurrent.Locking
import Lob.MarketData.Feed
import Lob.MarketData.Broadcast
import Lob.Demo.Pages
