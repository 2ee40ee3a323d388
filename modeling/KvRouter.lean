import KvRouter.Lib.Chunks
import KvRouter.Lib.GoMap
import KvRouter.Lib.Latch
import KvRouter.Lib.Prefix
import KvRouter.Lib.Prog
import KvRouter.Lib.Interleave
import KvRouter.Lib.Private
import KvRouter.Lib.Silent
import KvRouter.Lib.Progress
import KvRouter.Lib.Recency
import KvRouter.Lib.Ring
import KvRouter.Lib.Sorting
import KvRouter.Go
import KvRouter.CacheIndex
import KvRouter.CacheIndex.Evict
import KvRouter.CacheIndex.Keys
import KvRouter.CacheIndex.History
import KvRouter.CacheIndex.Lru
import KvRouter.CacheIndex.Lookup
import KvRouter.CacheIndex.Closure
import KvRouter.Tokenizer
import KvRouter.Affinity
import KvRouter.Scorer
import KvRouter.Backend
import KvRouter.Proxy
import KvRouter.Relay
import KvRouter.Telemetry
import KvRouter.World
import KvRouter.Handler
import KvRouter.Handler.Contract
import KvRouter.Handler.Solo
import KvRouter.Health
import KvRouter.System
import KvRouter.Reservation
import KvRouter.Admission
import KvRouter.Learning
import KvRouter.Telemetry.Ring
import KvRouter.Telemetry.Calls
import KvRouter.Telemetry.Consistency
import KvRouter.Telemetry.Order
import KvRouter.Eligibility
import KvRouter.Outcome
import KvRouter.Eviction
import KvRouter.Eviction.Capacity
import KvRouter.Eviction.Access
import KvRouter.Eviction.Predict
import KvRouter.Eviction.Confidence
import KvRouter.Ranking
import KvRouter.Routing
import KvRouter.Boot
import KvRouter.Directory
import KvRouter.Fingerprint
import KvRouter.Matching
import KvRouter.Normalised
import KvRouter.Privacy
import KvRouter.Refusal
import KvRouter.RadixTree
import KvRouter.RadixTree.Node
import KvRouter.RadixTree.Walk
import KvRouter.RadixTree.FlatMap
import KvRouter.RadixTree.Evict
import KvRouter.RadixTree.Lookup
import KvRouter.RadixTree.Refinement
import KvRouter.RadixTree.Deletions
import KvRouter.RadixTree.Counters
import KvRouter.Tokenizer.Arithmetic
import KvRouter.Headers
import KvRouter.Lib.Context
import KvRouter.Lib.Channel
import KvRouter.Exchange
import KvRouter.Shutdown
import KvRouter.Health.Checks
import KvRouter.Health.Concurrent
import KvRouter.Lifecycle
import KvRouter.Lifecycle.ExitCode
import KvRouter.Lifecycle.Progress
import KvRouter.Handler.Phases
import KvRouter.Refusal.Traceless
import KvRouter.Liveness
import KvRouter.Boot.Accepted
import KvRouter.Operations
import KvRouter.Operations.Observed
import KvRouter.Operations.Slots
import KvRouter.Operations.Overview
import KvRouter.Telemetry.Ledger
import KvRouter.Lib.Atomic
import KvRouter.Reservation.Atomic
import KvRouter.Lib.MultiMap
import KvRouter.Lib.Percent
import KvRouter.Target
import KvRouter.Operations.Scrape
import KvRouter.CacheIndex.Interference
import KvRouter.RadixTree.Isolation
import KvRouter.Conversation
