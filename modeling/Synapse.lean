import Synapse.AppService.Order
import Synapse.AppService.Queuer
import Synapse.Async.Linearizer
import Synapse.Async.ReadWriteLock
import Synapse.AuthChain.Accounted
import Synapse.Cache.Callbacks
import Synapse.Cache.Dictionary
import Synapse.Cache.ExtraIndex
import Synapse.Cache.TreeCache
import Synapse.ChildEvents
import Synapse.EventAuth.Bans
import Synapse.EventAuth.PowerChain
import Synapse.Extremities.Backward
import Synapse.Extremities.History
import Synapse.Federation.Monotone
import Synapse.Iterutils
import Synapse.Locks.Store
import Synapse.Persist.Queue
import Synapse.Phone.Accounts
import Synapse.Phone.Search
import Synapse.PushActions.Counts
import Synapse.Ratelimit.Limiter
import Synapse.Receipts.Linearized
import Synapse.Replication.Updates
import Synapse.SlidingSync.Complete
import Synapse.SlidingSync.RoomConfig
import Synapse.State.CacheEntry
import Synapse.State.Crash
import Synapse.State.Difference
import Synapse.State.Isolation
import Synapse.StateRes.V1.Resolve
import Synapse.Stream.ByStream
import Synapse.Stream.TokenText
import Synapse.Stream.Topological
import Synapse.Tasks.Scheduler
