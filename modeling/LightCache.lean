import LightCache.Lib.Linked
import LightCache.Lib.Trace
import LightCache.Lib.Recency
import LightCache.Lib.Cells
import LightCache.Time
import LightCache.Map.WakerNode
import LightCache.Map.RawTable
import LightCache.Map
import LightCache.Map.Refinement
import LightCache.Map.Counting
import LightCache.Policy
import LightCache.Policy.Clock
import LightCache.Policy.Noop
import LightCache.Policy.LinkedArena
import LightCache.Policy.ArenaLinks
import LightCache.Policy.ArenaRepr
import LightCache.Policy.ArenaModels
import LightCache.Policy.PriorityQueue
import LightCache.Policy.SortedQueue
import LightCache.Policy.Lru
import LightCache.Policy.ArenaRuns
import LightCache.Policy.LruOrder
import LightCache.Policy.LruCapacity
import LightCache.Policy.LruQueue
import LightCache.Policy.LruRecency
import LightCache.Policy.LruExpiry
import LightCache.Policy.Ttl
import LightCache.Policy.TtlOrder
import LightCache.Policy.TtlFresh
import LightCache.Policy.TtlBook
import LightCache.Policy.Tracking
import LightCache.Policy.LruFailure
import LightCache.Policy.Threads
import LightCache.Policy.Sections
import LightCache.Policy.SectionKeys
import LightCache.Policy.ThreadsCapacity
import LightCache.Policy.Reference
import LightCache.Policy.LruReference
import LightCache.Policy.TtlReference
import LightCache.Policy.Room
import LightCache.Cache.GetOrInsert
import LightCache.Cache.GetOrInsertRace
import LightCache.Cache.System
import LightCache.Cache.Steps
import LightCache.Cache.Agreement
import LightCache.Cache.LatestWaker
import LightCache.Cache.Wakeups
import LightCache.Cache.Unreachable
import LightCache.Cache.Workers
import LightCache.Cache.Handover
import LightCache.Cache.RaceWorkers
import LightCache.Cache.Overlap
import LightCache.Cache.Leaks
import LightCache.Cache.Progress
import LightCache.Cache.Keys
import LightCache.Cache.Whole
import LightCache.Cache.WholeKeys
import LightCache.Cache.WholePolicy
import LightCache.Cache.Given
import LightCache.Cache.Atomic
import LightCache.Refresh
import LightCache.Refresh.Sequential
import LightCache.Refresh.System
import LightCache.Refresh.Passes
import LightCache.Refresh.Waiting
import LightCache.Refresh.Progress
import LightCache.Refresh.Whole
