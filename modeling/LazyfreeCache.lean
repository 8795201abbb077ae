import LazyfreeCache.ServedBytes
import LazyfreeCache.Resurrection
import LazyfreeCache.ReadYourWrite
import LazyfreeCache.Reclaim
import LazyfreeCache.ReadUnlock
import LazyfreeCache.StaleLocks
import LazyfreeCache.Slots
import LazyfreeCache.EntryLoss
import LazyfreeCache.LeftBehind
import LazyfreeCache.HmapRuns
import LazyfreeCache.HitLaw
import LazyfreeCache.SessionRuns
import LazyfreeCache.Bracketed
import LazyfreeCache.UnmarkedPages
import LazyfreeCache.RandomSeeds
import LazyfreeCache.HashCollisions
import LazyfreeCache.TestlibOps
import LazyfreeCache.Implementations
import LazyfreeCache.EvictionPace
import LazyfreeCache.PageSupply
import LazyfreeCache.UpgradeSafety
import LazyfreeCache.ReadWindow
import LazyfreeCache.Freshness
import LazyfreeCache.SlotLeaks
import LazyfreeCache.TailBits
import LazyfreeCache.Capacity
import LazyfreeCache.TestSuites
