import Kintane.Bcache.CacheRuns
import Kintane.Device.Handlers
import Kintane.Device.ResourceRuns
import Kintane.Device.Tree
import Kintane.Ipc.Confine
import Kintane.Ipc.SetRuns
import Kintane.Kalloc.BuddyServes
import Kintane.Kalloc.BuddySound
import Kintane.Kalloc.HeapRuns
import Kintane.Kobject.StoreLimit
import Kintane.Mm.FlatCapacity
import Kintane.Mm.PhysMap
import Kintane.Mm.TlbProof
import Kintane.Module.LoadImports
import Kintane.Net.Accept
import Kintane.Net.Alive
import Kintane.Net.Datagrams
import Kintane.Net.Karn
import Kintane.Net.Owes
import Kintane.Net.Silence
import Kintane.Net.Window
import Kintane.Net.WireTrips
import Kintane.Objects.Timers
import Kintane.Personality.PipesRuns
import Kintane.Sync.LockdepRuns
import Kintane.Thread.Ids
import Kintane.Thread.Scheduling
import Kintane.Time.Clock
import Kintane.Vtd.PageTableWrites
import Kintane.Wait.Conditions
import Kintane.Wait.Readiness
