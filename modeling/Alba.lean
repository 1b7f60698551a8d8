import Alba.Transfer.DownloadChunk
import Alba.Transfer.SliceRequests
import Alba.Nsm.Versions
import Alba.Nsm.Serial
import Alba.Nsm.Fencing
import Alba.Gc.Orphans
import Alba.Albamgr.Hosts
import Alba.Albamgr.Purge
import Alba.Albamgr.Presets
import Alba.Asd.Accounting
import Alba.NsmHost.Deletion
import Alba.NsmHost.Hosted
import Alba.Recovery.Gather
import Alba.Recovery.Faithful
import Alba.Rora.PartialDecrypt
import Alba.Rora.Bounds
import Alba.Albamgr.Delivery
import Alba.Albamgr.Progress
import Alba.FragmentCache.Dropping
import Alba.Asd.Advancer
import Alba.Rora.LruCache
import Alba.Placement.Rebalancing
import Alba.Tools.Pool
import Alba.Asd.IoScheduler
import Alba.Client.MessageDelivery
import Alba.Asd.Usage
import Alba.Tools.CacheBooks
import Alba.Client.ManifestCache
import Alba.Asd.Startup
import Alba.Asd.Slices
import Alba.NsmHost.Pages
import Alba.Rora.FragmentKey
import Alba.Wire.Capabilities
import Alba.Tools.MemKeyValueStore
import Alba.Tools.Zipper
