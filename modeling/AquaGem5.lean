import AquaGem5.Quarantine.Landing
import AquaGem5.Quarantine.CacheCoherence
import AquaGem5.Ports.PacketQueue
import AquaGem5.Ports.Layer
import AquaGem5.Ports.Bridge
import AquaGem5.Address.Cache
import AquaGem5.Ruby.MessageBuffer
import AquaGem5.Events.Schedule
import AquaGem5.Ports.Bookkeeping
import AquaGem5.O3.Squash
import AquaGem5.Ruby.MSI.Coherence
import AquaGem5.Cache.FalruHits
import AquaGem5.Cache.MshrOrder
import AquaGem5.Cache.MshrQueue
import AquaGem5.Cache.LoadLocks
import AquaGem5.Memory.LoadLinked
import AquaGem5.Base.CircleBuf
import AquaGem5.Sim.Regions
import AquaGem5.Base.TrieMap
import AquaGem5.Branch.TageUnit
import AquaGem5.Memory.CheckerRuns
import AquaGem5.Sim.FutexMap
import AquaGem5.Ruby.Network.Routing
import AquaGem5.Quarantine.Draining
import AquaGem5.Mitigation.Rate
import AquaGem5.Ruby.MIExample.Coherence
import AquaGem5.Quarantine.VictimSelection
import AquaGem5.Quarantine.BloomFilter
import AquaGem5.Quarantine.Decoding
import AquaGem5.Quarantine.Accounting
import AquaGem5.Swap.Placement
import AquaGem5.Mitigation.Isolation
import AquaGem5.Quarantine.Geometry
import AquaGem5.Address.Offset
import AquaGem5.Dram.Frfcfs
import AquaGem5.Dram.Refresh
import AquaGem5.Controller.Capacity
import AquaGem5.Compressors.DictionaryReads
import AquaGem5.Cache.Brrip
import AquaGem5.Cache.TreePlru
import AquaGem5.Cache.Regenerate
import AquaGem5.Base.ChunkGenerator
import AquaGem5.Base.CircularDistance
import AquaGem5.Compressors.Selection
import AquaGem5.StackDist.SelfCheck
import AquaGem5.Cache.PrefetchQueue
import AquaGem5.Sim.Clocked
import AquaGem5.Ruby.CacheMemory
import AquaGem5.Memory.QueuedData
import AquaGem5.Controller.LrgPolicy
import AquaGem5.O3.StoreSet
import AquaGem5.O3.RobSquash
import AquaGem5.Ruby.DmaSequencer
import AquaGem5.Ruby.Network.NetworkBridge
import AquaGem5.Controller.Responses
import AquaGem5.Controller.BusOrder
