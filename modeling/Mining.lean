import Mining.Blake3.Compress
import Mining.Blake3.ChunkState
import Mining.Blake3.ChunkAbsorb
import Mining.Blake3.Hasher
import Mining.Blake3.HasherAbsorb
import Mining.Blake3.Reachable
import Mining.Blake3.Stack
import Mining.Blake3.Reference
import Mining.Blake3.Tree
import Mining.Blake3.Output
import Mining.Blake3.ChunkTree
import Mining.Blake3DCR
import Mining.ETChash.LightCache
import Mining.ETChash.Epoch
import Mining.ETChash.Cache
import Mining.Backend.OclEtchashRunner
import Mining.Backend.Generators
import Mining.MemoryPool
import Mining.Counters
import Mining.Api.Httpd
import Mining.Net.TcpServer
import Mining.Proxy.BindHost
import Mining.Proxy.Controller
