import Smalltable.Lib.Bytes
import Smalltable.Lib.Frames
import Smalltable.Lib.SearchTree
import Smalltable.Lib.Transition
import Smalltable.Ref.Constants
import Smalltable.Ref.Buffer
import Smalltable.Ref.Framing
import Smalltable.Ref.Common
import Smalltable.Ref.Storage
import Smalltable.Ref.World
import Smalltable.Ref.Process
import Smalltable.Ref.Lifecycle
import Smalltable.Ref.SysCommands
import Smalltable.Ref.Command
import Smalltable.Ref.Connection
import Smalltable.Ref.ProxyClient
import Smalltable.Ref.StServer
import Smalltable.Ref.ProxyConfig
import Smalltable.Ref.ProxySysCommand
import Smalltable.Ref.ProxyCommand
import Smalltable.Ref.Link
import Smalltable.Spec.Store
import Smalltable.Proofs.Framing
import Smalltable.Proofs.StoreRefine
import Smalltable.Proofs.CheckAndSet
import Smalltable.Proofs.Table
import Smalltable.Proofs.Grouping
import Smalltable.Proofs.Batch
import Smalltable.Proofs.Sentinel
import Smalltable.Proofs.ConnStream
import Smalltable.Proofs.Segmentation
import Smalltable.Proofs.IoMoves
import Smalltable.Proofs.BufferRange
import Smalltable.Proofs.Exchange
import Smalltable.Proofs.ProxyTrees
import Smalltable.Proofs.SetConfig
import Smalltable.Proofs.ProxyCollect
import Smalltable.Proofs.ProxyServe
import Smalltable.Proofs.ProxyBatch
import Smalltable.Proofs.Deadlock
import Smalltable.Proofs.ConfigRouting
import Smalltable.Proofs.Lifecycle
import Smalltable.Proofs.Registration
import Smalltable.Proofs.Responses
import Smalltable.Proofs.HostAddress
import Smalltable.Ref.Access
import Smalltable.Proofs.Access
import Smalltable.Proofs.Sandbox
import Smalltable.Ref.ProxyServer
import Smalltable.Proofs.StopStart
import Smalltable.Ref.SimpleClient
import Smalltable.Proofs.WireFormat
import Smalltable.Proofs.Routing
import Smalltable.Proofs.ErrorPath
import Smalltable.Proofs.CodeLoad
import Smalltable.Proofs.LiveTable
import Smalltable.Proofs.ResponseSize
import Smalltable.Lib.DirTree
import Smalltable.Ref.StoFs
import Smalltable.Proofs.Numbers
import Smalltable.Proofs.KeyNames
import Smalltable.Lib.Glob
import Smalltable.Proofs.FsStore
import Smalltable.Lib.Pages
import Smalltable.Ref.FsKeys
import Smalltable.Proofs.Tokens
import Smalltable.Proofs.KeyListing
import Smalltable.Proofs.ConfigText
import Smalltable.Ref.ManagerConfig
import Smalltable.Proofs.ManagerText
import Smalltable.Proofs.ManagerDump
import Smalltable.Proofs.ManagerPicture
import Smalltable.Ref.LibSt
import Smalltable.Proofs.BatchBound
import Smalltable.Proofs.BufferReach
import Smalltable.Proofs.ProxySpread
import Smalltable.Proofs.MetadataRoom
import Smalltable.Proofs.Walkers
import Smalltable.Proofs.ProxyAnswers
import Smalltable.Proofs.BuiltinAnswers
import Smalltable.Proofs.KeyResume
import Smalltable.Proofs.FsEntries
import Smalltable.Proofs.FailedSet
import Smalltable.Ref.ProxyTimer
import Smalltable.Proofs.Backoff
import Smalltable.Proofs.ConfigLines
import Smalltable.Proofs.SetConfigLines
import Smalltable.Ref.PluginIncr
import Smalltable.Spec.Counter
import Smalltable.Proofs.PluginIncr
import Smalltable.Proofs.Escaping
import Smalltable.Proofs.ConfigSize
import Smalltable.Ref.Prefetch
import Smalltable.Proofs.Prefetch
import Smalltable.Proofs.Uevent
import Smalltable.Ref.Uevent
import Smalltable.Lib.FreeList
import Smalltable.Ref.BufferPool
import Smalltable.Proofs.BufferPool
import Smalltable.Ref.SimpleBuffer
import Smalltable.Ref.NetworkConnecton
import Smalltable.Proofs.SimpleBuffer
import Smalltable.Proofs.NetworkConnecton
import Smalltable.Ref.ConfigMemory
import Smalltable.Proofs.ConfigMemory
import Smalltable.Proofs.ConfigBounds
import Smalltable.Lib.ShellWords
import Smalltable.Ref.CompileCommand
import Smalltable.Proofs.CompileCommand
import Smalltable.Proofs.ConfigChange
import Smalltable.Lib.Shards
import Smalltable.Proofs.ClusterLink
import Smalltable.Spec.Cluster
import Smalltable.Ref.Cluster
import Smalltable.Proofs.ClusterServe
import Smalltable.Proofs.Cluster
import Smalltable.Lib.RedBlack
import Smalltable.Ref.RbTree
import Smalltable.Proofs.RbShape
import Smalltable.Proofs.RbInsert
import Smalltable.Proofs.RbEraseColor
import Smalltable.Proofs.RbErase
import Smalltable.Proofs.RbOrder
import Smalltable.Ref.ConfigTrees
import Smalltable.Spec.KeyTable
import Smalltable.Proofs.ConfigTrees
import Smalltable.Proofs.ServerTrees
