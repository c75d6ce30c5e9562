import GameServer.Lib.CInt
import GameServer.Lib.Region
import GameServer.Lib.ListUpdate
import GameServer.Lib.Run
import GameServer.Lib.Simulation
import GameServer.Lib.IndexChain
import GameServer.Lib.Ledger
import GameServer.Lib.Chunks
import GameServer.Lib.Ring
import GameServer.Lib.WriteOnce
import GameServer.Lib.InPlace
import GameServer.Lib.Numeral
import GameServer.Lib.Printf
import GameServer.Lib.Separated
import GameServer.Lib.Slice
import GameServer.Lib.BottomUp
import GameServer.Lib.DoublyLinked
import GameServer.Lib.LuaState
import GameServer.Lib.LuaString
import GameServer.Libevent.Appending
import GameServer.Libevent.Reading
import GameServer.Libevent.Bufferevent
import GameServer.MemPool.Pointers
import GameServer.MemPool.Conservation
import GameServer.MemPool.Exact
import GameServer.MemPool.Failure
import GameServer.MemPool.Accounting
import GameServer.MemPool.Destroy
import GameServer.MemPool.Search
import GameServer.MemPool.Clearing
import GameServer.MemPool.Sizes
import GameServer.MemPool.Table
import GameServer.RawPool.Handout
import GameServer.RawPool.Accounts
import GameServer.RawPool.Failure
import GameServer.RawPool.Clearing
import GameServer.Gated.Basic
import GameServer.Gated.Callbacks
import GameServer.Gated.Clients
import GameServer.Gated.Owner
import GameServer.Gated.Auth
import GameServer.Gated.Asserts
import GameServer.Gated.Stream
import GameServer.Gated.Echo
import GameServer.Gated.Gate
import GameServer.Gated.Delivery
import GameServer.Gamed.Receive
import GameServer.Gamed.Login
import GameServer.ThreadPool.Queue
import GameServer.ThreadPool.Startup
import GameServer.ThreadPool.Sched
import GameServer.ThreadPool.Fifo
import GameServer.ThreadPool.Wakeups
import GameServer.ThreadPool.Order
import GameServer.ThreadPool.Lock
import GameServer.Config.Basic
import GameServer.Config.Load
import GameServer.Vm.Call
import GameServer.LuaPattern.Basic
import GameServer.LuaPattern.Items
import GameServer.LuaPattern.Interp
import GameServer.LuaPattern.Find
import GameServer.LuaPattern.Gmatch
import GameServer.LuaPattern.Gsub
import GameServer.LoadConfig.Split
import GameServer.LoadConfig.StringSplit
import GameServer.LoadConfig.Expand
import GameServer.Log.Syslog
import GameServer.Utils.Itoa
import GameServer.Utils.Atoi
import GameServer.Uthash.Add
import GameServer.Uthash.Delete
import GameServer.Uthash.Find
import GameServer.Uthash.Sort
import GameServer.Uthash.Program
