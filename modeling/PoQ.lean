import PoQ.Lib.Abort
import PoQ.Lib.CString
import PoQ.Lib.Fifo
import PoQ.Lib.InPlaceSort
import PoQ.Lib.LevelOrder
import PoQ.Lib.Locks
import PoQ.Lib.RoundRobin
import PoQ.Lib.Runs
import PoQ.Lib.RwLocks
import PoQ.Basic
import PoQ.MultiLocks
import PoQ.Quantum
import PoQ.Schedule
import PoQ.Leadership
import PoQ.Client.StartingTime
import PoQ.Client.Readdition
import PoQ.Socket.Receive
import PoQ.Base64
import PoQ.Json
import PoQ.JsonText
import PoQ.Base64Encode
import PoQ.Queue
import PoQ.FindValue
import PoQ.Server.Functions
import PoQ.Server.QueueOrder
import PoQ.Server.Connections
import PoQ.Server.Registration
import PoQ.Server.Notification
import PoQ.Server.Broadcast
import PoQ.Server.Session
import PoQ.Server.ThreadPool
import PoQ.Client.Mirror
import PoQ.Client.MainSocket
import PoQ.Client.Locks
import PoQ.Server.Admissible
import PoQ.Server.Refusal
import PoQ.Client.SgxTime
import PoQ.Server.TableOps
import PoQ.Server.Interleaving
import PoQ.Simulator.Arrange
import PoQ.Simulator.Steps
import PoQ.Simulator.Fairness
import PoQ.Simulator.Completion
import PoQ.Simulator.LeadershipCount
import PoQ.Simulator.WaitingTime
import PoQ.LockRollback
import PoQ.NodeRecord
import PoQ.Client.RejectedUpdate
import PoQ.Server.KeyCheck
import PoQ.Server.IntegerWidth
import PoQ.QuantumOverflow
import PoQ.Server.Tiers
import PoQ.Server.Dispatch
import PoQ.Socket.ReceiveErrors
import PoQ.Socket.Send
import PoQ.Lib.LinkedHeap
import PoQ.Queue.Cells
import PoQ.Queue.Contents
import PoQ.Queue.SelectiveRemove
import PoQ.Queue.Calls
import PoQ.Socket.Transport
import PoQ.Server.Threads
import PoQ.Client.Sentinel
import PoQ.Client.Exchange
import PoQ.Queue.Destructor
import PoQ.Socket.Descriptors
import PoQ.Client.MainLoop
import PoQ.Socket.Connect
import PoQ.Hex
import PoQ.Base64Canonical
import PoQ.Client.Blockchain
import PoQ.Server.Subscribers
import PoQ.Lib.Critical
import PoQ.Queue.Concurrent
import PoQ.Client.Round
