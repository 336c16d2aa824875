import OsLabs.Libco.Machine
import OsLabs.Libco.Invariant
import OsLabs.Libco.Preservation
import OsLabs.Libco.Enter
import OsLabs.History
import OsLabs.Libco.Wait
import OsLabs.Libco.Context
import OsLabs.Monitor
import OsLabs.MultiThreads.Fish
import OsLabs.Brackets
import OsLabs.Chain
import OsLabs.MultiThreads.Brac
import OsLabs.MultiThreads.Spinlock
import OsLabs.ExchangeSort
import OsLabs.Sperf.FuncTime
import OsLabs.Sperf.Reader
import OsLabs.Libco.CoList
import OsLabs.Libco.RawMove
import OsLabs.Libco.Restore
import OsLabs.Libco.Running
import OsLabs.Libco.Candidates
import OsLabs.MultiThreads.ProducerConsumer
import OsLabs.Merges
import OsLabs.MultiThreads.ModelChecker
import OsLabs.MultiThreads.ThreadOs
import OsLabs.Loop
import OsLabs.Tree.Node
import OsLabs.Tree.Linking
import OsLabs.Tree.Printing
import OsLabs.Libco.Pool
import OsLabs.Libco.Starved
import OsLabs.Libco.RandPool
import OsLabs.Libco.Slots
import OsLabs.Libco.Callback
import OsLabs.Libco.RetAddr
import OsLabs.CString
import OsLabs.MultiThreads.BracBuffers
import OsLabs.MultiThreads.Threads
import OsLabs.Sperf.Rounds
import OsLabs.Sperf.Records
import OsLabs.Sperf.Inserted
import OsLabs.Sperf.Chunks
import OsLabs.Sperf.LongRecords
import OsLabs.MultiThreads.Lock
import OsLabs.MultiThreads.TrivialOs
import OsLabs.MultiThreads.RoundRobin
import OsLabs.MultiThreads.Kalloc
import OsLabs.MultiThreads.KallocRace
import OsLabs.Percentage
import OsLabs.Sperf.Report
import OsLabs.Sperf.Calls
import OsLabs.Tree.Chains
import OsLabs.Tree.Depth
import OsLabs.Tree.Cycles
import OsLabs.Libco.OwnStack
import OsLabs.Libco.PoolCalls
import OsLabs.LostUpdates
import OsLabs.MultiThreads.ModelRuns
import OsLabs.Fuel
import OsLabs.MultiThreads.SpinlockXv6
import OsLabs.MultiThreads.Xv6Held
import OsLabs.Outline
import OsLabs.Pstree.Dropping
import OsLabs.Pstree.Printing
import OsLabs.Pstree.Reading
import OsLabs.Pstree.Users
import OsLabs.Effects
import OsLabs.Xv6.Bounds
import OsLabs.Xv6.Resources
import OsLabs.Xv6.UserStack
import OsLabs.MultiThreads.Sum
import OsLabs.MultiThreads.TrivialSyscalls
