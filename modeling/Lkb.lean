import Lkb.Foundations.Run
import Lkb.Foundations.Fairness
import Lkb.Foundations.Refinement
import Lkb.Foundations.Loop
import Lkb.Foundations.SearchTree
import Lkb.Foundations.SearchPath
import Lkb.Foundations.PointerTree
import Lkb.Foundations.Ascent
import Lkb.Foundations.CircularList
import Lkb.Foundations.RcuList
import Lkb.RedBlackTree.Basic
import Lkb.RedBlackTree.Insert
import Lkb.RedBlackTree.History
import Lkb.RedBlackTree.Print
import Lkb.RedBlackTree.Cost
import Lkb.WorkQueueDedicated.Handler
import Lkb.WorkQueueDedicated.System
import Lkb.WorkQueueDedicated.Teardown
import Lkb.WorkQueueDedicated.StartUp
import Lkb.WorkQueueDedicated.Batch
import Lkb.WorkQueueDedicated.Printout
import Lkb.WorkQueueDedicated.Runs
import Lkb.WorkQueueDedicated.Ledger
import Lkb.WorkQueueDedicated.Account
import Lkb.WorkQueueDedicated.Preempt
import Lkb.WorkQueueDedicated.Service
import Lkb.Foundations.Paging
import Lkb.Mmap.Driver
import Lkb.Mmap.System
import Lkb.Mmap.Ownership
import Lkb.Mmap.SharedMemory
import Lkb.Foundations.CharDevice
import Lkb.Foundations.Uaccess
import Lkb.Ioctl.Driver
import Lkb.Ioctl.Width
import Lkb.CharDevices.Pinning
import Lkb.CharDevices.Major
import Lkb.Foundations.WaitEvent
import Lkb.WorkQueueGlobal.System
import Lkb.WorkQueueGlobal.Handover
import Lkb.WorkQueueGlobal.Unload
import Lkb.WorkQueueGlobal.Wakeup
import Lkb.WorkQueueGlobal.Schedule
import Lkb.Rcu.Start
import Lkb.Rcu.System
import Lkb.Rcu.Walk
import Lkb.Rcu.Reclaim
import Lkb.Rcu.Unload
import Lkb.Rcu.Output
import Lkb.Rcu.Locking
import Lkb.Rcu.Retire
import Lkb.Rcu.Completion
import Lkb.Thread01.System
import Lkb.Thread01.Stop
import Lkb.Thread01.Exit
import Lkb.Thread01.Output
import Lkb.Thread01.Schedule
import Lkb.WaitQueue.System
import Lkb.WaitQueue.Wait
import Lkb.WaitQueue.Output
import Lkb.WaitQueue.Schedule
import Lkb.LinkList.Start
import Lkb.LinkList.Output
import Lkb.Initialisers.Failure
import Lkb.TaskStruct.System
import Lkb.TaskStruct.Traversal
import Lkb.TaskStruct.Consistency
import Lkb.Foundations.Callback
import Lkb.Callbacks.Kprobe
import Lkb.Callbacks.Interrupt01
