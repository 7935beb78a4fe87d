import CapazOS.Fat.Overwrite16
import CapazOS.Cap.Generations
import CapazOS.Cap.Confinement
import CapazOS.Sched.ReadyQueues
import CapazOS.Sched.Exit
import CapazOS.Sched.Resume
import CapazOS.Ipc.Wakeup
import CapazOS.Kheap.Requests
import CapazOS.Kheap.Preemption
import CapazOS.Mm.MmuTables
import CapazOS.Fat.Session
import CapazOS.Slab.Invariant
import CapazOS.Cap.Transfer
import CapazOS.Ipc.Console
import CapazOS.Task.Memory
import CapazOS.Dev.VirtioBlk
import CapazOS.Task.Ceilings
import CapazOS.Loader.Overwrite
import CapazOS.Loader.Untrusted
import CapazOS.Loader.Gpt
import CapazOS.Fat.Resolvers
import CapazOS.Fat.Grants
import CapazOS.Cap.Removal
import CapazOS.Ipc.KernelLog
import CapazOS.Sched.DeadlineQueue
import CapazOS.Sched.WorkQueue
import CapazOS.Fat.Recovery
import CapazOS.Platform.BootHeap
