import OpenOOC.SpTree.Runs
import OpenOOC.Malloc.Runs
import OpenOOC.Vma.Deadlock
import OpenOOC.Vma.Interleavings
import OpenOOC.Vma.Serial
import OpenOOC.SpTree.Coalesced
import OpenOOC.SpTree.InsertBelow
import OpenOOC.SpTree.StaleRoot
import OpenOOC.SpTree.ThreeWay
import OpenOOC.SpTree.LastPage
import OpenOOC.SpTree.ReturnedRoot
import OpenOOC.Sched.Locks
import OpenOOC.Sched.Faults
import OpenOOC.Sched.Answers
import OpenOOC.SpTree.SplayCall
import OpenOOC.SpTree.Holders
import OpenOOC.Sched.Kernels
import OpenOOC.SpTree.Rounds
import OpenOOC.SpTree.FreeLoop
import OpenOOC.Vma.SetupList
import OpenOOC.Apps.MmThreads
import OpenOOC.Malloc.Sizes
import OpenOOC.Sched.Signals
import OpenOOC.Origins
