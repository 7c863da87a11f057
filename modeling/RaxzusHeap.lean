import RaxzusHeap.HeapInv
import RaxzusHeap.BootPaging
import RaxzusHeap.FrameAllocator
import RaxzusHeap.Boot
import RaxzusHeap.Runs
import RaxzusHeap.SmallRuns
import RaxzusHeap.FreeList
import RaxzusHeap.Regions
import RaxzusHeap.Limits
import RaxzusHeap.LiveData
import RaxzusHeap.Coherence
import RaxzusHeap.Budget
import RaxzusHeap.LargeRuns
import RaxzusHeap.LargeFrames
import RaxzusHeap.LargeSpace
import RaxzusHeap.Lib.RoundRobin
import RaxzusHeap.Scheduler
import RaxzusHeap.Lib.Bytes
import RaxzusHeap.ContextSwitch
import RaxzusHeap.ContextRuns
import RaxzusHeap.FailedCalls
import RaxzusHeap.ClassHistory
import RaxzusHeap.Process
import RaxzusHeap.ProcessPages
import RaxzusHeap.CreateProcess
import RaxzusHeap.Creations
import RaxzusHeap.KernelRuns
import RaxzusHeap.ProcessRuns
import RaxzusHeap.SwitchMemory
import RaxzusHeap.KernelHalf
import RaxzusHeap.Console
import RaxzusHeap.CommandLine
import RaxzusHeap.UsedFrames
import RaxzusHeap.AddressSpaces
import RaxzusHeap.Pointers
import RaxzusHeap.Numbers
import RaxzusHeap.Shell
import RaxzusHeap.Disk
import RaxzusHeap.Tokens
import RaxzusHeap.Ledger
import RaxzusHeap.CommandHeap
import RaxzusHeap.Neutral
import RaxzusHeap.Window
import RaxzusHeap.Isqrt
import RaxzusHeap.Decimal
import RaxzusHeap.LineEditor
import RaxzusHeap.Page
import RaxzusHeap.Tokenizer
import RaxzusHeap.Drive
import RaxzusHeap.LargeSizes
import RaxzusHeap.KernelFrames
import RaxzusHeap.Isolation
import RaxzusHeap.BitmapAddress
import RaxzusHeap.Doubles
import RaxzusHeap.Lib.Format
import RaxzusHeap.Printer
import RaxzusHeap.Rights
import RaxzusHeap.Hexadecimal
import RaxzusHeap.Kprintf
import RaxzusHeap.PagingRuns
import RaxzusHeap.AllOrNothing
import RaxzusHeap.Fairness
import RaxzusHeap.Footprint
import RaxzusHeap.Lifo
import RaxzusHeap.Pic
import RaxzusHeap.Descriptors
import RaxzusHeap.Traps
import RaxzusHeap.Verdict
import RaxzusHeap.Commands
import RaxzusHeap.Progress
import RaxzusHeap.Typing
import RaxzusHeap.Sessions
