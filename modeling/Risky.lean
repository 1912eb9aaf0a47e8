import Risky.BuddySystem
import Risky.Pmm
import Risky.PmmLists
import Risky.PmmRefines
import Risky.PmmCalls
import Risky.PmmInit
import Risky.PmmRuns
import Risky.RiscvMmu
import Risky.Paging
import Risky.PagingPte
import Risky.PmmFrames
import Risky.PagingSteps
import Risky.PagingMap
import Risky.PagingRange
import Risky.PagingRuns
import Risky.FullTree
import Risky.PagingBounds
import Risky.PagingPool
import Risky.Outcome
import Risky.CString
import Risky.Fdt
import Risky.FdtReads
import Risky.FdtWalk
import Risky.FdtSafety
import Risky.Printk
import Risky.Rv64
import Risky.Trap
import Risky.Kmain
import Risky.PagingRefusal
import Risky.PfndbInit
import Risky.PagingInit
import Risky.PagingKernel
import Risky.PagingLive
import Risky.CPrintf
import Risky.PrintkDigits
import Risky.PrintkEmit
import Risky.PrintkPrintf
import Risky.DeviceTree
import Risky.FdtEncoding
import Risky.FdtRoundTrip
import Risky.PrintkFormat
import Risky.PrintkLog
import Risky.PrintkStamp
import Risky.FdtReg
import Risky.FdtCompatible
import Risky.FdtStrings
import Risky.FdtWalkPaths
import Risky.MoveSequence
import Risky.Memmove
import Risky.PfndbStorage
import Risky.PagingRemap
import Risky.Uart
import Risky.UartWindow
import Risky.PmmExhaustion
import Risky.KernelMemory
import Risky.Ns16550
import Risky.UartDevice
import Risky.Console
import Risky.UartTree
import Risky.TrapRuns
import Risky.PanicReport
import Risky.WalkCache
import Risky.PagingTlb
import Risky.PmmBounds
import Risky.FdtSearch
import Risky.FdtTokens
import Risky.FdtContained
import Risky.FrameAccounts
import Risky.Memcpy
import Risky.StringOrder
