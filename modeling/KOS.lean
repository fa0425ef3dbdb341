import KOS.IdeRead
import KOS.ListHistory
import KOS.IdeWrite
import KOS.FsFresh
import KOS.FsMount
import KOS.Boot
import KOS.Wakeup
import KOS.LockModels
import KOS.ExitRun
import KOS.Mutex
import KOS.Semaphore
import KOS.DiskIrq
import KOS.Tlb
import KOS.PcbPages
import KOS.PageWalk
import KOS.SetupPage
import KOS.PartitionScan
import KOS.KernelElf
import KOS.MemLocks
import KOS.PageLive
import KOS.PageRange
import KOS.HeapSlab
import KOS.HeapHeader
import KOS.IdePermits
import KOS.SwitchTo
import KOS.IntrNesting
import KOS.IntrFlag
import KOS.RoundRobin
import KOS.PoolLayout
import KOS.FormatReads
import KOS.BitmapWords
import KOS.FsBuffer
import KOS.RootBlock
import KOS.InodeRanges
import KOS.MountLeak
import KOS.IdeAddress
import KOS.StringSearch
import KOS.Timer
import KOS.Print
import KOS.PrintInt
import KOS.MemorySize
import KOS.StringCopy
import KOS.StringCompare
import KOS.Screen
import KOS.Printk
import KOS.BitFields
import KOS.Gdt
import KOS.Idt
import KOS.Pic
import KOS.Interrupts
import KOS.BootRead
import KOS.KernelBoot
import KOS.DiskHistory
import KOS.FsInit
import KOS.IdeInit
import KOS.Startup
