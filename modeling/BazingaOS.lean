import BazingaOS.Lib.Prog
import BazingaOS.Lib.Linked
import BazingaOS.Lib.Run
import BazingaOS.Lib.Rendezvous
import BazingaOS.Lib.Ledger
import BazingaOS.Lib.Walk
import BazingaOS.Lib.Bytes
import BazingaOS.Lib.Bitmap
import BazingaOS.Lib.Loop
import BazingaOS.Lib.Slots
import BazingaOS.Lib.FirstMax
import BazingaOS.Lib.FirstFree
import BazingaOS.Kernel.Proc
import BazingaOS.Kernel.Ipc
import BazingaOS.Kernel.IpcRefine
import BazingaOS.Kernel.IpcReceive
import BazingaOS.Kernel.Effect
import BazingaOS.Kernel.IpcSystem
import BazingaOS.Kernel.Delivery
import BazingaOS.Kernel.Deadlock
import BazingaOS.Kernel.Asserts
import BazingaOS.Kernel.Interrupt
import BazingaOS.Kernel.Chains
import BazingaOS.Kernel.Console
import BazingaOS.Kernel.Display
import BazingaOS.Kernel.TtyInput
import BazingaOS.Kernel.LineEdit
import BazingaOS.MM.ForkExit
import BazingaOS.MM.IpcFrame
import BazingaOS.MM.Family
import BazingaOS.MM.LifeCycle
import BazingaOS.MM.WaitChild
import BazingaOS.MM.Handshake
import BazingaOS.MM.ProcName
import BazingaOS.MM.Queues
import BazingaOS.Servers.FsTty
import BazingaOS.Servers.FsTtyInv
import BazingaOS.Servers.FsTtySafe
import BazingaOS.FS.Disk
import BazingaOS.FS.Sector
import BazingaOS.FS.Mkfs
import BazingaOS.FS.Format
import BazingaOS.FS.Layout
import BazingaOS.FS.Inode
import BazingaOS.FS.Open
import BazingaOS.FS.ReadWrite
import BazingaOS.FS.Refs
import BazingaOS.FS.Cache
import BazingaOS.FS.Sender
import BazingaOS.Kernel.Hd
import BazingaOS.MM.Exec
import BazingaOS.Servers.Loops
import BazingaOS.FS.RwSector
import BazingaOS.FS.Directory
import BazingaOS.FS.NewEntry
import BazingaOS.FS.Names
import BazingaOS.FS.Unlink
import BazingaOS.FS.Refusals
import BazingaOS.Kernel.Schedule
import BazingaOS.FS.Geometry
import BazingaOS.FS.Alloc
import BazingaOS.FS.Release
import BazingaOS.FS.Reached
import BazingaOS.FS.DataArea
import BazingaOS.FS.OpenFails
import BazingaOS.FS.Kept
import BazingaOS.FS.Sound
import BazingaOS.FS.Healthy
import BazingaOS.FS.Owners
import BazingaOS.Lib.RefCount
import BazingaOS.FS.Steady
import BazingaOS.FS.SteadyOpen
import BazingaOS.FS.SteadyRemove
import BazingaOS.FS.Shared
import BazingaOS.FS.SharedCalls
import BazingaOS.FS.References
import BazingaOS.FS.Sessions
import BazingaOS.Kernel.Keyboard
import BazingaOS.Kernel.InputRings
import BazingaOS.Kernel.ScanCodes
import BazingaOS.Kernel.Window
import BazingaOS.Kernel.Partition
import BazingaOS.FS.SectorCount
import BazingaOS.MM.Args
import BazingaOS.MM.Confined
import BazingaOS.FS.FileIo
import BazingaOS.FS.FlatFile
import BazingaOS.Kernel.UntarEnds
import BazingaOS.Boot.LoadKernel
import BazingaOS.Boot.InitKernel
import BazingaOS.Boot.SetupPaging
import BazingaOS.Kernel.Printx
import BazingaOS.Kernel.Expansion
import BazingaOS.Kernel.Itoa
import BazingaOS.MM.Descriptors
import BazingaOS.Kernel.KernelMap
import BazingaOS.Kernel.ShabbyShell
import BazingaOS.Kernel.SysCall
import BazingaOS.Kernel.Nesting
import BazingaOS.Kernel.Clock
import BazingaOS.Kernel.Start
import BazingaOS.Kernel.Waiting
import BazingaOS.Boot.RootDirectory
import BazingaOS.Boot.Startup
import BazingaOS.Servers.MmReplies
