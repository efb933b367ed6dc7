import AbOS.Lib.Run
import AbOS.Lib.ByteStore
import AbOS.Lib.Extent
import AbOS.Lib.Bits
import AbOS.Lib.Numeral
import AbOS.Memory.Pmm
import AbOS.Memory.FirstFit
import AbOS.Memory.FrameHistory
import AbOS.Memory.Boot
import AbOS.Memory.MemoryMap
import AbOS.Memory.Vmm
import AbOS.Memory.FullyMapped
import AbOS.Memory.MapAddress
import AbOS.Memory.Translation
import AbOS.Memory.PageFault
import AbOS.Memory.Initialize
import AbOS.Memory.KeptFrames
import AbOS.Memory.PageFrames
import AbOS.Memory.MapPage
import AbOS.Memory.LastMapping
import AbOS.Memory.MapFailure
import AbOS.Fs.Layout
import AbOS.Memory.Clients
import AbOS.Memory.Malloc
import AbOS.Memory.HeapContract
import AbOS.Memory.HeapLinks
import AbOS.Memory.HeapLists
import AbOS.Memory.Backed
import AbOS.Fs.Inode
import AbOS.Fs.Lookup
import AbOS.Fs.Path
import AbOS.Fs.CreateFile
import AbOS.Fs.Scan
import AbOS.Fs.CreateFails
import AbOS.Fs.Bitmaps
import AbOS.Fs.Directory
import AbOS.Fs.WellFormed
import AbOS.Fs.CreateResolve
import AbOS.Fs.DirectoryRuns
import AbOS.Format.Host
import AbOS.Format.Blocks
import AbOS.Format.FreeBits
import AbOS.Format.BootBlock
import AbOS.Format.Numbers
import AbOS.Format.Regions
import AbOS.Fs.Placement
import AbOS.Fs.Listing
import AbOS.Fs.Caches
import AbOS.Syscalls.VirtualMemory
import AbOS.Syscalls.FilePages
import AbOS.Syscalls.State
import AbOS.Syscalls.SaveLoad
import AbOS.Syscalls.Write
import AbOS.Syscalls.Open
import AbOS.Syscalls.RefCounts
import AbOS.Syscalls.Exhaustion
import AbOS.Syscalls.OwnPages
import AbOS.Syscalls.Isolation
import AbOS.Syscalls.Identity
import AbOS.Syscalls.NoFrame
import AbOS.Syscalls.Close
import AbOS.Syscalls.Programs
import AbOS.Syscalls.Pointers
import AbOS.Syscalls.Read
import AbOS.Syscalls.Lengths
import AbOS.Syscalls.Tables
import AbOS.Syscalls.Modes
import AbOS.Syscalls.Contents
import AbOS.Lib.Cache
import AbOS.Syscalls.Tlb
import AbOS.Syscalls.LowPages
import AbOS.Syscalls.DataFrames
import AbOS.Terminal.Keyboard
import AbOS.Terminal.Readline
import AbOS.Terminal.Printf
import AbOS.Terminal.Kprintf
import AbOS.Terminal.Division
import AbOS.Terminal.Console
import AbOS.Terminal.Screen
import AbOS.Terminal.LineEditor
import AbOS.Terminal.InputBuffer
import AbOS.Format.Image
import AbOS.Format.Readable
import AbOS.Format.Capacity
import AbOS.Format.RoundTrip
import AbOS.Boot.Loader
import AbOS.Boot.ReadBack
import AbOS.Boot.FirstFiles
import AbOS.Boot.NewFiles
import AbOS.Boot.E820
import AbOS.Lib.Ports
import AbOS.Drivers.Ata
import AbOS.Interrupts.Pic
import AbOS.Interrupts.Delivery
import AbOS.Interrupts.Start
