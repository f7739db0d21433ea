import OctoOS.Lib.Prog
import OctoOS.Lib.Interleave
import OctoOS.Lib.Safe
import OctoOS.Lib.Defined
import OctoOS.Lib.Memory
import OctoOS.Lib.Bitmap
import OctoOS.Lib.RingBuffer
import OctoOS.Lib.Tiling
import OctoOS.Lib.Links
import OctoOS.Lib.NameTree
import OctoOS.Lib.X86
import OctoOS.Lib.Numeral
import OctoOS.Lib.RoundRobin
import OctoOS.E820
import OctoOS.Heap
import OctoOS.Heap.Proofs
import OctoOS.Heap.Runs
import OctoOS.Heap.Interleave
import OctoOS.Heap.Gaps
import OctoOS.Frame
import OctoOS.Frame.Refine
import OctoOS.Region
import OctoOS.Ata
import OctoOS.Fat
import OctoOS.Fat.View
import OctoOS.Fat.Dir
import OctoOS.Fat.Alloc
import OctoOS.Fat.WellFormed
import OctoOS.Fat.Frame
import OctoOS.Fat.Resolve
import OctoOS.Fat.Names
import OctoOS.Fat.Format
import OctoOS.Fat.Read
import OctoOS.Fat.Ops
import OctoOS.Fat.Effect
import OctoOS.Fat.Calls
import OctoOS.Fat.Check
import OctoOS.Fat.Success
import OctoOS.Fat.Leak
import OctoOS.Fat.Iterate
import OctoOS.Fat.Mount
import OctoOS.Fat.Writes
import OctoOS.Fat.Contained
import OctoOS.Fat.CwdText
import OctoOS.Fat.Preserve
import OctoOS.Fat.Failure
import OctoOS.Fat.Tree
import OctoOS.Fat.Refine
import OctoOS.Fat.Created
import OctoOS.Fat.Cwd
import OctoOS.Fat.Interleave
import OctoOS.Fat.Memory
import OctoOS.Fat.Absolute
import OctoOS.Fat.CwdBound
import OctoOS.Fat.Listing
import OctoOS.Fat.ChainFree
import OctoOS.Fat.ChainWrite
import OctoOS.Ata.Device
import OctoOS.Ata.Ports
import OctoOS.Ata.Refine
import OctoOS.File
import OctoOS.File.Owner
import OctoOS.File.Isolation
import OctoOS.File.RoundTrip
import OctoOS.File.AbsPath
import OctoOS.Paging
import OctoOS.Paging.Spaces
import OctoOS.Paging.Isolation
import OctoOS.Elf
import OctoOS.Elf.Load
import OctoOS.Elf.Image
import OctoOS.Console
import OctoOS.Console.Printf
import OctoOS.Keyboard
import OctoOS.Syscall
import OctoOS.Syscall.Range
import OctoOS.Syscall.Access
import OctoOS.Task
import OctoOS.Task.Table
import OctoOS.Task.Lifecycle
import OctoOS.Task.Resources
import OctoOS.Task.Fair
import OctoOS.Task.Jobs
import OctoOS.Ctx
import OctoOS.Ctx.Switch
import OctoOS.Lib.Protect
import OctoOS.Isr
import OctoOS.Gdt
import OctoOS.Isr.Handler
import OctoOS.Isr.Irq
import OctoOS.Isr.Deliver
import OctoOS.Ctx.Preempt
import OctoOS.Strings
import OctoOS.Vga
import OctoOS.Vga.Terminal
import OctoOS.Shell
import OctoOS.Shell.History
import OctoOS.Shell.Editor
import OctoOS.Shell.Commands
import OctoOS.Shell.Numbers
