import YontiOs.Machinery.BTreeMap
import YontiOs.Machinery.Str
import YontiOs.Machinery.Text
import YontiOs.Machinery.Mem
import YontiOs.Machinery.Word
import YontiOs.Machinery.DList
import YontiOs.Machinery.Run
import YontiOs.Machinery.Returns
import YontiOs.Machinery.ListTable
import YontiOs.Machinery.AlignedRange
import YontiOs.Machinery.BuddyPool
import YontiOs.Machinery.Loads
import YontiOs.Machinery.Filled
import YontiOs.Machinery.Ring
import YontiOs.Machinery.SList
import YontiOs.Machinery.Packing
import YontiOs.Machinery.Layout
import YontiOs.Machinery.Mmio
import YontiOs.Machinery.Ports
import YontiOs.Machinery.Checked
import YontiOs.Machinery.Grid
import YontiOs.Machinery.Terminal
import YontiOs.Fs.Inode
import YontiOs.Fs.FileSystem
import YontiOs.Fs.View
import YontiOs.Fs.Effect
import YontiOs.Fs.Refinement
import YontiOs.Fs.Accounting
import YontiOs.Fs.Depth
import YontiOs.Fs.Limits
import YontiOs.Allocator.Tlsf
import YontiOs.Allocator.Classes
import YontiOs.Allocator.Tags
import YontiOs.Allocator.FreeIndex
import YontiOs.Allocator.Blocks
import YontiOs.Allocator.Hole
import YontiOs.Allocator.Heap
import YontiOs.Allocator.Malloc
import YontiOs.Allocator.Client
import YontiOs.Allocator.Soundness
import YontiOs.Allocator.RoundTrip
import YontiOs.Allocator.Frame
import YontiOs.Allocator.Reset
import YontiOs.Allocator.Requests
import YontiOs.Allocator.FreshHeap
import YontiOs.Allocator.LinkedList
import YontiOs.Allocator.FreeRegions
import YontiOs.Allocator.FirstFit
import YontiOs.Allocator.Bump
import YontiOs.Allocator.GlobalAlloc
import YontiOs.Memory.Buddy
import YontiOs.Memory.FrameLists
import YontiOs.Memory.FramePool
import YontiOs.Memory.Carving
import YontiOs.Memory.FrameClient
import YontiOs.Memory.FrameSafety
import YontiOs.Memory.Borders
import YontiOs.Memory.Canonical
import YontiOs.Memory.Accounting
import YontiOs.Memory.Requests
import YontiOs.Memory.PageBorders
import YontiOs.Allocator.InitHeap
import YontiOs.Task.ArrayQueue
import YontiOs.Task.Fifo
import YontiOs.Task.Executor
import YontiOs.Task.Keyboard
import YontiOs.Task.Slots
import YontiOs.Task.WrapAround
import YontiOs.Task.Delivery
import YontiOs.Task.Fairness
import YontiOs.Task.WakerRefs
import YontiOs.Monitor.Counters
import YontiOs.Monitor.Peak
import YontiOs.Monitor.Accounting
import YontiOs.Framebuffer.Font
import YontiOs.Framebuffer.Writer
import YontiOs.Framebuffer.Pixels
import YontiOs.Framebuffer.Screen
import YontiOs.Framebuffer.Text
import YontiOs.Framebuffer.Machine
import YontiOs.Framebuffer.Cursor
import YontiOs.Framebuffer.Escape
import YontiOs.Framebuffer.CursorBar
import YontiOs.Trace.Dump
import YontiOs.Shell.Console
import YontiOs.Shell.Line
import YontiOs.Shell.Commands
import YontiOs.Shell.Panics
import YontiOs.Apic.Madt
import YontiOs.Apic.Table
import YontiOs.Apic.Reads
import YontiOs.Apic.Rsdp
import YontiOs.Apic.Detect
import YontiOs.Apic.Routing
import YontiOs.Apic.Redirection
import YontiOs.Interrupts.Pic
import YontiOs.Interrupts.Handover
import YontiOs.Serial.Uart
