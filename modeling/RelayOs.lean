import RelayOs.Vfs.MemTree
import RelayOs.Ext2.Mounted
import RelayOs.Kernel.Wait
import RelayOs.Kernel.Console
import RelayOs.Console.Line
import RelayOs.Heap.Growing
import RelayOs.Memory.KernelMap
import RelayOs.Memory.Slices
import RelayOs.Memory.MemoryMap
import RelayOs.Memory.Isolation
import RelayOs.Exec.Load
import RelayOs.Memory.StackRuns
import RelayOs.Usb.Conformance
import RelayOs.Pipes.Delivery
import RelayOs.Shell.ParseLines
import RelayOs.Shell.Lines
import RelayOs.Shell.Grep
import RelayOs.Shell.Calendar
import RelayOs.Usb.Rings
import RelayOs.Term.Terminal
import RelayOs.Usb.Requests
