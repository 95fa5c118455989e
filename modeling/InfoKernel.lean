import InfoKernel.Fault
import InfoKernel.Lib.Assoc
import InfoKernel.Lib.Bitmap
import InfoKernel.Lib.Bytes
import InfoKernel.Lib.Halting
import InfoKernel.Lib.LinkedTree
import InfoKernel.Lib.Locking
import InfoKernel.Lib.Loop
import InfoKernel.Lib.PointerForest
import InfoKernel.Lib.Program
import InfoKernel.Lib.RedBlack
import InfoKernel.Lib.Refinement
import InfoKernel.Lib.Ring
import InfoKernel.Lib.Run
import InfoKernel.Lib.Sorting
import InfoKernel.Lib.Tiling
import InfoKernel.Lib.Tree
import InfoKernel.Lib.Writes
import InfoKernel.Machine
import InfoKernel.Locks
import InfoKernel.Task.Basic
import InfoKernel.Task.Cfs
import InfoKernel.Task.Charge
import InfoKernel.Task.DeadTasks
import InfoKernel.Task.Exec
import InfoKernel.Task.Ipc
import InfoKernel.Task.IpcDelivery
import InfoKernel.Task.Lock
import InfoKernel.Task.ParseArgs
import InfoKernel.Task.Pipe
import InfoKernel.Task.Progress
import InfoKernel.Task.RbTree
import InfoKernel.Task.RbTreeColor
import InfoKernel.Task.RbTreeRepair
import InfoKernel.Task.RbTreeShape
import InfoKernel.Task.RbTreeSorted
import InfoKernel.Task.Rpc
import InfoKernel.Task.Sched
import InfoKernel.Task.SchedCounters
import InfoKernel.Task.SchedLocks
import InfoKernel.Task.SchedOrder
import InfoKernel.Task.SchedPageTable
import InfoKernel.Task.SchedQueue
import InfoKernel.Task.Sem
import InfoKernel.Task.Service
import InfoKernel.Task.StaleDequeue
import InfoKernel.Mm.Frames
import InfoKernel.Mm.Heap
import InfoKernel.Mm.Page
import InfoKernel.Mm.PageRuns
import InfoKernel.Mm.PageTable
import InfoKernel.Mm.PageWalk
import InfoKernel.Mm.TableForest
import InfoKernel.Boot.Handover
import InfoKernel.Boot.Mm
import InfoKernel.Boot.Region
import InfoKernel.Drivers.Console
import InfoKernel.Drivers.Drive
import InfoKernel.Drivers.Ide
import InfoKernel.Drivers.Keyboard
import InfoKernel.Drivers.Scancodes
import InfoKernel.Drivers.Screen
import InfoKernel.Drivers.Terminals
import InfoKernel.Drivers.Transfer
import InfoKernel.Klibc.Bsearch
import InfoKernel.Klibc.Directives
import InfoKernel.Klibc.IntSlots
import InfoKernel.Klibc.Number
import InfoKernel.Klibc.Printf
import InfoKernel.Klibc.Qsort
import InfoKernel.Klibc.Star
import InfoKernel.Fs.AddEntry
import InfoKernel.Fs.Allocation
import InfoKernel.Fs.Balloc
import InfoKernel.Fs.BlockMap
import InfoKernel.Fs.Brief
import InfoKernel.Fs.Carrying
import InfoKernel.Fs.Counts
import InfoKernel.Fs.Creation
import InfoKernel.Fs.Deletion
import InfoKernel.Fs.Descriptors
import InfoKernel.Fs.Device
import InfoKernel.Fs.Dir
import InfoKernel.Fs.DirBlock
import InfoKernel.Fs.Directory
import InfoKernel.Fs.File
import InfoKernel.Fs.FileBytes
import InfoKernel.Fs.GroupTable
import InfoKernel.Fs.Handles
import InfoKernel.Fs.Image
import InfoKernel.Fs.Inode
import InfoKernel.Fs.InodeBits
import InfoKernel.Fs.InodeTable
import InfoKernel.Fs.Lasting
import InfoKernel.Fs.Layout
import InfoKernel.Fs.Listing
import InfoKernel.Fs.Looks
import InfoKernel.Fs.MountTable
import InfoKernel.Fs.Mounted
import InfoKernel.Fs.Mounts
import InfoKernel.Fs.NameRuns
import InfoKernel.Fs.NewNames
import InfoKernel.Fs.Numbering
import InfoKernel.Fs.OpenFiles
import InfoKernel.Fs.Paths
import InfoKernel.Fs.ReadBounds
import InfoKernel.Fs.Readdir
import InfoKernel.Fs.Reading
import InfoKernel.Fs.Records
import InfoKernel.Fs.Releases
import InfoKernel.Fs.RemoveEntry
import InfoKernel.Fs.Resizing
import InfoKernel.Fs.Room
import InfoKernel.Fs.Scans
import InfoKernel.Fs.SmallVolume
import InfoKernel.Fs.Super
import InfoKernel.Fs.Truncation
import InfoKernel.Fs.Vfs
import InfoKernel.Fs.Volume
import InfoKernel.Fs.Walls
import InfoKernel.Fs.WriteRange
import InfoKernel.Fs.WriteRoom
import InfoKernel.Fs.WriteSpace
import InfoKernel.Discipline
import InfoKernel.Task.Spaces
