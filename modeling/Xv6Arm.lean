import Xv6Arm.Lib.Runs
import Xv6Arm.Lib.Ring
import Xv6Arm.Lib.Bytes
import Xv6Arm.Lib.RedoLog
import Xv6Arm.Lib.Chain
import Xv6Arm.Lib.Circle
import Xv6Arm.Lib.Segments
import Xv6Arm.Lib.Fallible
import Xv6Arm.Lib.Prog
import Xv6Arm.Lib.Rely
import Xv6Arm.Lib.Account
import Xv6Arm.Lib.Numerals
import Xv6Arm.Log.Model
import Xv6Arm.Log.Spec
import Xv6Arm.Log.Crash
import Xv6Arm.Log.Isolation
import Xv6Arm.Log.Limits
import Xv6Arm.Log.Recovery
import Xv6Arm.Mem.Layout
import Xv6Arm.Mem.Memset
import Xv6Arm.Mem.Kalloc
import Xv6Arm.Mem.Allocator
import Xv6Arm.Mem.Recycle
import Xv6Arm.Vm.Model
import Xv6Arm.Vm.Tables
import Xv6Arm.Vm.Map
import Xv6Arm.Vm.Setupkvm
import Xv6Arm.Vm.Spaces
import Xv6Arm.Vm.Outcomes
import Xv6Arm.Vm.Directory
import Xv6Arm.Vm.Walks
import Xv6Arm.Vm.Access
import Xv6Arm.Pipe.Model
import Xv6Arm.Pipe.Fifo
import Xv6Arm.Pipe.Wakeup
import Xv6Arm.Pipe.Closed
import Xv6Arm.Fs.Format
import Xv6Arm.Mkfs.Model
import Xv6Arm.Mkfs.Volume
import Xv6Arm.Mkfs.Image
import Xv6Arm.Mkfs.Append
import Xv6Arm.Mkfs.Run
import Xv6Arm.Mkfs.Contents
import Xv6Arm.Mkfs.RoundTrip
import Xv6Arm.Mkfs.Overlap
import Xv6Arm.Mkfs.Finish
import Xv6Arm.Mkfs.Holes
import Xv6Arm.Sys.Inode
import Xv6Arm.Sys.Calls
import Xv6Arm.Lib.NameTree
import Xv6Arm.Sys.Tree
import Xv6Arm.Sys.Changes
import Xv6Arm.Sys.Steps
import Xv6Arm.Sys.Effects
import Xv6Arm.Sys.Boot
import Xv6Arm.Sys.LinkCounts
import Xv6Arm.Sys.OpenFails
import Xv6Arm.Sys.Transactions
import Xv6Arm.Sys.Balance
import Xv6Arm.Sys.Files
import Xv6Arm.Sys.Args
import Xv6Arm.Exec.Load
import Xv6Arm.Exec.Stack
import Xv6Arm.Exec.Cleanup
import Xv6Arm.Shell.Model
import Xv6Arm.Shell.Nodes
import Xv6Arm.Shell.Plumbing
import Xv6Arm.Shell.Parser
import Xv6Arm.Shell.Grammar
import Xv6Arm.Shell.Sound
import Xv6Arm.Shell.Accepts
import Xv6Arm.Irq.Pic
import Xv6Arm.Irq.Pushcli
import Xv6Arm.Irq.Holding
import Xv6Arm.User.Umalloc
import Xv6Arm.User.FreeList
import Xv6Arm.User.HeapRuns
import Xv6Arm.User.Requests
import Xv6Arm.User.Memmove
import Xv6Arm.Print.Model
import Xv6Arm.Print.Numbers
import Xv6Arm.Print.Format
import Xv6Arm.Grep.Match
import Xv6Arm.Grep.Model
import Xv6Arm.Grep.Lines
import Xv6Arm.Bio.Coherence
import Xv6Arm.Bio.Refine
import Xv6Arm.Blocks.Bitmap
import Xv6Arm.Blocks.Crash
import Xv6Arm.Blocks.DirCalls
