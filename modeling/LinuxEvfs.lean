import LinuxEvfs.Errno
import LinuxEvfs.Lib.BinSearch
import LinuxEvfs.Lib.PagedIndex
import LinuxEvfs.Lib.Routing
import LinuxEvfs.Htree.SortMap
import LinuxEvfs.Htree.Model
import LinuxEvfs.Htree.Leaves
import LinuxEvfs.Htree.Split
import LinuxEvfs.Htree.Index
import LinuxEvfs.Htree.Change
import LinuxEvfs.Htree.Grow
import LinuxEvfs.Htree.Add
import LinuxEvfs.Htree.Convert
import LinuxEvfs.Htree.Runs
import LinuxEvfs.Htree.Readdir
import LinuxEvfs.Htree.Stream
import LinuxEvfs.Lib.Bytes
import LinuxEvfs.Lib.Credits
import LinuxEvfs.Lib.Deadlock
import LinuxEvfs.Lib.Holes
import LinuxEvfs.Lib.IndexTree
import LinuxEvfs.Lib.IndexInsert
import LinuxEvfs.Lib.IndexSplit
import LinuxEvfs.Lib.Journal
import LinuxEvfs.Lib.Runs
import LinuxEvfs.Lib.Linear
import LinuxEvfs.Lib.Locks
import LinuxEvfs.Lib.Scan
import LinuxEvfs.Lib.TreeJournal
import LinuxEvfs.Lib.IndexFrame
import LinuxEvfs.Lib.TreeBuffers
import LinuxEvfs.Lib.Word
import LinuxEvfs.ExtTree.Basic
import LinuxEvfs.ExtTree.Cells
import LinuxEvfs.ExtTree.Tree
import LinuxEvfs.ExtTree.Split
import LinuxEvfs.ExtTree.Leaves
import LinuxEvfs.ExtMove.Model
import LinuxEvfs.ExtMove.Cursor
import LinuxEvfs.ExtMove.Refine
import LinuxEvfs.ExtMove.Loop
import LinuxEvfs.ExtMove.Rounds
import LinuxEvfs.ExtMove.Exact
import LinuxEvfs.ExtMove.Leaves
import LinuxEvfs.ExtMove.Frame
import LinuxEvfs.ExtMove.Atomic
import LinuxEvfs.ExtMove.Journal
import LinuxEvfs.ExtMove.Credits
import LinuxEvfs.ExtMove.Bare
import LinuxEvfs.ExtMove.Missed
import LinuxEvfs.ExtMove.Shape
import LinuxEvfs.ExtMove.Skips
import LinuxEvfs.ExtMove.Version
import LinuxEvfs.Blocks.Model
import LinuxEvfs.Blocks.Group
import LinuxEvfs.Blocks.Counts
import LinuxEvfs.Blocks.Range
import LinuxEvfs.Blocks.Space
import LinuxEvfs.Inodes.Model
import LinuxEvfs.Inodes.Undo
import LinuxEvfs.Inodes.Itable
import LinuxEvfs.Inodes.Iter
import LinuxEvfs.Tracker.Model
import LinuxEvfs.Tracker.Refine
import LinuxEvfs.Tracker.Memory
import LinuxEvfs.Tracker.Capacity
import LinuxEvfs.Namespace.Dir
import LinuxEvfs.Namespace.Entries
import LinuxEvfs.Namespace.Counts
import LinuxEvfs.Namespace.Ledger
import LinuxEvfs.Namespace.Model
import LinuxEvfs.Namespace.Accounts
import LinuxEvfs.Namespace.Adding
import LinuxEvfs.Namespace.Refine
import LinuxEvfs.Namespace.Steps
import LinuxEvfs.Namespace.Update
import LinuxEvfs.Namespace.Edits
import LinuxEvfs.Ops.Model
import LinuxEvfs.Ops.Balance
import LinuxEvfs.Ops.Credits
import LinuxEvfs.Ops.Order
import LinuxEvfs.Namespace.Exits
import LinuxEvfs.Namespace.Attempts
import LinuxEvfs.Namespace.Block
import LinuxEvfs.Namespace.Reclaim
import LinuxEvfs.Namespace.Failures
import LinuxEvfs.Namespace.DeleteFailures
import LinuxEvfs.Namespace.Records
import LinuxEvfs.Namespace.Insertion
import LinuxEvfs.Namespace.Leaks
import LinuxEvfs.Namespace.LinkMax
import LinuxEvfs.Namespace.Rewrite
import LinuxEvfs.Namespace.View
import LinuxEvfs.Namespace.Listing
import LinuxEvfs.Namespace.RawWalk
import LinuxEvfs.Namespace.Tree
import LinuxEvfs.Namespace.Types
import LinuxEvfs.Namespace.Unique
import LinuxEvfs.Ops.Discipline
import LinuxEvfs.Ioctl.Model
import LinuxEvfs.Ioctl.Structs
import LinuxEvfs.Ioctl.Extents
import LinuxEvfs.Ioctl.ExtentList
import LinuxEvfs.Ioctl.Leaks
import LinuxEvfs.Ioctl.Names
import LinuxEvfs.ExtTree.Insert
import LinuxEvfs.Unwritten.Runs
