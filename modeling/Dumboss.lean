import Dumboss.Lib.Prog
import Dumboss.Lib.Effects
import Dumboss.Lib.Buddy
import Dumboss.Lib.Links
import Dumboss.Lib.Runs
import Dumboss.Lib.Custody
import Dumboss.Lib.Radix
import Dumboss.Lib.Ring
import Dumboss.Lib.Shares
import Dumboss.Machine
import Dumboss.BitSet
import Dumboss.BitSet.Reads
import Dumboss.BitSet.Writes
import Dumboss.Allocator.Model
import Dumboss.Allocator.Invariant
import Dumboss.Allocator.Freelist
import Dumboss.Allocator.Release
import Dumboss.Allocator.Alloc
import Dumboss.Allocator.Entry
import Dumboss.Allocator.Run
import Dumboss.Allocator.Frame
import Dumboss.Allocator.Canonical
import Dumboss.Allocator.Result
import Dumboss.Allocator.Account
import Dumboss.Boot.Model
import Dumboss.Boot.Seed
import Dumboss.Boot.Metadata
import Dumboss.Boot.Entries
import Dumboss.Boot.Init
import Dumboss.Boot.Separation
import Dumboss.Boot.Resident
import Dumboss.Bump
import Dumboss.Descriptors
import Dumboss.Tasks.Model
import Dumboss.Tasks.Conservation
import Dumboss.Tasks.Scheduler
import Dumboss.Tasks.Stranded
import Dumboss.Tasks.Indices
import Dumboss.Tasks.Progress
import Dumboss.Tasks.Sequential
import Dumboss.Tasks.Queue
import Dumboss.Tasks.Begin
import Dumboss.PageTable.Model
import Dumboss.PageTable.Entries
import Dumboss.PageTable.Tree
import Dumboss.PageTable.Walk
import Dumboss.PageTable.Grow
import Dumboss.PageTable.Map
import Dumboss.PageTable.Region
import Dumboss.PageTable.Source
import Dumboss.PageTable.Run
import Dumboss.PageTable.Overlap
import Dumboss.PageTable.Rights
import Dumboss.PageTable.Dispose
import Dumboss.PageTable.Destroy
import Dumboss.PageTable.Spaces
import Dumboss.PageTable.Copy
import Dumboss.PageTable.BootTable
import Dumboss.PageTable.Demand
import Dumboss.PageTable.Switch
import Dumboss.PageTable.Protection
import Dumboss.MemoryInit
import Dumboss.PageTable.Traverse
import Dumboss.PageTable.Query
import Dumboss.PageTable.Encoding
import Dumboss.Logger.Format
import Dumboss.Logger.Model
import Dumboss.Logger.Lines
import Dumboss.Logger.Reference
