import KwHomework.Queue.CircleQueue
import KwHomework.Device.DeviceProgram
import KwHomework.Memory.CMemory
import KwHomework.FileSystem.Disk
import KwHomework.FileSystem.Buf
import KwHomework.FileSystem.CacheLists
import KwHomework.FileSystem.CacheSimulation
import KwHomework.FileSystem.BufferCache
import KwHomework.FileSystem.Layout
import KwHomework.FileSystem.FileSys
import KwHomework.FileSystem.Exec
import KwHomework.FileSystem.Volume
import KwHomework.FileSystem.View
import KwHomework.FileSystem.Blocks
import KwHomework.Volume.Cells
import KwHomework.Volume.DirTree
import KwHomework.Volume.Paths
import KwHomework.Volume.PathStore
import KwHomework.FileSystem.Directory
import KwHomework.FileSystem.Operations
import KwHomework.FileSystem.DirOperations
import KwHomework.FileSystem.Consistency
import KwHomework.FileSystem.Frames
import KwHomework.FileSystem.Calls
import KwHomework.FileSystem.Format
import KwHomework.FileSystem.OnDisk
import KwHomework.FileSystem.Framing
import KwHomework.FileSystem.Lifetime
import KwHomework.FileSystem.Undo
import KwHomework.FileSystem.Walk
import KwHomework.FileSystem.Failures
import KwHomework.FileSystem.Exhaustion
import KwHomework.FileSystem.Descriptors
import KwHomework.FileSystem.ReadBack
import KwHomework.FileSystem.Removal
import KwHomework.FileSystem.Naming
import KwHomework.FileSystem.Transfers
import KwHomework.FileSystem.Counters
import KwHomework.FileSystem.Reopen
import KwHomework.Queue.LinkedList
import KwHomework.Thread.QueueLists
import KwHomework.Thread.Timer
import KwHomework.Scheduling.RoundRobin
import KwHomework.Thread.Calls
import KwHomework.Thread.Turns
import KwHomework.Thread.QueueInvariant
import KwHomework.Thread.Disorder
import KwHomework.Thread.Dispatch
import KwHomework.Scheduling.CheckThenAct
import KwHomework.Thread.Exclusion
import KwHomework.FileSystem.Eviction
import KwHomework.FileSystem.Lookup
import KwHomework.FileSystem.Listing
import KwHomework.FileSystem.Allocation
import KwHomework.FileSystem.Growth
import KwHomework.Thread.Slots
import KwHomework.Objects.Catalog
import KwHomework.Objects.Refinement
import KwHomework.Subset.Selections
import KwHomework.Subset.Counts
import KwHomework.Subset.EqualSplits
import KwHomework.Subset.Halving
import KwHomework.Subset.BestSplit
import KwHomework.Subset.Sessions
import KwHomework.Device.Lockstep
import KwHomework.FileSystem.Matching
import KwHomework.FileSystem.Paired
import KwHomework.FileSystem.Leftovers
import KwHomework.FileSystem.Independence
import KwHomework.FileSystem.WriteBacks
import KwHomework.FileSystem.BlockSync
import KwHomework.Thread.SemaphoreQueue
import KwHomework.Objects.RepeatedNumbers
import KwHomework.Input.Istream
import KwHomework.Subset.ReadLoop
import KwHomework.Vision.Raster
import KwHomework.Vision.NoiseFilter
import KwHomework.Vision.Ranks
import KwHomework.Vision.Filters
import KwHomework.Vision.BeautyFilter
import KwHomework.Vision.Smoothing
import KwHomework.FileSystem.Tables
import KwHomework.Simulation.Trace
import KwHomework.FileSystem.Responses
import KwHomework.FileSystem.Sizes
import KwHomework.FileSystem.PathFiles
import KwHomework.FileSystem.PathRefinement
import KwHomework.FileSystem.PathSessions
import KwHomework.FileSystem.Aliases
import KwHomework.FileSystem.DirContents
import KwHomework.FileSystem.Machine
import KwHomework.FileSystem.Durability
import KwHomework.Thread.Processes
import KwHomework.Thread.Joins
import KwHomework.Objects.TestRuns
import KwHomework.Vision.SaltPepper
import KwHomework.Subset.Output
import KwHomework.Scheduling.UnitPool
import KwHomework.Thread.SemaphoreTable
import KwHomework.Thread.WakeUps
import KwHomework.FileSystem.Bitmaps
import KwHomework.FileSystem.TestProgram
