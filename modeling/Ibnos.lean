import Ibnos.AddressSpaces
import Ibnos.Allocator
import Ibnos.Archives
import Ibnos.AreaSearch
import Ibnos.BlockingWrites
import Ibnos.Blocks
import Ibnos.BootMaps
import Ibnos.BootPaging
import Ibnos.BoundaryTags
import Ibnos.ByteMemories
import Ibnos.CanonicalPaths
import Ibnos.Chains
import Ibnos.Consoles
import Ibnos.CreatedPaths
import Ibnos.CreationFailures
import Ibnos.Creations
import Ibnos.Cursors
import Ibnos.Descriptors
import Ibnos.Destructions
import Ibnos.DispatcherCode
import Ibnos.Doubling
import Ibnos.ElfLoader
import Ibnos.EntryForks
import Ibnos.Enumerations
import Ibnos.EventWaits
import Ibnos.ExitCodes
import Ibnos.FailedSearches
import Ibnos.FileBounds
import Ibnos.FileContents
import Ibnos.FileReads
import Ibnos.Filesystem
import Ibnos.FilesystemReleases
import Ibnos.FilesystemRuns
import Ibnos.FilesystemTrees
import Ibnos.FirstFit
import Ibnos.FixedAllocations
import Ibnos.Forests
import Ibnos.Forks
import Ibnos.Fpu
import Ibnos.FrameContents
import Ibnos.FrameSupply
import Ibnos.FreshMemory
import Ibnos.Handles
import Ibnos.HeapBytes
import Ibnos.HeapContents
import Ibnos.HeapLayout
import Ibnos.HeapOperations
import Ibnos.HeapPayloads
import Ibnos.HeapRequests
import Ibnos.HeapRuns
import Ibnos.HeapWrites
import Ibnos.Instructions
import Ibnos.InterruptControllers
import Ibnos.InterruptStubs
import Ibnos.InterruptTables
import Ibnos.Intervals
import Ibnos.KernelInterrupts
import Ibnos.KernelPages
import Ibnos.KernelRoom
import Ibnos.Keyboards
import Ibnos.Liballoc
import Ibnos.LiballocCalls
import Ibnos.LiballocFrees
import Ibnos.LiballocRegions
import Ibnos.LiballocRuns
import Ibnos.Lifetimes
import Ibnos.LinkedLists
import Ibnos.Lives
import Ibnos.LoadedPages
import Ibnos.LoaderContents
import Ibnos.LoaderRemains
import Ibnos.Locality
import Ibnos.LookupReferences
import Ibnos.Lookups
import Ibnos.LowestHandles
import Ibnos.MappingFailures
import Ibnos.Memory
import Ibnos.MemoryRanges
import Ibnos.NewPages
import Ibnos.ObjectPrograms
import Ibnos.ObjectStores
import Ibnos.Objects
import Ibnos.PageBitmaps
import Ibnos.Paging
import Ibnos.PagingOperations
import Ibnos.PagingPrograms
import Ibnos.PagingRuns
import Ibnos.ParentLinks
import Ibnos.Physmem
import Ibnos.PhysmemInit
import Ibnos.PipeQueues
import Ibnos.Pipes
import Ibnos.ProcessForks
import Ibnos.ProcessPages
import Ibnos.ProgramArguments
import Ibnos.ProgramImages
import Ibnos.ProgramLoads
import Ibnos.Programs
import Ibnos.QueueWakeups
import Ibnos.Reallocations
import Ibnos.RecordTables
import Ibnos.References
import Ibnos.RejectedPointers
import Ibnos.RemotePages
import Ibnos.RepeatedSearches
import Ibnos.Runs
import Ibnos.ScreenMirror
import Ibnos.SectionStores
import Ibnos.SectionTables
import Ibnos.SemaphoreTokens
import Ibnos.SharedFrames
import Ibnos.ShellArguments
import Ibnos.ShellLines
import Ibnos.StableInsertion
import Ibnos.StackFrames
import Ibnos.Strings
import Ibnos.Syscalls
import Ibnos.SystemPages
import Ibnos.TableMappings
import Ibnos.TagLayout
import Ibnos.TagOperations
import Ibnos.Tallies
import Ibnos.TarChecksums
import Ibnos.TaskSwitches
import Ibnos.Teardowns
import Ibnos.Tilings
import Ibnos.TimerInterrupts
import Ibnos.Timers
import Ibnos.UserAccesses
import Ibnos.UserAllocations
import Ibnos.UserMemory
import Ibnos.UserReleases
import Ibnos.VirtualConsoles
import Ibnos.WordRecords
