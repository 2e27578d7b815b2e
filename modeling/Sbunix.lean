import Sbunix.Lib.Bits
import Sbunix.Lib.Bytes
import Sbunix.Lib.Chain
import Sbunix.Lib.Placement
import Sbunix.Lib.Runs
import Sbunix.Lib.Sharing
import Sbunix.Lib.Slice
import Sbunix.Lib.Stores
import Sbunix.Lib.Turns
import Sbunix.Lib.Words
import Sbunix.PhyMem
import Sbunix.Defs
import Sbunix.Paging
import Sbunix.Tables
import Sbunix.Exhaustion
import Sbunix.MapLaw
import Sbunix.Space
import Sbunix.Elf
import Sbunix.Task
import Sbunix.Fault
import Sbunix.AddressSpace
import Sbunix.Release
import Sbunix.ExecSpace
import Sbunix.ForkSpace
import Sbunix.FaultSpace
import Sbunix.System
import Sbunix.Scheduling
import Sbunix.Creation
import Sbunix.Steps
import Sbunix.Shell
import Sbunix.TableFrames
import Sbunix.ForkPages
import Sbunix.Usable
import Sbunix.ExecFailure
import Sbunix.Frames
import Sbunix.Terminal
import Sbunix.Tarfs
import Sbunix.ArchiveLayout
import Sbunix.Descriptors
import Sbunix.DescriptorSharing
import Sbunix.ReadFile
import Sbunix.Heap
import Sbunix.PageWalks
import Sbunix.KernelStacks
import Sbunix.Interrupts
import Sbunix.ForkContext
import Sbunix.ArgumentBlock
import Sbunix.ExecReturns
import Sbunix.CrtStart
import Sbunix.Environment
import Sbunix.EnvironmentMap
import Sbunix.RunRing
import Sbunix.KernelStores
import Sbunix.FatalFaults
import Sbunix.UserStores
import Sbunix.CopyOnWrite
import Sbunix.MemoryMap
import Sbunix.KernelMap
import Sbunix.Screen
import Sbunix.Paths
import Sbunix.KernelHalf
import Sbunix.Lib.PathTree
import Sbunix.Listing
import Sbunix.Directories
import Sbunix.Pids
import Sbunix.Cursors
import Sbunix.FileReads
import Sbunix.DirentBuffer
import Sbunix.OwnFrames
import Sbunix.CommandLine
import Sbunix.Printf
import Sbunix.ForkHeap
import Sbunix.Records
import Sbunix.Kinship
import Sbunix.Clock
import Sbunix.KernelClock
import Sbunix.Sleep
import Sbunix.Alarms
import Sbunix.Delivery
import Sbunix.HeaderWalks
import Sbunix.CommandSearch
import Sbunix.ChangeDirectory
import Sbunix.Ahci
import Sbunix.ShellInput
import Sbunix.DescriptorBounds
import Sbunix.IdentityMapping
import Sbunix.EnvironmentScans
import Sbunix.PathBuffers
import Sbunix.PathCalls
import Sbunix.Waiting
import Sbunix.Lib.Typewriter
import Sbunix.ScreenText
import Sbunix.StatusLine
import Sbunix.Keyboard
import Sbunix.Commands
import Sbunix.Processes
import Sbunix.ShellSession
import Sbunix.Programs
import Sbunix.Jobs
import Sbunix.Ls
