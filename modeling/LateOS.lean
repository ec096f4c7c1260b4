import LateOS.Lib.Trace
import LateOS.Lib.Intervals
import LateOS.Process.Task
import LateOS.Process.Terminal
import LateOS.Process.Kernel
import LateOS.Process.Effect
import LateOS.Process.Zombie
import LateOS.Process.Awake
import LateOS.Process.Rooted
import LateOS.Process.Waiting
import LateOS.Process.Turns
import LateOS.Process.Parent
import LateOS.Process.Clock
import LateOS.Process.Sleep
import LateOS.Heap.Blocks
import LateOS.Heap.Calls
import LateOS.Heap.Session
import LateOS.Heap.Sizes
import LateOS.Heap.Frees
import LateOS.Heap.Scans
import LateOS.Lib.Loop
import LateOS.Lib.Radix
import LateOS.Lib.RoundRobin
import LateOS.Lib.Paths
import LateOS.Memory.Entry
import LateOS.Memory.Paging
import LateOS.Memory.Sound
import LateOS.Memory.Grow
import LateOS.Memory.Map
import LateOS.Memory.View
import LateOS.Memory.Teardown
import LateOS.Memory.Copy
import LateOS.Memory.Fault
import LateOS.Memory.Loader
import LateOS.Memory.Load
import LateOS.Memory.System
import LateOS.Memory.Isolation
import LateOS.Process.Reaping
import LateOS.Process.Runnable
import LateOS.Process.RoundRobin
import LateOS.Process.Kill
import LateOS.Boot.Freelist
import LateOS.Boot.Frames
import LateOS.Boot.Regions
import LateOS.Boot.PageTables
import LateOS.Boot.Records
import LateOS.Memory.Pages
import LateOS.Memory.HeapArea
import LateOS.Process.Lines
import LateOS.Files.Descriptor
import LateOS.Files.Reading
import LateOS.Files.Handles
import LateOS.Files.Counts
import LateOS.Files.Archive
import LateOS.Files.SizeFields
import LateOS.Files.Advance
import LateOS.Files.Lookup
import LateOS.Files.Path
import LateOS.Files.NormalForm
import LateOS.Files.Stores
import LateOS.Files.Chdir
import LateOS.Files.Listing
import LateOS.Memory.Contents
import LateOS.Memory.Segments
import LateOS.Memory.Images
import LateOS.Memory.Tidy
import LateOS.Memory.Stack
import LateOS.Memory.Startup
import LateOS.Memory.Exec
import LateOS.Memory.Arguments
import LateOS.Memory.FailedExec
import LateOS.Memory.Fork
import LateOS.Memory.Exhaustion
import LateOS.Memory.Supply
import LateOS.Memory.Sharing
import LateOS.Memory.Accounts
import LateOS.Memory.Losses
import LateOS.Process.Readers
import LateOS.Screen.Console
import LateOS.Screen.Scrolling
import LateOS.Memory.Tree
import LateOS.Memory.OnePage
import LateOS.Memory.KernelMap
import LateOS.Memory.Clone
import LateOS.Memory.References
import LateOS.Memory.Forking
import LateOS.Memory.StackGrowth
import LateOS.Memory.Validation
import LateOS.Memory.RoundTrip
import LateOS.Memory.FirstStack
import LateOS.Memory.Resident
import LateOS.Memory.VmaGrowth
import LateOS.Process.KeyBounds
import LateOS.Screen.Video
import LateOS.Screen.Cursor
import LateOS.Screen.Echo
import LateOS.Screen.Format
import LateOS.Lib.Numerals
import LateOS.Lib.Moves
import LateOS.Lib.Layout
import LateOS.Memory.Memcpy
import LateOS.Files.DirectoryCursor
import LateOS.Shell.Words
import LateOS.Shell.Commands
import LateOS.Shell.Prompt
import LateOS.Shell.Environment
import LateOS.Shell.Script
import LateOS.Boot.Start
import LateOS.Lib.Stack
import LateOS.Lib.Terminated
import LateOS.Strings.Copies
import LateOS.Strings.Compare
import LateOS.Strings.Numbers
import LateOS.Programs.Cat
import LateOS.Programs.Echo
import LateOS.Programs.Kill
import LateOS.Programs.Ls
import LateOS.Shell.Interactive
import LateOS.Shell.Typing
import LateOS.Interrupts.Gates
import LateOS.Interrupts.Entry
import LateOS.Interrupts.Return
import LateOS.Interrupts.Calls
import LateOS.Interrupts.Forked
import LateOS.Whole.Os
import LateOS.Whole.Resting
import LateOS.Whole.Foreground
