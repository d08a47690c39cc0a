import LinuxIsLove.Foundation.Runs
import LinuxIsLove.Foundation.Linked
import LinuxIsLove.Foundation.Bytes
import LinuxIsLove.Foundation.PageWalk
import LinuxIsLove.Foundation.TextLayout
import LinuxIsLove.Foundation.Buffers
import LinuxIsLove.Foundation.Loops
import LinuxIsLove.Foundation.Blocks
import LinuxIsLove.Foundation.Numerals
import LinuxIsLove.Foundation.Clients
import LinuxIsLove.Foundation.Arrays
import LinuxIsLove.Foundation.Processor
import LinuxIsLove.Foundation.Rotation
import LinuxIsLove.Source.Fs
import LinuxIsLove.Source.VirtualMem
import LinuxIsLove.Source.Rtc
import LinuxIsLove.Source.Terminal
import LinuxIsLove.Source.Process
import LinuxIsLove.Source.Execute
import LinuxIsLove.Source.ExecuteCall
import LinuxIsLove.Source.Schedule
import LinuxIsLove.Source.SysCalls
import LinuxIsLove.Source.Events
import LinuxIsLove.Source.KernelStores
import LinuxIsLove.Source.Preempt
import LinuxIsLove.Source.Faults
import LinuxIsLove.Source.StringOps
import LinuxIsLove.Source.Printf
import LinuxIsLove.Source.Blink
import LinuxIsLove.Source.Linkage
import LinuxIsLove.Source.Support
import LinuxIsLove.Source.Programs
import LinuxIsLove.Source.SysErr
import LinuxIsLove.Source.Counter
import LinuxIsLove.Effects
import LinuxIsLove.Lookup
import LinuxIsLove.LineBuffer
import LinuxIsLove.ReadBounds
import LinuxIsLove.Invariant
import LinuxIsLove.Isolation
import LinuxIsLove.Untouched
import LinuxIsLove.FileReading
import LinuxIsLove.Chains
import LinuxIsLove.Contexts
import LinuxIsLove.Bracket
import LinuxIsLove.DeferredShell
import LinuxIsLove.HaltWindow
import LinuxIsLove.Clock
import LinuxIsLove.ClockRates
import LinuxIsLove.ClockWait
import LinuxIsLove.Descriptors
import LinuxIsLove.DescriptorStores
import LinuxIsLove.PicMasks
import LinuxIsLove.ClockCount
import LinuxIsLove.ProgramImage
import LinuxIsLove.DirReading
import LinuxIsLove.EnterHandshake
import LinuxIsLove.Exceptions
import LinuxIsLove.ExitStatus
import LinuxIsLove.Drawing
import LinuxIsLove.TextPages
import LinuxIsLove.TextIsolation
import LinuxIsLove.DataBlocks
import LinuxIsLove.LineSplitting
import LinuxIsLove.NegativeReads
import LinuxIsLove.ScreenCells
import LinuxIsLove.ScreenLayout
import LinuxIsLove.TerminalRuns
import LinuxIsLove.OneLine
import LinuxIsLove.CursorBounds
import LinuxIsLove.Echo
import LinuxIsLove.Executables
import LinuxIsLove.CommandBuffers
import LinuxIsLove.StartedPrograms
import LinuxIsLove.AcceptedRates
import LinuxIsLove.BlockTable
import LinuxIsLove.VideoMapping
import LinuxIsLove.MemoryRoutines
import LinuxIsLove.NumberFormatting
import LinuxIsLove.FormatEnd
import LinuxIsLove.PrintedText
import LinuxIsLove.BlinkList
import LinuxIsLove.Arguments
import LinuxIsLove.ScancodeBounds
import LinuxIsLove.ProcessCalls
import LinuxIsLove.ProcessRefinement
import LinuxIsLove.UserPrograms
import LinuxIsLove.LineSearch
import LinuxIsLove.TestSuite
import LinuxIsLove.LineInput
import LinuxIsLove.Undisturbed
import LinuxIsLove.RoundRobin
import LinuxIsLove.Blinking
import LinuxIsLove.KernelEntry
import LinuxIsLove.Interrupts
import LinuxIsLove.DescriptorStores
