import KehindeKernel.FrameOwnership
import KehindeKernel.HeapBacking
import KehindeKernel.DirectoryRuns
import KehindeKernel.FsRuns
import KehindeKernel.FileContents
import KehindeKernel.GlobalShape
import KehindeKernel.PathLookup
import KehindeKernel.Shell
import KehindeKernel.ShellRuns
import KehindeKernel.ShellNames
import KehindeKernel.TwoRuns
import KehindeKernel.ShellSteps
import KehindeKernel.ShellPaths
import KehindeKernel.WorkingDirectory
import KehindeKernel.FsSound
import KehindeKernel.FailedCalls
import KehindeKernel.ReadClamp
import KehindeKernel.BootMap
import KehindeKernel.DeviceFrames
import KehindeKernel.SelfMap
import KehindeKernel.InvalidateProtocol
import KehindeKernel.Lib.Framing
import KehindeKernel.ReadLine
import KehindeKernel.UnmapRange
import KehindeKernel.KmallocRegions
import KehindeKernel.DirectoryGrowth
import KehindeKernel.FileStream
import KehindeKernel.Lib.Words
import KehindeKernel.Tokens
import KehindeKernel.Lib.Numeral
import KehindeKernel.Uart
import KehindeKernel.PathSegments
import KehindeKernel.PmmBounds
import KehindeKernel.Lib.ByteMemory
import KehindeKernel.VectorTable
import KehindeKernel.Lib.Terminal
import KehindeKernel.LineEditing
import KehindeKernel.WriteShown
import KehindeKernel.HeapBudget
import KehindeKernel.DiskBudget
import KehindeKernel.Desk
import KehindeKernel.ShellRefinement
import KehindeKernel.Console
import KehindeKernel.FsEdits
import KehindeKernel.KernelMain
import KehindeKernel.Interrupts
import KehindeKernel.Wire
import KehindeKernel.Lib.Stage1
import KehindeKernel.MemoryTypes
import KehindeKernel.Lib.WalkCache
import KehindeKernel.TableWalks
import KehindeKernel.Boot
import KehindeKernel.Exceptions
import KehindeKernel.Lib.Unseen
