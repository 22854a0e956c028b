import Cosc240.Input.Complete
import Cosc240.Input.Sound
import Cosc240.Schedulers.FcfsSlots
import Cosc240.Schedulers.RrQuantum
import Cosc240.Schedulers.MlfqSlices
import Cosc240.Schedulers.CustomSlices
import Cosc240.Schedulers.CustomWaiting
import Cosc240.Schedulers.CustomHistories
import Cosc240.Schedulers.Levels
import Cosc240.Schedulers.FirstResponse
import Cosc240.Properties.Safety
import Cosc240.Properties.Makespan
import Cosc240.Properties.Statistics
import Cosc240.Properties.FileOrder
import Cosc240.Properties.ShortJobs
import Cosc240.Properties.NonClairvoyance
import Cosc240.Properties.BusyPeriods
import Cosc240.Properties.Misbehaving
import Cosc240.Kernel.Terminal
import Cosc240.Competition.Marks
import Cosc240.Input.Decode
import Cosc240.Input.Examined
import Cosc240.Schedulers.RrFifo
import Cosc240.Simulator.Verdict
import Cosc240.Simulator.Recorded
import Cosc240.Properties.Verdict
import Cosc240.Properties.ExitStatus
import Cosc240.Kernel.Bounds
import Cosc240.Competition.Improving
import Cosc240.Lib.CInt
import Cosc240.Totals.Loop
import Cosc240.Totals.Fork
import Cosc240.Lib.Interleaving
import Cosc240.Totals.Thread
import Cosc240.Totals.ThreadTotal
import Cosc240.Totals.ThreadProgress
import Cosc240.Lib.CArray
import Cosc240.Palindromes.Word
import Cosc240.Palindromes.Filter
import Cosc240.Lib.ExchangeSort
import Cosc240.Sorting.Sort
import Cosc240.Lib.LinkedList
import Cosc240.Schedulers.CustomPointers
import Cosc240.Schedulers.SmartQueue
import Cosc240.Lib.Allocator
import Cosc240.Lib.LinkedQueues
import Cosc240.Lib.LinkedWalks
import Cosc240.Lib.LinkedMemory
import Cosc240.Simulator.Program
import Cosc240.Schedulers.FcfsProgram
import Cosc240.Schedulers.RrProgram
import Cosc240.Schedulers.MlfqProgram
import Cosc240.Schedulers.CustomProgram
import Cosc240.Schedulers.CustomProgramHolds
import Cosc240.Schedulers.CustomProgramRefines
import Cosc240.Properties.InMemory
import Cosc240.Lib.LittleEndian
import Cosc240.Lib.SegmentTables
import Cosc240.Lib.InterruptController
import Cosc240.Kernel.Keyboard
import Cosc240.Kernel.TypingBounds
import Cosc240.Kernel.Descriptors
import Cosc240.Kernel.Interrupts
import Cosc240.Kernel.Tutorial7
import Cosc240.Lib.X86
import Cosc240.Lib.X86Stack
import Cosc240.Assembly.Functions
import Cosc240.Assembly.Hello
import Cosc240.Schedulers.RrPlan
import Cosc240.Lib.TextTools
import Cosc240.Lib.Hundredths
import Cosc240.Competition.Report
import Cosc240.Competition.CsvFile
import Cosc240.Competition.Script
import Cosc240.Competition.Collect
import Cosc240.Competition.SameOutput
import Cosc240.Competition.Grading
import Cosc240.Competition.CommandLine
