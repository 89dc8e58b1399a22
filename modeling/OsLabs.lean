import OsLabs.Alignment
import OsLabs.AtagEncoding
import OsLabs.AtagTermination
import OsLabs.BinOperations
import OsLabs.BinReuse
import OsLabs.Bump
import OsLabs.Gpio
import OsLabs.ListRemoval
import OsLabs.LotteryDraw
import OsLabs.RandPeriod
import OsLabs.ShellEditor
import OsLabs.SpinSleep
import OsLabs.SqrtTableFifo
import OsLabs.StackVecRuns
import OsLabs.XmodemCounter
import OsLabs.XmodemLengths
import OsLabs.XmodemProgress
import OsLabs.Xv6BioCache
import OsLabs.Xv6BioCoherence
import OsLabs.Xv6ConsoleRuns
import OsLabs.Xv6Isolation
import OsLabs.Xv6LogReservation
import OsLabs.Xv6PipeRuns
import OsLabs.Xv6Priority
import OsLabs.Xv6Processes
import OsLabs.Xv6Tickets
import OsLabs.Xv6Wakeup
