import SysProg.Verification.Arithmetic.Chains
import SysProg.Verification.Arithmetic.Products
import SysProg.Verification.CountByFile.Exact
import SysProg.Verification.CountShorts.Pairs
import SysProg.Verification.DaemonLockFile.Exclusion
import SysProg.Verification.DaemonNamedPipe.Messages
import SysProg.Verification.FindExtremeStrings.Extremes
import SysProg.Verification.Fsort.Classes
import SysProg.Verification.Fsort.Moves
import SysProg.Verification.GroupSignal.Handshake
import SysProg.Verification.Least.Lines
import SysProg.Verification.LineReaders.Complete
import SysProg.Verification.LockedCounters.Longs
import SysProg.Verification.MultithreadedSort.Options
import SysProg.Verification.NonBlockingCat.Termination
import SysProg.Verification.OneSender.Delivery
import SysProg.Verification.PrintedWords.Words
import SysProg.Verification.Psort.Balance
import SysProg.Verification.Semaphore.Protocol
import SysProg.Verification.SharedMemory.Requests
import SysProg.Verification.SharedMemoryCount.Deadlock
import SysProg.Verification.SimpsonIntegration.Exact
import SysProg.Verification.SortTest.Detection
import SysProg.Verification.SortedWords.Stores
import SysProg.Verification.SortedWords.Transmission
import SysProg.Verification.SplitToArray.Accesses
import SysProg.Verification.SplitToArray.Exact
import SysProg.Verification.Square.Exact
import SysProg.Verification.Square.Requests
import SysProg.Verification.SquareClient.Pieces
import SysProg.Verification.SquareServers.Served
import SysProg.Verification.Summation.Wakeup
import SysProg.Verification.ThreadSortBytes.Printed
import SysProg.Verification.ThreadSortShorts.Printed
import SysProg.Verification.Transfer.Fifo
import SysProg.Verification.Transmission.FailedReads
import SysProg.Verification.Transmission.FailedWrites
import SysProg.Verification.TypedQueue.Results
import SysProg.Verification.UdpSquare.Replies
import SysProg.Verification.UdpSquareClients.Reliable
import SysProg.Verification.WeirdCalculations.Results
import SysProg.Verification.Wleast.Safety
