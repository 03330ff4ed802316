import WindowsThreadpoolSys.DurableIoring.Contract.NothingUndone
import WindowsThreadpoolSys.DurableIoring.Contract.Tokens
import WindowsThreadpoolSys.DurableIoring.Contract.Successes
import WindowsThreadpoolSys.FileWatcher.Reserved
import WindowsThreadpoolSys.FileWatcher.Reach
import WindowsThreadpoolSys.WaitableQueues.ReservingContract
import WindowsThreadpoolSys.TailWatcher.EachByte
import WindowsThreadpoolSys.FileEnumeration.Scheduling
import WindowsThreadpoolSys.FileEnumeration.Record
import WindowsThreadpoolSys.Topology.Partition
import WindowsThreadpoolSys.Healing.Teardown
import WindowsThreadpoolSys.IoRing.Holds
import WindowsThreadpoolSys.IoRing.CompletionWake
import WindowsThreadpoolSys.Overlapped.RunDown
import WindowsThreadpoolSys.FileWatcher.Retry
import WindowsThreadpoolSys.JobLauncher.CommandLine
