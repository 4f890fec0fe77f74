import Ence360.Assignment.AccuracyProperties
import Ence360.Assignment.OutputProperties
import Ence360.Assignment.PartitionProperties
import Ence360.Assignment.QueryReaderProperties
import Ence360.Assignment.TotalsProperties
import Ence360.Cache.MatrixBlockedProperties
import Ence360.Cache.MatrixProperties
import Ence360.Distributed.MergeProperties
import Ence360.Distributed.MergeScheduleProperties
import Ence360.Distributed.PingProperties
import Ence360.Distributed.SortShareProperties
import Ence360.Distributed.VectorLengthProperties
import Ence360.Processes.MyDup2PipeProperties
import Ence360.Processes.PipeToUpperProperties
import Ence360.Revision.CopyBufferProperties
import Ence360.Revision.ReleaseProperties
import Ence360.Semantics.Ring
import Ence360.Signals.SocketProperties
import Ence360.Threads.CollatzProperties
import Ence360.Xv6.BioCoherenceProperties
import Ence360.Xv6.BioOrderProperties
import Ence360.Xv6.ConsoleProperties
import Ence360.Xv6.GrepLineProperties
import Ence360.Xv6.GrepMatchProperties
import Ence360.Xv6.LogCrashProperties
import Ence360.Xv6.LogSpaceProperties
import Ence360.Xv6.NameiPathProperties
import Ence360.Xv6.PipeQueueProperties
import Ence360.Xv6.PipeSleepProperties
import Ence360.Xv6.ShRunProperties
import Ence360.Xv6.UmallocSafetyProperties
