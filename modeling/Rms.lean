import Rms.V01.FifoTheorems
import Rms.V01.NackTheorems
import Rms.V01.HbeatRoundTrip
import Rms.V01.TruncationTheorems
import Rms.V01.FramingTheorems
import Rms.V01.PipeTheorems
import Rms.V01.WindowTheorems
import Rms.V01.RetentionTheorems
import Rms.Lib.Chains
import Rms.Lib.Refinement
import Rms.Util.MqueueRefinement
import Rms.Util.MqueueRemovalTheorems
import Rms.V01.AgreementTheorems
import Rms.V01.IsolationTheorems
import Rms.V01.SessionTheorems
import Rms.V01.RejoinTheorems
import Rms.Util.HashtableTheorems
import Rms.Util.RehashTheorems
import Rms.Util.EnumTheorems
import Rms.Util.RemoveNextTheorems
import Rms.Lib.Buckets
import Rms.ManagerTheorems
import Rms.V01.Format
import Rms.V01.FormatTheorems
import Rms.V01.LeaveTheorems
import Rms.V01.ResetTheorems
import Rms.V01.Drain
import Rms.V01.DrainTheorems
import Rms.V01.GapTheorems
import Rms.V01.ReceiveTheorems
import Rms.V01.BookkeepingTheorems
import Rms.V01.RoomTheorems
import Rms.V01.HbeatRoomTheorems
import Rms.Lib.Reads
import Rms.V01.Parse
import Rms.V01.ParseTheorems
import Rms.ManagerNackTheorems
import Rms.ManagerLoop
import Rms.ManagerLoopTheorems
import Rms.ManagerRefinement
import Rms.WriteLoop
import Rms.Channel
import Rms.ChannelTheorems
import Rms.ChannelFailureTheorems
import Rms.Util.Syncqueue
import Rms.Util.SyncqueueTheorems
import Rms.V01.Network
import Rms.V01.NetworkTheorems
import Rms.V01.EndToEnd
import Rms.V01.EndToEndTheorems
import Rms.Util.SyncThreads
import Rms.Util.SyncThreadsTheorems
import Rms.V01.Timed
import Rms.V01.TimedTheorems
import Rms.V01.SurvivalTheorems
import Rms.V01.RecoveryTheorems
import Rms.V01.Bounded
import Rms.V01.BoundedTheorems
import Rms.V01.BoundedRuns
import Rms.V01.Process
import Rms.V01.ProcessTheorems
import Rms.V01.ProcessRuns
import Rms.V01.ProcessNetwork
import Rms.V01.ProcessTimed
import Rms.V01.LifeCycle
import Rms.V01.LifeCycleTheorems
import Rms.Util.MqueueLedger
import Rms.Util.MqueueStack
import Rms.Util.StatisticsTheorems
import Rms.V01.ClientThreads
import Rms.V01.ClientThreadsTheorems
