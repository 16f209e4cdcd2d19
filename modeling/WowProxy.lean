import WowProxy.Common.BitErrors
import WowProxy.Common.CJsonBuffered
import WowProxy.Common.CJsonSafety
import WowProxy.Common.Descriptors
import WowProxy.Common.HashtableMemory
import WowProxy.Common.Timer
import WowProxy.Server.Close
import WowProxy.Server.FailureCounter
import WowProxy.Server.InterestMask
import WowProxy.Server.Order
import WowProxy.Server.Solo
import WowProxy.Server.Teardown
import WowProxy.Threadpool.AnswerDelivery
import WowProxy.Threadpool.Calls
import WowProxy.Threadpool.CommandPath
import WowProxy.Threadpool.Correlation
import WowProxy.Threadpool.Destroy
import WowProxy.Threadpool.QueueRuns
import WowProxy.Threadpool.Reassembly
import WowProxy.Threadpool.RequestMemory
import WowProxy.Threadpool.SqlTokens
import WowProxy.Threadpool.WriteDb
import WowProxy.Xml.ClosingTags
import WowProxy.Xml.ResultLength
import WowProxy.Xml.StatusFlag
import WowProxy.Xml.XmlMemory
