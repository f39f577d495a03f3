import Ns2.Common.CalendarRefinement
import Ns2.Common.SplayScheduler
import Ns2.Common.HeapRefinement
import Ns2.Common.TimerHandler
import Ns2.Routealgo.RLookupTables
import Ns2.Routing.ComputeRoutes
import Ns2.Linkstate.ComputeRoutes
import Ns2.Linkstate.LsAcknowledgements
import Ns2.Tcp.SackDisjoint
import Ns2.Tcp.ScoreBoardReports
import Ns2.Tcp.TrackedPackets
import Ns2.Tcp.TcpSessionFairness
import Ns2.Tcp.AckReconsOrder
import Ns2.Tcp.ReassemblyRcvNxt
import Ns2.Tcp.ReassemblySacks
import Ns2.Tcp.SnoopRuns
import Ns2.Queue.DrrFlows
import Ns2.Queue.AckFilter
import Ns2.Tcp.ScoreBoardNext
import Ns2.Tcp.ScoreBoardRQ
import Ns2.Tcp.SnoopWlessLoss
import Ns2.Nix.NixRoutes
import Ns2.Imep.Aggregation
import Ns2.Imep.ControlTimer
import Ns2.Imep.ReXmitTimer
import Ns2.Imep.InOrder
import Ns2.Diffusion3.AttributeFactory
import Ns2.Diffusion3.AttrsRoundTrip
import Ns2.Diffusion3.AttrsOrder
import Ns2.Dsdv.DsdvUpdates
import Ns2.Lib.RunLength
import Ns2.Dccp.NonceEcho
import Ns2.Tora.ToraNetwork
import Ns2.Queue.SrrQueues
import Ns2.Queue.SrrPeriod
import Ns2.Aomdv.AomdvNetwork
import Ns2.Mcast.RcvBuffer
import Ns2.Mcast.SrmReceived
import Ns2.Mcast.SrmSession
import Ns2.Webcache.TcpApp
import Ns2.Wpan.Transactions
import Ns2.Queue.CbqInsert
import Ns2.Queue.CbqServe
import Ns2.Mobile.GodRoutes
import Ns2.Diffusion3.EventQueueRuns
import Ns2.Dsr.RequestTable
import Ns2.Dccp.FeatureAlignment
import Ns2.Dccp.AckVectorMerge
import Ns2.Sctp.GapAckBlocks
import Ns2.Sctp.RecvTsnBlocks
import Ns2.Sctp.RecvTsnRuns
import Ns2.Sctp.InStreams
import Ns2.Sctp.GenSack
import Ns2.Satellite.HdlcSendBuffer
import Ns2.Satellite.HdlcReset
import Ns2.Linkstate.LsNewness
import Ns2.Linkstate.LsTermination
import Ns2.Routing.RouteInsert
import Ns2.Aodv.AodvErrors
import Ns2.Aodv.AodvRqueue
import Ns2.Queue.SfqRounds
import Ns2.Common.CalendarCounts
import Ns2.Common.HeapOrder
import Ns2.Nix.NixVec64
import Ns2.Queue.DrrTurns
import Ns2.Queue.HashIndex
import Ns2.Dsdv.DsdvNetwork
import Ns2.Mac.Mac80211Retries
import Ns2.Aodv.AodvAsserts
import Ns2.Diffserv.DsConformance
import Ns2.Adc.Tbf
import Ns2.Lib.SingleServer
import Ns2.Link.LinkLatency
import Ns2.Aodv.AodvNumbers
import Ns2.Tcp.TcpTransfer
import Ns2.Mac.WirelessChannelRuns
import Ns2.Dsr.MobiCacheRuns
import Ns2.Queue.Red
import Ns2.Queue.RedRuns
