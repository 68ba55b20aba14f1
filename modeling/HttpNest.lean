import HttpNest.Lib.FileSystem
import HttpNest.Lib.InetText
import HttpNest.Lib.JsonValue
import HttpNest.Lib.Progress
import HttpNest.Lib.SharedHeap
import HttpNest.Spec.Acceptor
import HttpNest.Spec.Config
import HttpNest.Spec.EventLoopThread
import HttpNest.Spec.EventLoopThreadPool
import HttpNest.Spec.Exchange
import HttpNest.Spec.FileLog
import HttpNest.Spec.SharedObjects
import HttpNest.Spec.SocketAddress
import HttpNest.Proof.AcceptWakeup
import HttpNest.Proof.Activation
import HttpNest.Proof.AnnouncedLength
import HttpNest.Proof.BufferAsserts
import HttpNest.Proof.BufferCopies
import HttpNest.Proof.BufferRefine
import HttpNest.Proof.BufferShrink
import HttpNest.Proof.ChunkPair
import HttpNest.Proof.ChunkPosts
import HttpNest.Proof.Chunked
import HttpNest.Proof.ClientPost
import HttpNest.Proof.ClientTarget
import HttpNest.Proof.ClientUrl
import HttpNest.Proof.Clock
import HttpNest.Proof.Config
import HttpNest.Proof.ContentLength
import HttpNest.Proof.ContextLoop
import HttpNest.Proof.Deadlock
import HttpNest.Proof.DnsRounds
import HttpNest.Proof.EnableCalls
import HttpNest.Proof.Exchange
import HttpNest.Proof.GetAnswered
import HttpNest.Proof.HeadOnly
import HttpNest.Proof.HeaderMap
import HttpNest.Proof.IdleTimeout
import HttpNest.Proof.LastByte
import HttpNest.Proof.Lifetime
import HttpNest.Proof.LogChecks
import HttpNest.Proof.LogClock
import HttpNest.Proof.LogNames
import HttpNest.Proof.LogRotation
import HttpNest.Proof.MinuteTimers
import HttpNest.Proof.NextLoop
import HttpNest.Proof.PacketPosts
import HttpNest.Proof.Parameters
import HttpNest.Proof.PipeWakeup
import HttpNest.Proof.Pipeline
import HttpNest.Proof.PostedFns
import HttpNest.Proof.ReadWakeup
import HttpNest.Proof.Reconnect
import HttpNest.Proof.Refused
import HttpNest.Proof.Requests
import HttpNest.Proof.Reset
import HttpNest.Proof.RoundTrip
import HttpNest.Proof.SendQueue
import HttpNest.Proof.ServerRegistry
import HttpNest.Proof.Session
import HttpNest.Proof.SharedObjects
import HttpNest.Proof.SizeLimits
import HttpNest.Proof.SlotBounds
import HttpNest.Proof.SocketAddress
import HttpNest.Proof.SplitFsm
import HttpNest.Proof.StatusLine
import HttpNest.Proof.StreamPackets
import HttpNest.Proof.TaskMgr
import HttpNest.Proof.ThreadEnd
import HttpNest.Proof.ThreadPlaces
import HttpNest.Proof.ThreadStart
import HttpNest.Proof.Timers
import HttpNest.Proof.TimingWheel
import HttpNest.Proof.TypedData
import HttpNest.Proof.UdpRecv
import HttpNest.Proof.UdpSend
import HttpNest.Proof.WriteCallback
import HttpNest.Proof.WriteLoop
import HttpNest.Proof.WriteWakeup
import HttpNest.Lib.SampledClock
import HttpNest.Proof.TimersInTime
