import ChronosGo.Interleaving
import ChronosGo.RedisData
import ChronosGo.Task
import ChronosGo.Slot
import ChronosGo.Server
import ChronosGo.World
import ChronosGo.Protocol
import ChronosGo.ProtocolObeyed
import ChronosGo.GroupCompletion
import ChronosGo.Scripts
import ChronosGo.StoreRuns
import ChronosGo.Replay
import ChronosGo.StrandedBody
import ChronosGo.AtLeastOnce
import ChronosGo.Exclusive
import ChronosGo.UniqueLock
import ChronosGo.Schedule
import ChronosGo.Scheduler
import ChronosGo.TriggerOnce
import ChronosGo.NoLostTrigger
import ChronosGo.Builders
import ChronosGo.Workflow
import ChronosGo.WorkflowRuns
import ChronosGo.Copies
import ChronosGo.Continuation
import ChronosGo.FinalLink
import ChronosGo.Registry
import ChronosGo.WholeRecords
import ChronosGo.GroupExpiry
import ChronosGo.WRRPicker
import ChronosGo.ServerConfig
import ChronosGo.Heartbeat
import ChronosGo.Solo
import ChronosGo.HealthySchedule
import ChronosGo.HashSlots
import ChronosGo.Base64
import ChronosGo.Json
import ChronosGo.MessageCodec
import ChronosGo.WindowSweep
import ChronosGo.RecoveryDrain
import ChronosGo.Passage
import ChronosGo.Reference
import ChronosGo.WorkflowRequests
import ChronosGo.Undisturbed
import ChronosGo.UndisturbedRuns
import ChronosGo.Refinement
import ChronosGo.SmoothRoundRobin
import ChronosGo.MisfireGaps
import ChronosGo.Trimming
import ChronosGo.DueTimes
import ChronosGo.Alone
import ChronosGo.DeadLetter
import ChronosGo.Glob
import ChronosGo.ScheduleScan
import ChronosGo.Inspection
import ChronosGo.RecordedRuns
import ChronosGo.RetryBudget
import ChronosGo.Contents
import ChronosGo.Resumption
import ChronosGo.StageCreation
import ChronosGo.StageRuns
import ChronosGo.KeyAliasing
import ChronosGo.PickerOverflow
import ChronosGo.MemberDelays
import ChronosGo.TaskPositions
import ChronosGo.FetchLoop
import ChronosGo.FetchOutline
import ChronosGo.FetchSlots
import ChronosGo.Leadership
import ChronosGo.LeaderTenure
import ChronosGo.LeaderRenewal
import ChronosGo.LeaseSafety
import ChronosGo.FetchOrder
import ChronosGo.QueuePauses
import ChronosGo.GoroutineConduct
import ChronosGo.GoroutineShares
import ChronosGo.GracefulShutdown
import ChronosGo.Erasure
import ChronosGo.QueueIndex
import ChronosGo.WorkerReports
