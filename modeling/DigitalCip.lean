import DigitalCip.Resumable.Program
import DigitalCip.Resumable.Run
import DigitalCip.Resumable.Interference
import DigitalCip.Resumable.Calls
import DigitalCip.Resumable.Outcome
import DigitalCip.Resumable.Automaton
import DigitalCip.Resumable.Replay
import DigitalCip.Resumable.Lockstep
import DigitalCip.Resumable.Simulation
import DigitalCip.Sliding.Windows
import DigitalCip.Chunker.Split
import DigitalCip.Chunker.Windowing
import DigitalCip.Chunker.RoundTrip
import DigitalCip.Chunker.MachineSplit
import DigitalCip.Database
import DigitalCip.Broker
import DigitalCip.Api.Document
import DigitalCip.Wire.Bodies
import DigitalCip.Wire.Dicts
import DigitalCip.Wire.Envelopes
import DigitalCip.Wire.Structs
import DigitalCip.WireFormat
import DigitalCip.World
import DigitalCip.Ocr.Worker
import DigitalCip.Embedder.Worker
import DigitalCip.Chunker.Worker
import DigitalCip.System
import DigitalCip.Invariant.Footprint
import DigitalCip.Invariant.Authorship
import DigitalCip.Deployment.Cluster
import DigitalCip.Deployment.OneChunker
import DigitalCip.Deployment.Ownership
import DigitalCip.Deployment.Refinement
import DigitalCip.Discipline
import DigitalCip.Invariant.Growth
import DigitalCip.Invariant.Rows
import DigitalCip.Invariant.Copies
import DigitalCip.Invariant.Frame
import DigitalCip.Invariant.Learning
import DigitalCip.Invariant.Live
import DigitalCip.Invariant.Base
import DigitalCip.Invariant.Baseline
import DigitalCip.Invariant.Handlers
import DigitalCip.Invariant.Runs
import DigitalCip.Invariant.Ownership
import DigitalCip.Invariant.Audit
import DigitalCip.Invariant.View
import DigitalCip.Invariant.Twins
import DigitalCip.Invariant.Slice
import DigitalCip.Invariant.Mirror
import DigitalCip.Invariant.Orderly
import DigitalCip.Invariant.OrderlyHandlers
import DigitalCip.Invariant.OrderlyRuns
import DigitalCip.RowConsistency
import DigitalCip.JsonText.Numbers
import DigitalCip.JsonText.Strings
import DigitalCip.JsonText.Values
import DigitalCip.ManualRetry
import DigitalCip.HandOff
import DigitalCip.Invariant.Debts
import DigitalCip.Invariant.Retained
import DigitalCip.Conservation
import DigitalCip.Invariant.Finished
import DigitalCip.Redelivery
import DigitalCip.Invariant.Outcomes
import DigitalCip.EndToEnd
import DigitalCip.Invariant.Chunkable
import DigitalCip.ChunkableText
import DigitalCip.FailureFinality
import DigitalCip.OtherHalf
import DigitalCip.EmbeddedDocuments
import DigitalCip.Python.Json
import DigitalCip.PoisonMessages
import DigitalCip.Coherence
import DigitalCip.SettledOnce
import DigitalCip.Chunker.Json
import DigitalCip.SettlementPolicy
import DigitalCip.StatusMachine
import DigitalCip.StoredData
import DigitalCip.TakingTurns
import DigitalCip.DedupeSoundness
import DigitalCip.QueueContent
import DigitalCip.AuditTrail
import DigitalCip.IdempotencyKey
import DigitalCip.UploadAtomicity
import DigitalCip.UploadRecords
import DigitalCip.NonInterference
import DigitalCip.Replaying
import DigitalCip.Chunker.Replay
import DigitalCip.Embedder.Replay
import DigitalCip.Resumable.Fair
import DigitalCip.Retrying.Budget
import DigitalCip.Chunker.Retries
import DigitalCip.Chunker.Lineage
import DigitalCip.RetryAccounting
import DigitalCip.Resumable.Cost
import DigitalCip.Invariant.Prices
import DigitalCip.Invariant.Spending
import DigitalCip.Invariant.Tracking
import DigitalCip.Draining
import DigitalCip.Invariant.Single
import DigitalCip.FaultFree
