import GroupCommit.Allocator
import GroupCommit.Benchmark.Arguments
import GroupCommit.Benchmark.Progress
import GroupCommit.Benchmark.Session
import GroupCommit.Bytes
import GroupCommit.Bytes.LittleEndian
import GroupCommit.Checksum
import GroupCommit.Config
import GroupCommit.Error
import GroupCommit.Fault
import GroupCommit.File
import GroupCommit.Image
import GroupCommit.Log.Basic
import GroupCommit.Log.Describe
import GroupCommit.Log.Program
import GroupCommit.Log.Task
import GroupCommit.Machine.Basic
import GroupCommit.Machine.Schedule
import GroupCommit.Main
import GroupCommit.Metadata
import GroupCommit.Notifier
import GroupCommit.Numeral.Fixed
import GroupCommit.Numeral.Hexadecimal
import GroupCommit.Proofs.Alignment
import GroupCommit.Proofs.Benchmark.Counting
import GroupCommit.Proofs.Benchmark.Marks
import GroupCommit.Proofs.Benchmark.Overtaking
import GroupCommit.Proofs.Benchmark.Workers
import GroupCommit.Proofs.BlockDurability
import GroupCommit.Proofs.Checksum.Period
import GroupCommit.Proofs.Checksum.Register
import GroupCommit.Proofs.Construction
import GroupCommit.Proofs.Counters
import GroupCommit.Proofs.DeadlockFreedom
import GroupCommit.Proofs.Durability
import GroupCommit.Proofs.Faultlessness
import GroupCommit.Proofs.Folding
import GroupCommit.Proofs.Log.Answers
import GroupCommit.Proofs.Log.Balance
import GroupCommit.Proofs.Log.Blocked
import GroupCommit.Proofs.Log.Chunks
import GroupCommit.Proofs.Log.Closing
import GroupCommit.Proofs.Log.Completion
import GroupCommit.Proofs.Log.Counting
import GroupCommit.Proofs.Log.Cut
import GroupCommit.Proofs.Log.Entries
import GroupCommit.Proofs.Log.Flow
import GroupCommit.Proofs.Log.Induction
import GroupCommit.Proofs.Log.Journal
import GroupCommit.Proofs.Log.Plan
import GroupCommit.Proofs.Log.Progress
import GroupCommit.Proofs.Log.Purpose
import GroupCommit.Proofs.Log.Rest
import GroupCommit.Proofs.Log.Retirement
import GroupCommit.Proofs.Log.Run
import GroupCommit.Proofs.Log.Sequence
import GroupCommit.Proofs.Log.Simulation
import GroupCommit.Proofs.Log.SlotCalls
import GroupCommit.Proofs.Log.SlotHistory
import GroupCommit.Proofs.Log.Steps
import GroupCommit.Proofs.Log.Sweep
import GroupCommit.Proofs.Log.Tally
import GroupCommit.Proofs.Log.Trace
import GroupCommit.Proofs.Log.WakeUps
import GroupCommit.Proofs.Log.Way
import GroupCommit.Proofs.Machine.Bookkeeping
import GroupCommit.Proofs.Machine.Insertion
import GroupCommit.Proofs.Machine.Steps
import GroupCommit.Proofs.Machine.WakeUps
import GroupCommit.Proofs.Metadata
import GroupCommit.Proofs.Notifier.Courses
import GroupCommit.Proofs.Notifier.Protocol
import GroupCommit.Proofs.Poisoning
import GroupCommit.Proofs.Protocol.Account
import GroupCommit.Proofs.Protocol.Alone
import GroupCommit.Proofs.Protocol.Filling
import GroupCommit.Proofs.Protocol.Flushing
import GroupCommit.Proofs.Protocol.Generations
import GroupCommit.Proofs.Protocol.Owing
import GroupCommit.Proofs.Protocol.Picture
import GroupCommit.Proofs.Protocol.Reserving
import GroupCommit.Proofs.Protocol.Resting
import GroupCommit.Proofs.Protocol.Turn
import GroupCommit.Proofs.Protocol.Waiting
import GroupCommit.Proofs.Protocol.Writing
import GroupCommit.Proofs.Quiescence
import GroupCommit.Proofs.Record.Integrity
import GroupCommit.Proofs.Record.Outcomes
import GroupCommit.Proofs.Record.Padding
import GroupCommit.Proofs.Record.RoundTrip
import GroupCommit.Proofs.Ring.Blocks
import GroupCommit.Proofs.Ring.Spans
import GroupCommit.Proofs.SequentialTrace
import GroupCommit.Proofs.Slot.Accounts
import GroupCommit.Proofs.Slot.Changes
import GroupCommit.Proofs.Slot.Chunks
import GroupCommit.Proofs.Slot.Closure
import GroupCommit.Proofs.Slot.Contents
import GroupCommit.Proofs.Slot.Faults
import GroupCommit.Proofs.Slot.FillAndJoin
import GroupCommit.Proofs.Slot.Finality
import GroupCommit.Proofs.Slot.FullFlushes
import GroupCommit.Proofs.Slot.Generations
import GroupCommit.Proofs.Slot.History
import GroupCommit.Proofs.Slot.Ledger
import GroupCommit.Proofs.Slot.Operations
import GroupCommit.Proofs.Slot.Progress
import GroupCommit.Proofs.Slot.Releases
import GroupCommit.Proofs.Slot.Representation
import GroupCommit.Proofs.Slot.Retirements
import GroupCommit.Proofs.Slot.Returns
import GroupCommit.Proofs.Slot.Skips
import GroupCommit.Proofs.Slot.Steps
import GroupCommit.Proofs.Slot.Summary
import GroupCommit.Proofs.Slot.Trails
import GroupCommit.Proofs.Slot.Waiters
import GroupCommit.Proofs.Slot.WakeUps
import GroupCommit.Proofs.Word
import GroupCommit.Proofs.WriteDiscipline
import GroupCommit.Proofs.Writer.Agreement
import GroupCommit.Proofs.Writer.Block
import GroupCommit.Proofs.Writer.DisjointBlocks
import GroupCommit.Proofs.Writer.File
import GroupCommit.Proofs.Writer.Medium
import GroupCommit.Proofs.Writer.Offsets
import GroupCommit.Proofs.Writer.Requests
import GroupCommit.Proofs.Writer.Syncs
import GroupCommit.Record
import GroupCommit.Ring.Basic
import GroupCommit.Ring.Geometry
import GroupCommit.Ring.Span
import GroupCommit.Slot.Basic
import GroupCommit.Slot.Buffer
import GroupCommit.Slot.Describe
import GroupCommit.Slot.Phase
import GroupCommit.Slot.Program
import GroupCommit.Word
import GroupCommit.Writer.Backend
import GroupCommit.Writer.Basic
import GroupCommit.Writer.Block
import GroupCommit.Writer.File
import GroupCommit.Writer.Memory
import GroupCommit.Writer.Paced
