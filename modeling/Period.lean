import Period.Foundation.Enumeration
import Period.Scheduler.MixedEnd
import Period.Scheduler.Chosen
import Period.Scheduler.Completeness
import Period.Scheduler.Distinct
import Period.Scheduler.BugDepth
import Period.Runtime.Rows
import Period.Scheduler.YieldPattern
import Period.Foundation.RowMajor
import Period.Runtime.Yields
import Period.Foundation.Bytes
import Period.Runtime.SharedMemory
import Period.Driver.Launch
import Period.Driver.Delivery
import Period.Driver.Reproduction
import Period.Foundation.Runs
import Period.Runtime.Handshake
import Period.Foundation.Marking
import Period.Pass.Instrument
import Period.Pass.LocHash
import Period.Pass.ConConfig
import Period.Pass.ThreadReach
import Period.Foundation.Splitting
import Period.Pass.Coverage
import Period.Driver.Worklist
import Period.Scheduler.Produced
import Period.Foundation.Slots
import Period.Driver.Projection
import Period.Foundation.Rearrangement
import Period.Foundation.RearrangementCount
import Period.Foundation.Blocks
import Period.Foundation.SortedParts
import Period.Driver.Retest
import Period.Analysis.MemGroup
import Period.Analysis.SoList
import Period.Analysis.Groups
import Period.Analysis.Synthetic
import Period.Analysis.KeyPoints
import Period.Analysis.Cleaning
import Period.Interleaving.Successor
import Period.Interleaving.Iterator
import Period.Interleaving.Encoders
import Period.Interleaving.Agreement
import Period.Interleaving.LastStep
import Period.Interleaving.Count
import Period.Interleaving.Played
import Period.Scheduler.Frame
import Period.Scheduler.Resume
import Period.Scheduler.Iterate
import Period.Scheduler.Given
import Period.Scheduler.Reached
import Period.Scheduler.MixedDistinct
import Period.Scheduler.Visited
import Period.Scheduler.MixedSound
import Period.Scheduler.Kept
import Period.Scheduler.Extendable
import Period.Scheduler.VisitOrder
import Period.Scheduler.HandedOn
import Period.Scheduler.PeriodSizes
import Period.Scheduler.BoundedComplete
import Period.Runtime.LoopBound
import Period.Runtime.Bounds
import Period.Runtime.TraceEnd
import Period.Driver.ZeroNum
import Period.Driver.SavedRuns
import Period.Driver.Baseline
import Period.Driver.ErrorRecord
import Period.Driver.Incremental
import Period.Driver.Explored
import Period.Analysis.AliasedInfo
import Period.Analysis.Dump
import Period.Analysis.CarriedOver
import Period.Foundation.Aligned
import Period.Runtime.Execution
import Period.Runtime.Atomicity
import Period.Driver.Enforced
import Period.Driver.Decoded
import Period.Driver.Guarantee
import Period.Analysis.Reported
import Period.Analysis.SoFile
import Period.Driver.Selected
import Period.Analysis.Pipeline
import Period.Driver.DefaultRun
import Period.Driver.FirstSchedule
import Period.Driver.DenseReport
