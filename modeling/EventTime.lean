import EventTime.Attempt
import EventTime.Bundle
import EventTime.Check
import EventTime.Coder.Basic
import EventTime.Coder.DataType
import EventTime.Coder.Registry
import EventTime.Coder.Shape
import EventTime.Coder.Wire
import EventTime.Combine.Accumulating
import EventTime.Combine.Accumulators
import EventTime.Combine.Basic
import EventTime.Combine.Binary
import EventTime.Combine.Iterable
import EventTime.Combine.Recipe
import EventTime.Combine.Workbench
import EventTime.Datum
import EventTime.Envelope
import EventTime.Fault
import EventTime.Number.Binary64
import EventTime.Pane.Grouper
import EventTime.Pipeline.Collection
import EventTime.Pipeline.CombineTree
import EventTime.Pipeline.ElemType
import EventTime.Pipeline.Global
import EventTime.Pipeline.Graph
import EventTime.Pipeline.Grouping
import EventTime.Pipeline.HotKey
import EventTime.Pipeline.Job
import EventTime.Pipeline.Partition
import EventTime.Pipeline.PerKey
import EventTime.Pipeline.Stage
import EventTime.Pipeline.Table
import EventTime.Proofs.Attempt
import EventTime.Proofs.Bundle
import EventTime.Proofs.Check
import EventTime.Proofs.Coder.BoundedWork
import EventTime.Proofs.Coder.Delimiting
import EventTime.Proofs.Coder.Locality
import EventTime.Proofs.Coder.Nested
import EventTime.Proofs.Coder.Numbers
import EventTime.Proofs.Combine.Assembly
import EventTime.Proofs.Combine.Bags
import EventTime.Proofs.Combine.Buffering
import EventTime.Proofs.Combine.CoderFailures
import EventTime.Proofs.Combine.Contract
import EventTime.Proofs.Combine.Fanout
import EventTime.Proofs.Combine.Grouped
import EventTime.Proofs.Combine.HotKey
import EventTime.Proofs.Combine.KeyPanes
import EventTime.Proofs.Combine.Lifted
import EventTime.Proofs.Combine.NewestFanout
import EventTime.Proofs.Combine.OnlyPanes
import EventTime.Proofs.Combine.Reducers
import EventTime.Proofs.Combine.Schedules
import EventTime.Proofs.Combine.SessionBags
import EventTime.Proofs.Combine.SessionFanout
import EventTime.Proofs.Combine.SessionParts
import EventTime.Proofs.Combine.Shapes
import EventTime.Proofs.Combine.Spreading
import EventTime.Proofs.Combine.Stages
import EventTime.Proofs.Combine.Tree
import EventTime.Proofs.Combine.View
import EventTime.Proofs.Combine.Weights
import EventTime.Proofs.Combine.Whole
import EventTime.Proofs.Failing
import EventTime.Proofs.Listings
import EventTime.Proofs.Pane.Alike
import EventTime.Proofs.Pane.Answers
import EventTime.Proofs.Pane.Apart
import EventTime.Proofs.Pane.Audit
import EventTime.Proofs.Pane.Chronicle
import EventTime.Proofs.Pane.Coherence
import EventTime.Proofs.Pane.Coverage
import EventTime.Proofs.Pane.DisjointSessions
import EventTime.Proofs.Pane.EndOfInput
import EventTime.Proofs.Pane.Fates
import EventTime.Proofs.Pane.Firing
import EventTime.Proofs.Pane.Flush
import EventTime.Proofs.Pane.InStep
import EventTime.Proofs.Pane.Ledger
import EventTime.Proofs.Pane.Lineage
import EventTime.Proofs.Pane.Logged
import EventTime.Proofs.Pane.Merges
import EventTime.Proofs.Pane.Merging
import EventTime.Proofs.Pane.Numbering
import EventTime.Proofs.Pane.OnTime
import EventTime.Proofs.Pane.Operations
import EventTime.Proofs.Pane.Reaching
import EventTime.Proofs.Pane.Recall
import EventTime.Proofs.Pane.SessionRuns
import EventTime.Proofs.Pane.Sessions
import EventTime.Proofs.Pane.TrackedRun
import EventTime.Proofs.Pane.Tracking
import EventTime.Proofs.Pane.Trail
import EventTime.Proofs.Pane.Watermark
import EventTime.Proofs.Pipeline.Buildable
import EventTime.Proofs.Pipeline.Building
import EventTime.Proofs.Pipeline.Cutting
import EventTime.Proofs.Pipeline.Evaluation
import EventTime.Proofs.Pipeline.FailedBuilds
import EventTime.Proofs.Pipeline.Jobs
import EventTime.Proofs.Pipeline.Readings
import EventTime.Proofs.Pipeline.Reordering
import EventTime.Proofs.Pipeline.RowWise
import EventTime.Proofs.Pipeline.Serving
import EventTime.Proofs.Pipeline.Table
import EventTime.Proofs.Pipeline.Upstream
import EventTime.Proofs.Splits
import EventTime.Proofs.Trigger.Addresses
import EventTime.Proofs.Trigger.Consistency
import EventTime.Proofs.Trigger.Counting
import EventTime.Proofs.Trigger.Deliveries
import EventTime.Proofs.Trigger.Delivery
import EventTime.Proofs.Trigger.Draining
import EventTime.Proofs.Trigger.Driving
import EventTime.Proofs.Trigger.EndOfWindow
import EventTime.Proofs.Trigger.Events
import EventTime.Proofs.Trigger.Finished
import EventTime.Proofs.Trigger.FirstChild
import EventTime.Proofs.Trigger.Following
import EventTime.Proofs.Trigger.Footprint
import EventTime.Proofs.Trigger.Locality
import EventTime.Proofs.Trigger.MainAndLast
import EventTime.Proofs.Trigger.MergedWindows
import EventTime.Proofs.Trigger.Ownership
import EventTime.Proofs.Trigger.Preorder
import EventTime.Proofs.Trigger.Queue
import EventTime.Proofs.Trigger.Renumbering
import EventTime.Proofs.Trigger.Repetition
import EventTime.Proofs.Trigger.Rollback
import EventTime.Proofs.Trigger.Roots
import EventTime.Proofs.Trigger.Routing
import EventTime.Proofs.Trigger.Running
import EventTime.Proofs.Trigger.Sheets
import EventTime.Proofs.Trigger.Timers
import EventTime.Proofs.Trigger.Transactions
import EventTime.Proofs.Window.Clearing
import EventTime.Proofs.Window.Components
import EventTime.Proofs.Window.Disjoint
import EventTime.Proofs.Window.Plan
import EventTime.Proofs.Window.Runs
import EventTime.Proofs.Window.SafePlan
import EventTime.Proofs.Window.Sessions
import EventTime.Proofs.Window.Sweep
import EventTime.Proofs.Window.Tiling
import EventTime.Proofs.Window.Tumbling
import EventTime.Proofs.WindowMap
import EventTime.Time
import EventTime.Trigger.Arena
import EventTime.Trigger.Basic
import EventTime.Trigger.Evaluation
import EventTime.Trigger.Leaf
import EventTime.Trigger.Outcome
import EventTime.Trigger.Policies
import EventTime.Trigger.State
import EventTime.Trigger.Tester
import EventTime.Window
import EventTime.Window.Map
import EventTime.Windowing.Fn
import EventTime.Windowing.Strategy
