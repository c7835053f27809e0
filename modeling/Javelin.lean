import Javelin.KeyedList
import Javelin.Cutting
import Javelin.Path
import Javelin.Domain
import Javelin.Chunk
import Javelin.Store
import Javelin.Trees
import Javelin.Grouping
import Javelin.Levels
import Javelin.Seek
import Javelin.Build
import Javelin.Update
import Javelin.Canonical
import Javelin.Apply
import Javelin.Snapshots
import Javelin.Read
import Javelin.Diff
import Javelin.Intersect
import Javelin.Numbered
import Javelin.TreeContract
import Javelin.Normalize
import Javelin.Objects
import Javelin.Tables
import Javelin.World
import Javelin.Received
import Javelin.Chain
import Javelin.Height
import Javelin.NumberedObjects
import Javelin.Advance
import Javelin.Acceptance
import Javelin.Alignment
import Javelin.Matching
import Javelin.LineMatches
import Javelin.Diff3
import Javelin.Merge
import Javelin.MergeRounds
import Javelin.MergeSymmetry
import Javelin.MergePaths
import Javelin.Checkpoints
import Javelin.Layers
import Javelin.Publish
import Javelin.Compose
import Javelin.Later
import Javelin.Histories
import Javelin.LayerSteps
import Javelin.Commits
import Javelin.System
import Javelin.Attribution
import Javelin.Tracking
import Javelin.Ancestry
import Javelin.IndexChecks
import Javelin.NumberedRecords
import Javelin.Progress
import Javelin.Receipts
import Javelin.Indexes
import Javelin.LayerRequests
import Javelin.Versions
import Javelin.Publications
import Javelin.Commuting
import Javelin.Bytes
import Javelin.Framing
import Javelin.Outbox
import Javelin.JournalRecords
import Javelin.Journals
import Javelin.JournalRuns
import Javelin.Replays
import Javelin.ChunkCodec
import Javelin.Sessions
import Javelin.Protocol
import Javelin.VerifyChain
import Javelin.Upkeep
import Javelin.Closure
import Javelin.Intact
import Javelin.Deriving
import Javelin.ObjectClosure
import Javelin.Imports
import Javelin.Directories
import Javelin.Refresh
import Javelin.Resumption
import Javelin.Workspaces
import Javelin.Containment
import Javelin.Trails
import Javelin.Reviews
import Javelin.ReviewRuns
import Javelin.ReviewReplays
import Javelin.Tokens
import Javelin.Control
import Javelin.SignIn
import Javelin.OneShot
import Javelin.SignInRuns
import Javelin.Repositories
import Javelin.Provisioning
import Javelin.Provisioned
import Javelin.ExactlyOnce
import Javelin.Appends
import Javelin.AppendReplays
import Javelin.Access
import Javelin.Durable
import Javelin.WorldLogs
import Javelin.Checks
import Javelin.HostedPublish
import Javelin.Reviewing
import Javelin.Hosted
import Javelin.Publishes
import Javelin.HostedWrites
import Javelin.ReviewWrites
import Javelin.Restores
import Javelin.CheckedPublish
import Javelin.PublishAnswers
import Javelin.Interleaving
import Javelin.Attach
import Javelin.AttachRuns
import Javelin.Stored
import Javelin.Resumes
import Javelin.Stack
import Javelin.StackRuns
import Javelin.StatCache
import Javelin.StatCacheRuns
import Javelin.RollingBase
import Javelin.RollingBaseRuns
import Javelin.Myers
import Javelin.Blame
import Javelin.MyersOptimal
import Javelin.MyersArrays
import Javelin.Glob
import Javelin.StatCacheFile
import Javelin.CheckpointReader
import Javelin.Texts
import Javelin.CommandRecords
import Javelin.Wire
import Javelin.WireMessages
import Javelin.WireCodec
import Javelin.WireLaws
import Javelin.Frames
import Javelin.Forks
import Javelin.ExactDisks
import Javelin.RollingBaseExact
import Javelin.Ignoring
import Javelin.ThreeWay
import Javelin.Radar
import Javelin.LineTables
import Javelin.Accounting
import Javelin.OneDecision
import Javelin.CrashSafe
import Javelin.Receiving
import Javelin.Promises
import Javelin.Fetching
import Javelin.Fetches
