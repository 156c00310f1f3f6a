import Bellows.Lib.Run
import Bellows.Lib.Assoc
import Bellows.Lib.Text
import Bellows.Lib.Checked
import Bellows.Lib.Until
import Bellows.Lease.Protocol
import Bellows.Lease.Scheduler
import Bellows.Lease.SchedulerFacts
import Bellows.Lease.SchedulerInv
import Bellows.Lease.GrantOrder
import Bellows.Lease.Session
import Bellows.Lease.Server
import Bellows.Lease.ServerFacts
import Bellows.Lease.Disconnect
import Bellows.Lease.Cancel
import Bellows.Core.DepInfo
import Bellows.Core.DepInfoFacts
import Bellows.Core.Manifest
import Bellows.Core.Gc
import Bellows.Core.GcFacts
import Bellows.Core.PlanSpec
import Bellows.Lib.Batches
import Bellows.Collect.Collection
import Bellows.Collect.DryRun
import Bellows.Core.DeclaredCommand
import Bellows.Core.PutCandidate
import Bellows.Core.CandidateHistory
import Bellows.Core.Store
import Bellows.Core.StoreFacts
import Bellows.Core.PathNormalizer
import Bellows.Core.PathNormalizerFacts
import Bellows.Cli.FileSystem
import Bellows.Cli.Capture
import Bellows.Cli.CaptureFacts
import Bellows.Collect.System
import Bellows.Collect.Steps
import Bellows.Collect.CollectorSteps
import Bellows.Collect.Complete
import Bellows.Collect.Shelter
import Bellows.Collect.Candidates
import Bellows.Collect.Wrappers
import Bellows.Collect.Records
import Bellows.Service.BuildLease
import Bellows.Service.Execute
import Bellows.Relay.Order
import Bellows.Relay.System
import Bellows.Lib.Tally
import Bellows.Relay.Accounting
import Bellows.Relay.Publication
import Bellows.Access.Lines
import Bellows.Access.System
import Bellows.Access.Retention
import Bellows.Collect.Archives
import Bellows.Lib.Marks
import Bellows.Lib.Spelling
import Bellows.Core.Localize
import Bellows.Lib.KeyedSort
import Bellows.Core.CandidateManifest
import Bellows.Cli.Leak
import Bellows.Cli.Roots
import Bellows.Cli.Candidate
import Bellows.Cli.CandidateFacts
import Bellows.Cli.FileTree
import Bellows.Cli.Pins
import Bellows.Cli.Agreement
import Bellows.Cli.Listing
import Bellows.Cli.DirectoryInputs
import Bellows.Cli.UnmodeledOptions
import Bellows.Cli.LocalizedPaths
import Bellows.Cli.RestoreOutputs
import Bellows.Core.ActionKey
import Bellows.Cli.Devirtualize
import Bellows.Cli.LinkCommand
import Bellows.Lease.Reorder
import Bellows.Core.RewriteDepInfo
import Bellows.Cli.Ownership
import Bellows.Cli.RemoteBlobs
import Bellows.Cli.Archive
import Bellows.Cli.DigestFacts
import Bellows.Core.DeclaredKey
import Bellows.Core.ReplaceBytes
import Bellows.Lease.Duration
import Bellows.Cli.Diagnostics
import Bellows.Cli.Impact
import Bellows.Collect.Report
import Bellows.Cli.Destination
import Bellows.Cli.RestoredTree
import Bellows.Cli.SingleFlight
import Bellows.Cli.Serving
import Bellows.Cli.Explanation
import Bellows.Cli.DeclaredRuns
import Bellows.Core.DiskStore
import Bellows.Core.DiskStoreFacts
import Bellows.Core.DiskStoreRuns
