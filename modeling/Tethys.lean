import Tethys.Thread.Turns
import Tethys.Thread.Approvals
import Tethys.Thread.Archive
import Tethys.Thread.Transcript
import Tethys.Thread.Materialization
import Tethys.Frontend.Agreement
import Tethys.Frontend.Stream
import Tethys.Frontend.History
import Tethys.Acp.Patches
import Tethys.Acp.Sessions
import Tethys.AgentServers.Grace
import Tethys.Store.Cut
import Tethys.Git.Undo
import Tethys.Sync.Workspaces
import Tethys.Sync.Jail
import Tethys.Sync.Rollback
import Tethys.Sync.RoundTrip
import Tethys.Core.SingleFlight
import Tethys.Core.Worktree
import Tethys.Core.Attachments
import Tethys.Core.Updates
import Tethys.Sync.Decisions
import Tethys.Git.Archive
import Tethys.Git.Ancestry
import Tethys.Git.Deletion
import Tethys.Acp.MapV1
import Tethys.Acp.MessageRuns
import Tethys.Core.Projections
import Tethys.Sync.Secrets
import Tethys.Acp.Handoff
import Tethys.Lib.Volume
import Tethys.Sync.ImportSteps
import Tethys.Sync.Staging
import Tethys.Sync.Search
import Tethys.Sync.Chosen
import Tethys.Sync.Traces
import Tethys.Git.Hunks
import Tethys.Git.Patches
import Tethys.Git.Display
import Tethys.Core.GitRegistry
import Tethys.Core.TurnEdges
import Tethys.Git.Globs
import Tethys.Git.Bootstrap
import Tethys.Core.WorktreeCaches
import Tethys.Core.WorktreeRollback
import Tethys.Git.Summary
import Tethys.Lib.Batches
import Tethys.Git.Discard
import Tethys.Git.TakeBack
import Tethys.Git.Records
import Tethys.Frontend.Groups
import Tethys.Git.HunkCache
import Tethys.Lib.Tally
import Tethys.Sync.Caps
import Tethys.Sync.Remote
import Tethys.Lib.Slices
import Tethys.Store.Blobs
import Tethys.Sync.ImportScan
import Tethys.Lib.Pieces
import Tethys.Sync.GithubSpecs
import Tethys.Sync.Spellings
import Tethys.Core.Composer
import Tethys.AgentServers.Recovery
import Tethys.AgentServers.Ladder
import Tethys.Supervisor.Cancel
import Tethys.Supervisor.Stderr
import Tethys.Store.Migrations
import Tethys.Store.Puts
import Tethys.Sync.AtomicWrites
import Tethys.Store.Tail
import Tethys.Core.Verify
import Tethys.Acp.Answers
import Tethys.Core.Fleet
import Tethys.Core.Commands
import Tethys.Frontend.Shown
import Tethys.Lib.Ddl
