import SheriMl.ExecPolicy.Amend
import SheriMl.ExecPolicy.Spelling
import SheriMl.ApplyPatch.Outcome
import SheriMl.ApplyPatch.Grammar
import SheriMl.NetworkProxy.Shared
import SheriMl.Rollout.ThreadMessages
import SheriMl.Rollout.Compaction
import SheriMl.Agent.Guards
import SheriMl.Utils.Readiness
import SheriMl.Rollout.ItemIds
import SheriMl.ApplyPatch.TurnDiffTracker
import SheriMl.Sandbox.WriteBoundary
import SheriMl.Rollout.Pagination
import SheriMl.Tools.NetworkApproval
import SheriMl.Turn.RunTurn
import SheriMl.State.RowUpdates
import SheriMl.State.BackfillRuns
import SheriMl.Sandbox.MountNamespace
import SheriMl.Tui.BurstRuns
import SheriMl.Turn.LifecycleRuns
import SheriMl.Client.WebsocketRuns
import SheriMl.Auth.AccountRuns
import SheriMl.Auth.RefreshRuns
import SheriMl.Auth.Storage
import SheriMl.Config.Locking
import SheriMl.Turn.PlanResponse
import SheriMl.Exec.ItemLifecycle
import SheriMl.ExecServer.Stopwatch
import SheriMl.Mqtt.TaskHandler
import SheriMl.SheriAuth.Authority
import SheriMl.ExecServer.Framing
import SheriMl.ExecServer.Escalate
import SheriMl.ContextManager.NormalizeHistory
import SheriMl.ExecPolicy.Proposal
import SheriMl.ApplyPatch.NewContents
import SheriMl.ApplyPatch.SeekSequence
import SheriMl.Mcp.QualifyTools
import SheriMl.Memories.Stage1Claims
import SheriMl.UnifiedExec.Pruning
import SheriMl.Tools.ReadBlock
import SheriMl.Tools.ListDirWalk
import SheriMl.MessageHistory.Runs
import SheriMl.Rollout.WriterRuns
import SheriMl.Rollout.SessionNames
import SheriMl.Config.Frame
import SheriMl.Utils.DiffRoundTrip
import SheriMl.Tui.LiveWrapFragments
import SheriMl.Tui.MentionRoundTrip
import SheriMl.Tui.PasteKeys
import SheriMl.Tui.PromptExpansion
import SheriMl.ApplyPatch.Consumption
import SheriMl.UnifiedExec.AsyncWatcher
import SheriMl.SheriAuth.Atomicity
import SheriMl.Shell.OptionSafety
import SheriMl.Utils.FuzzyMatch
import SheriMl.ExecPolicyLegacy.Program
import SheriMl.Secrets.LocalBackend
import SheriMl.Client.ResponsesSse
