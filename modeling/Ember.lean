import Ember.Foundation.Runs
import Ember.Foundation.HoldBack
import Ember.Foundation.Transducer
import Ember.Foundation.Utf8Stream
import Ember.Foundation.Markers
import Ember.Foundation.JsonText
import Ember.SerdeJson
import Ember.Foundation.EventStream
import Ember.Events.Server
import Ember.Events.Vscode
import Ember.Events.Intellij
import Ember.Events.Resume
import Ember.EditorConn.Protocol
import Ember.EditorConn.Link
import Ember.Client.Wire
import Ember.Client.Transcript
import Ember.Client.State
import Ember.Client.Session
import Ember.Client.Convergence
import Ember.Client.Teams
import Ember.App.Mentions
import Ember.App.Outbox
import Ember.Approvals
import Ember.Server.Store
import Ember.Sync.World
import Ember.Sync.Status
import Ember.Sync.Meta
import Ember.Server.A2a.Messages
import Ember.Server.A2a.Hub
import Ember.Server.A2a.Books
import Ember.Server.A2a.Delivery
import Ember.EditorConn.ExtHost
import Ember.Editor.Coords
import Ember.Editor.Widget
import Ember.Editor.Registry
import Ember.Editor.CodeLens
import Ember.Editor.Inline
import Ember.Editor.Diagnostics
import Ember.Editor.Hover
import Ember.Editor.Document
import Ember.Editor.Engine
import Ember.Editor.Handle
import Ember.Editor.Frames
import Ember.Editor.Providers
import Ember.Editor.Disk
import Ember.Foundation.FileTree
import Ember.Node.Policy
import Ember.Foundation.History
import Ember.Server.Agents.AgyRun
import Ember.Server.Agents.Antigravity
import Ember.Server.Agents.HookGate
import Ember.Node.Term.Control
import Ember.Node.Term.Stream
import Ember.Foundation.Endings
import Ember.Notebook.Parser
import Ember.Notebook.Cells
import Ember.Notebook.Bodies
import Ember.Notebook.Chunks
import Ember.Notebook.RoundTrip
import Ember.Notebook.Wrapping
import Ember.Server.A2a.Team
import Ember.Server.A2a.TeamLimits
import Ember.Foundation.Orbit
import Ember.Server.Schedules.Timing
import Ember.Server.Schedules.Scheduler
import Ember.Server.Schedules.Accounting
import Ember.Server.Schedules.Kept
import Ember.Server.Schedules.Intervals
import Ember.Server.Schedules.Followed
import Ember.Server.Computers.Mounts
import Ember.Server.Computers.MountTable
import Ember.Foundation.FairLock
import Ember.Server.Computers.Starts
import Ember.Server.Computers.Locks
import Ember.Server.Computers.Switching
import Ember.Server.Computers.Shim
import Ember.Foundation.Arrange
import Ember.Intellij.CellSync
import Ember.Intellij.Matched
import Ember.Intellij.Reconcile
import Ember.Intellij.Flush
import Ember.Collab.Manager
import Ember.Collab.Mirror
import Ember.Collab.DocumentState
import Ember.Collab.DocModel
import Ember.Collab.Agreement
import Ember.Editor.Resync
import Ember.EditorConn.Places
import Ember.Foundation.StableSort
import Ember.EditorConn.Edits
import Ember.Editor.Decorations
import Ember.Foundation.Calls
import Ember.Transport.Gate
import Ember.Server.Devices
import Ember.Server.History
import Ember.Server.Mcp
import Ember.Server.ChatGpt
import Ember.Server.Browser
import Ember.Server.BrowserProcesses
import Ember.Hub.Registration
import Ember.Server.Hub
import Ember.Hub.Revocation
import Ember.Proxy.RelayHub
import Ember.Node.Exec
import Ember.Node.Hub
import Ember.EditorConn.Acks
import Ember.Foundation.Reader
import Ember.EditorConn.FrameDecoder
import Ember.Foundation.Utf8
import Ember.EditorConn.Ipc
import Ember.EditorConn.Rpc
import Ember.EditorConn.RpcPeer
import Ember.Editor.Globs
import Ember.Server.Sessions
import Ember.EditorConn.Connection
import Ember.Editor.Dirty
import Ember.Editor.LensRuns
import Ember.Server.A2a.Targets
import Ember.Server.A2a.Tasks
import Ember.Server.A2a.SendLimits
import Ember.Server.A2a.TaskGuard
import Ember.Server.A2a.Scope
import Ember.Server.Agents.Acp
import Ember.Client.TurnShown
import Ember.Node.Term.Answers
import Ember.Server.Reaper
import Ember.Node.Egress
import Ember.Transport.Dialer
import Ember.Node.JobLog
import Ember.Node.ExecSession
import Ember.Foundation.Conduit
import Ember.Node.Relay
import Ember.Vscode.RunTracker
import Ember.Server.Responses
import Ember.Editor.Ghost
import Ember.EditorConn.Offsets
import Ember.Foundation.Regroup
import Ember.Hub.Z32
import Ember.Foundation.Cuts
import Ember.Node.Harvest
import Ember.Foundation.PrefixCode
import Ember.Node.Term.Report
import Ember.Foundation.Ordinals
import Ember.Editor.Ids
import Ember.Server.Computers.Notice
import Ember.Server.Computers.Uses
import Ember.Foundation.Tables
import Ember.Server.Computers.RemoteFs
import Ember.EditorConn.Recovery
import Ember.Server.Computers.Invocation
