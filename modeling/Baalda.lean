import Baalda.Lib.Machine
import Baalda.Lib.Crdt
import Baalda.Server.DocStore
import Baalda.Server.Compaction
import Baalda.Server.VectorCache
import Baalda.Server.CrdtReset
import Baalda.Server.Backfill
import Baalda.Desktop.AckedSv
import Baalda.Desktop.DestructionGate
import Baalda.Server.LiveFanout
import Baalda.Server.FanoutProgress
import Baalda.Server.AccessView
import Baalda.Access.Tables
import Baalda.Access.Resolver
import Baalda.Access.VaultDocs
import Baalda.Access.Agreement
import Baalda.Lib.Memo
import Baalda.Lib.Slots
import Baalda.Access.Rows
import Baalda.Access.Explain
import Baalda.Access.Cache
import Baalda.Access.CreateGate
import Baalda.Desktop.SyncEngine
import Baalda.Desktop.SyncSocket
import Baalda.Desktop.SyncQueue
import Baalda.Desktop.Inbound
import Baalda.Desktop.InboundSafe
import Baalda.Desktop.LocalStore
import Baalda.Lib.TextCrdt
import Baalda.Desktop.Diff
import Baalda.Desktop.DiskRead
import Baalda.Desktop.PullReconcile
import Baalda.Desktop.NoteBridge
import Baalda.Desktop.BridgeWrites
import Baalda.Desktop.BridgeQuiet
import Baalda.Desktop.BridgeSeed
import Baalda.Lib.Bytes
import Baalda.Lib.Utf8
import Baalda.Server.BulkProtocol
import Baalda.Desktop.BootstrapCodec
import Baalda.Server.Bootstrap
import Baalda.Desktop.VaultDocStore
import Baalda.Desktop.ParkedUpdates
import Baalda.Desktop.DurableManifest
import Baalda.Desktop.NoteIndex
import Baalda.Desktop.LinkScope
import Baalda.Desktop.IndexRows
import Baalda.Desktop.IndexTruth
import Baalda.Desktop.BridgeBase
import Baalda.Desktop.DiskBase
import Baalda.Desktop.DocBatchPush
import Baalda.Desktop.BatchAccounting
import Baalda.Desktop.BinaryDeletes
import Baalda.Desktop.BinaryWindows
import Baalda.Desktop.BinaryPlanner
import Baalda.Desktop.CrdtGc
import Baalda.Server.VaultTree
import Baalda.Server.FolderMoves
import Baalda.Server.NoteTexts
import Baalda.Server.RegisterNotes
import Baalda.Server.Registration
import Baalda.Server.NoteRaces
import Baalda.Server.FileRaces
import Baalda.Server.TreeOps
import Baalda.Server.VaultRevert
import Baalda.Server.TreeLocation
import Baalda.Server.TreeRuns
import Baalda.Lib.Like
import Baalda.Server.FolderDelete
import Baalda.Server.Trash
import Baalda.Lib.Envelope
import Baalda.Server.SealedRows
import Baalda.Server.LiveDocs
import Baalda.Server.BlobRoutes
import Baalda.Server.BlobObjects
import Baalda.Server.BlobVersions
import Baalda.Desktop.InboundRemovals
import Baalda.Server.SearchIndex
import Baalda.Server.OrphanSweep
import Baalda.Desktop.SubtreeRows
import Baalda.Desktop.WikiLinks
import Baalda.Server.ShrinkBrake
import Baalda.Server.RegistryBroadcast
import Baalda.Lib.Pieces
import Baalda.Server.NoteReferences
import Baalda.Server.AttachmentGate
import Baalda.Lib.OrdMap
import Baalda.Lib.Base64
import Baalda.Server.SkillRules
import Baalda.Desktop.SkillFolder
import Baalda.Desktop.SkillInstall
import Baalda.Server.SeedRegister
import Baalda.Lib.TokenBucket
import Baalda.Server.VoiceBudget
import Baalda.Lib.Lowest
import Baalda.Server.EmptyDocs
import Baalda.Lib.Runs
import Baalda.Server.SearchTokens
import Baalda.Server.PageCodec
import Baalda.Server.SubtreeMove
import Baalda.Lib.Rewrite
import Baalda.Server.NoteInline
import Baalda.Server.NotePlaceholders
import Baalda.Server.NoteHtml
import Baalda.Server.ConvertingCompaction
import Baalda.Server.DocPushes
import Baalda.Server.ByteBudget
import Baalda.Server.KeyCache
import Baalda.Lib.Utf16
import Baalda.Server.DocWriter
import Baalda.Server.AppendKeys
import Baalda.Server.NoteAdoption
import Baalda.Server.SearchPasses
import Baalda.Lib.JsonStrings
import Baalda.Lib.Keyset
import Baalda.Server.NoteListing
import Baalda.Lib.Occurrences
import Baalda.Server.NoteAnchors
import Baalda.Lib.Spans
import Baalda.Server.NoteEdits
import Baalda.Server.JoinSeats
import Baalda.Desktop.MutatePaths
import Baalda.Server.SigninThrottle
import Baalda.Desktop.DocMap
import Baalda.Desktop.Checkpointer
