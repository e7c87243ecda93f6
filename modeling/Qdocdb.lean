import Qdocdb.AmbiguousKeys
import Qdocdb.Answers
import Qdocdb.Batches
import Qdocdb.Calls
import Qdocdb.Candidates
import Qdocdb.Client
import Qdocdb.ClientOrder
import Qdocdb.ClientSharing
import Qdocdb.Collection
import Qdocdb.ConnectorTransactions
import Qdocdb.Connectors
import Qdocdb.DataOrder
import Qdocdb.DataStream
import Qdocdb.DatabaseHandles
import Qdocdb.Deliveries
import Qdocdb.Directories
import Qdocdb.DocumentHistory
import Qdocdb.DocumentMaps
import Qdocdb.Documents
import Qdocdb.DottedPaths
import Qdocdb.Effects
import Qdocdb.Enumeration
import Qdocdb.ErrorReports
import Qdocdb.FailedRequests
import Qdocdb.Find
import Qdocdb.FlatStore
import Qdocdb.IdEncodings
import Qdocdb.IdGen
import Qdocdb.Immutability
import Qdocdb.IndexCompleteness
import Qdocdb.IndexLinks
import Qdocdb.IndexPurge
import Qdocdb.IndexWrites
import Qdocdb.Interleaving
import Qdocdb.Invariants
import Qdocdb.Iterator
import Qdocdb.Json
import Qdocdb.KV
import Qdocdb.Keys
import Qdocdb.Lib.Announcements
import Qdocdb.Lib.BubbleSort
import Qdocdb.Lib.Codec
import Qdocdb.Lib.Iteration
import Qdocdb.Lib.LinkTable
import Qdocdb.Lib.Numerals
import Qdocdb.Lib.Prefix
import Qdocdb.Lib.RelatedLogs
import Qdocdb.Lib.Selections
import Qdocdb.Lib.Simulation
import Qdocdb.Lib.SlotList
import Qdocdb.Lib.SortedMap
import Qdocdb.Lib.StableSort
import Qdocdb.Lib.Versions
import Qdocdb.Lib.While
import Qdocdb.Lib.WriteLog
import Qdocdb.Link
import Qdocdb.LinkObjects
import Qdocdb.LinkProgress
import Qdocdb.LiveQueries
import Qdocdb.Locks
import Qdocdb.Lookup
import Qdocdb.LostReplies
import Qdocdb.LostUpdates
import Qdocdb.ModifiedIds
import Qdocdb.Multiply
import Qdocdb.Network
import Qdocdb.NetworkProgress
import Qdocdb.ObserverIds
import Qdocdb.ObserverTables
import Qdocdb.ObserverViews
import Qdocdb.Operations
import Qdocdb.OptionLists
import Qdocdb.Options
import Qdocdb.OrderBy
import Qdocdb.Ownership
import Qdocdb.Patches
import Qdocdb.Query
import Qdocdb.QuerySemantics
import Qdocdb.ReadOnly
import Qdocdb.Reload
import Qdocdb.RemoveQuery
import Qdocdb.RemoveSnapshot
import Qdocdb.Replies
import Qdocdb.Representation
import Qdocdb.Restart
import Qdocdb.Resubscription
import Qdocdb.Revert
import Qdocdb.Sequential
import Qdocdb.Serial
import Qdocdb.Serialize
import Qdocdb.Server
import Qdocdb.ServerSteps
import Qdocdb.SetQuery
import Qdocdb.ShiftLoop
import Qdocdb.Shortcut
import Qdocdb.Signals
import Qdocdb.SnapshotNumbers
import Qdocdb.StartKeys
import Qdocdb.Steps
import Qdocdb.Subscriptions
import Qdocdb.Text
import Qdocdb.Transaction
import Qdocdb.TransactionIds
import Qdocdb.Undo
import Qdocdb.UnsetFlags
import Qdocdb.Wire
import Qdocdb.Writes
