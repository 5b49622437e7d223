import OsmImport.Lib.Ewkb
import OsmImport.Lib.AssocList
import OsmImport.Lib.Barrier
import OsmImport.Lib.Chains
import OsmImport.Lib.Csv
import OsmImport.Lib.BlockingQueue
import OsmImport.Lib.DecisionList
import OsmImport.Lib.KeyedInsert
import OsmImport.Lib.LastWrite
import OsmImport.Lib.Lines
import OsmImport.Lib.LittleEndian
import OsmImport.Lib.Partition
import OsmImport.Lib.Polygon
import OsmImport.Lib.Prog
import OsmImport.Lib.Records
import OsmImport.Lib.Replay
import OsmImport.Lib.Trace
import OsmImport.Types
import OsmImport.Store.OSMMMap
import OsmImport.Store.Crash
import OsmImport.Store.Proofs.Memory
import OsmImport.Store.Proofs.Insert
import OsmImport.Store.Proofs.Merge
import OsmImport.Store.Proofs.Opening
import OsmImport.Store.Proofs.NodeStore
import OsmImport.Store.Proofs.Guards
import OsmImport.Store.Proofs.MergeCrash
import OsmImport.Store.Proofs.Reopen
import OsmImport.Store.Proofs.Resize
import OsmImport.Store.Proofs.ResumeMerge
import OsmImport.Geometry.Wkb
import OsmImport.Geometry.Encoders
import OsmImport.Geometry.Multipolygon
import OsmImport.Geometry.Proofs.RoundTrip
import OsmImport.Geometry.Proofs.Wkb
import OsmImport.Geometry.Proofs.AreaRule
import OsmImport.Geometry.Proofs.Encoders
import OsmImport.Geometry.Proofs.Stitch
import OsmImport.Geometry.Proofs.Scattered
import OsmImport.Geometry.Proofs.CutRings
import OsmImport.Geometry.Proofs.Assembly
import OsmImport.Geometry.Proofs.Holes
import OsmImport.Db.Database
import OsmImport.Db.NavDB
import OsmImport.Db.Postgres
import OsmImport.Db.Cells
import OsmImport.Db.Proofs.Cells
import OsmImport.Db.Proofs.TagDiff
import OsmImport.Db.Proofs.Accepting
import OsmImport.Db.Proofs.Frame
import OsmImport.Db.Proofs.Settled
import OsmImport.Db.Proofs.TagOwners
import OsmImport.Db.Proofs.TagRouting
import OsmImport.Db.Proofs.TagParity
import OsmImport.Db.Proofs.Recovery
import OsmImport.Db.Proofs.Retry
import OsmImport.Delta.DeltaApplier
import OsmImport.Delta.Order
import OsmImport.Delta.Replicator
import OsmImport.Delta.Archive
import OsmImport.Delta.Ledger
import OsmImport.Delta.Proofs.Operations
import OsmImport.Delta.Proofs.StoreInsert
import OsmImport.Delta.Proofs.Archive
import OsmImport.Delta.Proofs.CatchUp
import OsmImport.Delta.Proofs.Ledger
import OsmImport.Delta.Proofs.NodeReads
import OsmImport.Delta.Proofs.Order
import OsmImport.Delta.Journal
import OsmImport.Delta.Proofs.Journal
import OsmImport.Delta.Proofs.Reapply
import OsmImport.Delta.Proofs.Replication
import OsmImport.Import.OSMReader
import OsmImport.Import.Producer
import OsmImport.Import.Args
import OsmImport.Import.Launch
import OsmImport.Import.Threads
import OsmImport.Import.Pipeline
import OsmImport.Import.Observation
import OsmImport.Import.Resume
import OsmImport.Import.Proofs.ResumeOffsets
import OsmImport.Import.Proofs.Script
import OsmImport.Import.Proofs.Projection
import OsmImport.Import.Proofs.NodeThread
import OsmImport.Import.Proofs.WayThread
import OsmImport.Import.Proofs.Queues
import OsmImport.Import.Proofs.Barriers
import OsmImport.Import.Proofs.Delivery
import OsmImport.Import.Proofs.Progress
import OsmImport.Import.Proofs.Termination
import OsmImport.Import.Proofs.ExactlyOnce
import OsmImport.Import.Proofs.Client
import OsmImport.Import.Proofs.WayRows
import OsmImport.Import.Proofs.WaysVisible
import OsmImport.Import.Proofs.RelationThread
import OsmImport.Import.Proofs.RelationPhase
import OsmImport.Import.Proofs.Released
import OsmImport.Import.Proofs.StoredNodes
import OsmImport.Import.Proofs.ResumeRelations
import OsmImport.Import.Proofs.TableChoice
import OsmImport.Import.Relations
import OsmImport.Delta.Proofs.RelationParity
import OsmImport.Delta.Proofs.NodeGeometry
import OsmImport.Delta.Proofs.NodeTags
import OsmImport.Delta.Proofs.Deletes
import OsmImport.Delta.Proofs.WayParity
import OsmImport.Delta.Proofs.WayReplace
import OsmImport.Import.Proofs.Lossless
import OsmImport.Lib.Decimal
import OsmImport.TagMap
import OsmImport.Delta.OSCReader
import OsmImport.Import.PrimitiveBlock
import OsmImport.Import.Proofs.BlockRoundTrip
import OsmImport.Import.Proofs.BlockBounds
import OsmImport.Import.Proofs.Launch
import OsmImport.Delta.Proofs.OSCRoundTrip
import OsmImport.Airports.AirportsLoader
import OsmImport.Airports.Proofs.CsvRoundTrip
import OsmImport.Airports.Tables
import OsmImport.Lib.Stages
import OsmImport.Airports.Loaders
import OsmImport.Airports.Documents
import OsmImport.Airports.Proofs.Load
import OsmImport.Airports.Proofs.Integrity
import OsmImport.Store.DecodeLoop
import OsmImport.Store.Proofs.DecodeLoop
import OsmImport.Import.Sequential
import OsmImport.Import.Proofs.TagAccounts
import OsmImport.Import.Proofs.WholeThreads
import OsmImport.Import.Proofs.Sequential
import OsmImport.Import.Proofs.ImportResult
import OsmImport.Import.ResumeWays
import OsmImport.Import.Proofs.BehindMerge
import OsmImport.Import.Proofs.ResumeWays
import OsmImport.Import.ResumeMerge
import OsmImport.Import.DataFile
import OsmImport.Import.Proofs.DataFile
import OsmImport.Import.Proofs.ResumeMerge
import OsmImport.Lib.Monitor
import OsmImport.Import.QueueMonitor
import OsmImport.Import.Proofs.QueueMonitor
