import VertexDB.Persistence.Checkpoint
import VertexDB.Transaction.Serializable
import VertexDB.Transaction.SnapshotLookup
import VertexDB.Indexing.BTreeRuns
import VertexDB.Storage.BufferedRowStore
import VertexDB.Execution.AbsorbedScan
import VertexDB.Execution.RepeatedRows
import VertexDB.Execution.ExpressionLookup
import VertexDB.Storage.FailedCalls
import VertexDB.Storage.ForeignKeyNames
import VertexDB.Execution.InsertBatch
import VertexDB.Execution.NullingDelete
import VertexDB.Transaction.RestoredColumn
import VertexDB.Persistence.CommitFlush
import VertexDB.Persistence.PhysicalReplay
import VertexDB.Storage.PageLayout
import VertexDB.Parser.RecursiveCte
import VertexDB.Execution.RecursiveGroup
