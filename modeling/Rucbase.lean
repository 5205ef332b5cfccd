import Rucbase.LockGroup
import Rucbase.RecordMap
import Rucbase.CatalogText
import Rucbase.IntentionLocks
import Rucbase.Rollback
import Rucbase.ReplacerQueue
import Rucbase.AbortRuns
import Rucbase.PoolReads
import Rucbase.IndexPins
import Rucbase.JoinColumns
import Rucbase.RowStatements
import Rucbase.StoredValues
import Rucbase.IndexHeader
import Rucbase.DropTable
import Rucbase.IndexNames
import Rucbase.KeyOrder
import Rucbase.NodeBytes
import Rucbase.PageBytes
import Rucbase.RecordPrinter
import Rucbase.LogRecord
import Rucbase.Sessions
