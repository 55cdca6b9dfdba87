import Tinydb.Types.Damaged
import Tinydb.Concurrent.RWLock
import Tinydb.Tx.WalDamage
import Tinydb.Tx.WalTruncate
import Tinydb.Tx.WalShared
import Tinydb.Tx.CommitStamp
import Tinydb.Tx.Undo
import Tinydb.Tx.History
import Tinydb.Tx.Restart
import Tinydb.Sql.Rejection
import Tinydb.Server.Parameters
import Tinydb.Server.Classify
import Tinydb.Server.Transactions
import Tinydb.Executor.ThreeValued
import Tinydb.Storage.HeapReject
import Tinydb.Storage.PoolOrder
import Tinydb.Storage.PoolCoherence
import Tinydb.Index.NodePage
import Tinydb.Index.IndexLookup
import Tinydb.Index.Duplicates
import Tinydb.Index.CatalogFile
import Tinydb.Jdbc.RowBounds
import Tinydb.Jdbc.PreparedStatement
import Tinydb.Client.Transaction
import Tinydb.Executor.OrderedSelect
import Tinydb.Executor.GroupBy
import Tinydb.Executor.JoinList
