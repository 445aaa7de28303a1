import LedgerDatabase.Common.Equiv.Calls
import LedgerDatabase.Distributed.Equiv.Audit
import LedgerDatabase.Distributed.Equiv.BatchGet
import LedgerDatabase.Distributed.Equiv.Promises
import LedgerDatabase.Distributed.Equiv.QldbClient
import LedgerDatabase.Distributed.Equiv.QldbStore
import LedgerDatabase.Distributed.Equiv.Report
import LedgerDatabase.Distributed.Equiv.ShardClient
import LedgerDatabase.Distributed.Equiv.TCPTransport
import LedgerDatabase.Distributed.Equiv.Verification
import LedgerDatabase.Distributed.Equiv.VerifyClient
import LedgerDatabase.Distributed.Equiv.VersionStore
import LedgerDatabase.Distributed.Equiv.Vr.AtMostOnce
import LedgerDatabase.Distributed.Equiv.Vr.Log
import LedgerDatabase.Distributed.Equiv.Vr.Unreplicated
import LedgerDatabase.Ledgerdb.Equiv.BlockData
import LedgerDatabase.Ledgerdb.Equiv.GetVersions
import LedgerDatabase.Ledgerdb.Equiv.MerkleSound
import LedgerDatabase.Ledgerdb.Equiv.Mpt.Completeness
import LedgerDatabase.Ledgerdb.Equiv.Mpt.RemoveCanonical
import LedgerDatabase.Ledgerdb.Equiv.Skiplist.Reassign
import LedgerDatabase.Qldb.Equiv.BTree.Ids
import LedgerDatabase.Qldb.Equiv.BTree.SetKey
import LedgerDatabase.Qldb.Equiv.Isolation
import LedgerDatabase.Qldb.Equiv.Versions
import LedgerDatabase.Sqlledger.Equiv.DetailProof
import LedgerDatabase.Sqlledger.Equiv.Namespaces
