import PowerLawRocksdb.Transitions
import PowerLawRocksdb.CounterSummary
import PowerLawRocksdb.StandardSort
import PowerLawRocksdb.SpaceSaving
import PowerLawRocksdb.SpaceSavingUpdate
import PowerLawRocksdb.SpaceSavingWindow
import PowerLawRocksdb.HeavyHitters
import PowerLawRocksdb.ReportWindows
import PowerLawRocksdb.TrackerInvariant
import PowerLawRocksdb.ExceptionList
import PowerLawRocksdb.Partitioner
import PowerLawRocksdb.PartitionerRange
import PowerLawRocksdb.Tiers
import PowerLawRocksdb.HotKeys
import PowerLawRocksdb.FirstReport
import PowerLawRocksdb.InventedKeys
import PowerLawRocksdb.Coordinator
import PowerLawRocksdb.CoordinatorRace
import PowerLawRocksdb.RoutingIndices
import PowerLawRocksdb.Numerals
import PowerLawRocksdb.LogFormat
import PowerLawRocksdb.LogWriter
import PowerLawRocksdb.LogReader
import PowerLawRocksdb.LogReplay
import PowerLawRocksdb.WriteBatch
import PowerLawRocksdb.WalScan
import PowerLawRocksdb.WriteGroups
import PowerLawRocksdb.BatchGrammar
import PowerLawRocksdb.WriteRuns
import PowerLawRocksdb.StateHandshake
import PowerLawRocksdb.ObsoleteFiles
import PowerLawRocksdb.WalFeeding
import PowerLawRocksdb.DirectPurge
import PowerLawRocksdb.ListenerLock
import PowerLawRocksdb.LinkedExtract
import PowerLawRocksdb.HashMapHistory
import PowerLawRocksdb.MonitoredElements
import PowerLawRocksdb.PolynomialHash
import PowerLawRocksdb.RollingHash
import PowerLawRocksdb.BatchContents
import PowerLawRocksdb.MemTableInserter
import PowerLawRocksdb.RecordReplay
import PowerLawRocksdb.RequestHistory
