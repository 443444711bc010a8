import PowerLawRocksdb.LiveInsertion

/-!
# The life cycle of logs and memtables

A write group is logged in one record and inserted into the memtables. A memtable that is
full is sealed, and a new log is begun with the new memtable. Sealed memtables are flushed
from the oldest on. A flush records in the manifest which logs the column family still
needs, and logs that no column family needs are deleted. When the database is opened, the
logs that are left are replayed.

All writes are logged, and each of the steps is taken as a whole. Column families are
neither created nor dropped. With two-phase commit a flush also records from which log on
the logs are needed at all. Older logs are then deleted, or skipped by the recovery.
-/
namespace PowerLawRocksdb.LogLifeCycle
open Numerals WriteBatch BatchGrammar BatchIterate WriteGroups MemTableInserter

/-- A memtable that is not written any more, and the log that was begun then. -/
structure Sealed where
  entries : List MemEntry
  nextLogNumber : ℕ
  minPrepLogReferenced : ℕ

/-- A column family with its flushed data. Its `logNumber` is kept in memory, and may be
ahead of the one in the manifest. -/
structure Family extends ColumnFamily where
  imm : List Sealed
  tables : List MemEntry
  manifestLogNumber : ℕ

structure LogFile where
  number : ℕ
  records : List Bytes

structure Transaction where
  name : Bytes
  logNumber : ℕ
  batch : Bytes

structure Database where
  allow2pc : Bool
  ids : List UInt32
  families : UInt32 → Option Family
  closed : List LogFile
  current : LogFile
  lastSequence : ℕ
  transactions : List Transaction
  minLogNumberToKeep2pc : ℕ

/-- What the threads of a write group ask for. A commit can bring updates of its own. -/
inductive Request where
  | write (updates : List Update)
  | prepare (name : Bytes) (updates : List Update)
  | commit (name : Bytes) (updates : List Update)
  | rollback (name : Bytes)

/-- The batch of a transaction begins with a no-op, which becomes the begin marker. -/
def preparedBatch (name : Bytes) (updates : List Update) : Bytes :=
  build (.insertNoop :: updates ++ [.markEndPrepare name true false])

/-- The writer of a request. At a commit the prepared batch is appended behind the
termination point. -/
def Request.writer (transactions : List Transaction) : Request → Option Writer
  | .write updates => some ⟨plain (build updates), false, 0⟩
  | .prepare name updates => some ⟨plain (preparedBatch name updates), true, 0⟩
  | .commit name updates =>
      (transactions.find? fun t => t.name = name).map fun t =>
        let working := build (updates ++ [.markCommit name])
        ⟨⟨append working (plain t.batch), false, some (working.length, count working)⟩, false,
          t.logNumber⟩
  | .rollback name => some ⟨plain (build [.markRollback name]), false, 0⟩

def Request.complete (log : ℕ) (transactions : List Transaction) : Request → List Transaction
  | .write _ => transactions
  | .prepare name updates => transactions ++ [⟨name, log, preparedBatch name updates⟩]
  | .commit name _ | .rollback name => transactions.filter fun t => t.name ≠ name

def Database.columnFamilies (db : Database) : ColumnFamilies :=
  fun cf => (db.families cf).map Family.toColumnFamily

/-- The options of an inserter. The log number is zero while the database is open. -/
def Database.options (db : Database) (ignoreMissing : Bool) (recoveringLogNumber : ℕ) :
    Options where
  ignoreMissingColumnFamilies := ignoreMissing
  recoveringLogNumber
  concurrentMemtableWrites := false
  seqPerBatch := false
  batchPerTxn := true
  allow2pc := db.allow2pc

def Family.setColumnFamily (f : Family) (family : Option ColumnFamily) : Family :=
  { f with toColumnFamily := family.getD f.toColumnFamily }

/-- The counts of the batches are added up as a `size_t`. Each of them is an `int`. -/
def totalCount (group : List Writer) : ℕ :=
  (((group.filter Writer.shouldWriteToMemtable).map fun w : Writer =>
    (count w.batch : ℤ).bmod (2 ^ 32)).sum % 2 ^ 64).toNat

/-- `WriteImpl` for a group: the record first, then the memtables. That the last sequence
number does not decrease is asserted. -/
def Database.writeImpl (db : Database) (group : List Writer) : Option (Status × Database) := do
  let sequence := db.lastSequence + 1
  let record := setSequence (mergeBatch (group.map Writer.toGroupWriter)) sequence
  let lastSequence := (db.lastSequence + totalCount group) % 2 ^ 64
  let (status, i) ← insertIntoGroup (db.options false 0) group
    (.start sequence db.columnFamilies [])
  if lastSequence < db.lastSequence then none
  else return (status, { db with
    families := fun cf => (db.families cf).map fun f => f.setColumnFamily (i.columnFamilies cf)
    current := { db.current with records := db.current.records ++ [record] }
    lastSequence })

/-- A group whose insertion fails is not followed further. -/
def Database.write (db : Database) (group : List Request) : Option Database := do
  let writers ← group.mapM (Request.writer db.transactions)
  let (status, db) ← db.writeImpl writers
  if status = .ok then
    return { db with
      transactions := group.foldl (Request.complete db.current.number) db.transactions }
  else none

/-- A new log is begun unless nothing is in the current one. File numbers come from a
counter that other files use as well. -/
def Database.beginLog (db : Database) (number : ℕ) : Option Database :=
  if db.current.records.isEmpty then some db
  else if db.current.number < number then
    some { db with closed := db.closed ++ [db.current], current := ⟨number, []⟩ }
  else none

/-- A column family without data in memory does not need the logs so far. -/
def Family.advance (log : ℕ) (f : Family) : Family :=
  if f.mem.entries.isEmpty ∧ f.imm.isEmpty then { f with logNumber := log } else f

def Family.seal (log : ℕ) (f : Family) : Family :=
  { f with imm := f.imm ++ [⟨f.mem.entries, log, f.mem.minPrepLogReferenced⟩], mem := ⟨[], 0⟩ }

def Database.switchMemtable (db : Database) (cf : UInt32) (number : ℕ) : Option Database := do
  let creatingNewLog := !db.current.records.isEmpty
  let db ← db.beginLog number
  let log := db.current.number
  let families := if creatingNewLog then fun id => (db.families id).map (Family.advance log)
    else db.families
  let f ← families cf
  return { db with families := Function.update families cf (some (f.seal log)) }

/-- The results of flushing the `n + 1` oldest memtables are installed. The newest of them
decides which logs are still needed, and that the number never decreases is asserted. -/
def Family.flush (n : ℕ) (f : Family) : Option Family := do
  let flushed := f.imm.take (n + 1)
  let last ← flushed.getLast?
  if last.nextLogNumber < f.logNumber then none
  else return { f with
    imm := f.imm.drop (n + 1)
    tables := f.tables ++ flushed.flatMap Sealed.entries
    logNumber := last.nextLogNumber
    manifestLogNumber := last.nextLogNumber }

def leastLogNumber (families : List Family) : ℕ :=
  families.foldl (fun least f => min least f.logNumber) (2 ^ 64 - 1)

def Database.minLogNumberWithUnflushedData (db : Database) : ℕ :=
  leastLogNumber (db.ids.filterMap db.families)

/-- The least of the numbers that are not zero. It is zero if there is none. -/
def leastPositive (numbers : List ℕ) : ℕ :=
  numbers.foldl (fun least n => if 0 < n ∧ (least = 0 ∨ n < least) then n else least) 0

def Database.others (db : Database) (cf : UInt32) : List Family :=
  (db.ids.filter fun id => id ≠ cf).filterMap db.families

/-- The memtables of the column family that is flushed are passed over, also those that are
not flushed yet. -/
def Database.findMinPrepLogReferencedByMemTable (db : Database) (cf : UInt32) : ℕ :=
  leastPositive ((db.others cf).flatMap fun f =>
    f.imm.map Sealed.minPrepLogReferenced ++ [f.mem.minPrepLogReferenced])

def Database.findMinLogContainingOutstandingPrep (db : Database) : ℕ :=
  leastPositive (db.transactions.map Transaction.logNumber)

/-- `logNumber` is the one that the flush of the column family records. -/
def Database.precomputeMinLogNumberToKeep (db : Database) (cf : UInt32) (logNumber : ℕ) : ℕ :=
  let others := leastLogNumber (db.others cf)
  let least := if logNumber ≠ 0 then min logNumber others else others
  let prep := db.findMinLogContainingOutstandingPrep
  let least := if prep ≠ 0 ∧ prep < least then prep else least
  let mem := db.findMinPrepLogReferencedByMemTable cf
  if mem ≠ 0 ∧ mem < least then mem else least

def Database.flush (db : Database) (cf : UInt32) (n : ℕ) : Option Database := do
  let f ← (← db.families cf).flush n
  return { db with
    families := Function.update db.families cf (some f)
    minLogNumberToKeep2pc :=
      if db.allow2pc then
        max db.minLogNumberToKeep2pc (db.precomputeMinLogNumberToKeep cf f.logNumber)
      else db.minLogNumberToKeep2pc }

def Database.minLogNumberToKeep (db : Database) : ℕ :=
  if db.allow2pc then db.minLogNumberToKeep2pc else db.minLogNumberWithUnflushedData

/-- A log that is older than `MinLogNumberToKeep` is deleted, in any order. -/
def Database.deleteLog (db : Database) (number : ℕ) : Option Database :=
  if number < db.minLogNumberToKeep then
    some { db with closed := db.closed.filter fun l => l.number ≠ number }
  else none

inductive Action where
  | write (group : List Request)
  | switchMemtable (cf : UInt32) (number : ℕ)
  | flush (cf : UInt32) (n : ℕ)
  | deleteLog (number : ℕ)

def step (db : Database) : Action → Option Database
  | .write group => db.write group
  | .switchMemtable cf number => db.switchMemtable cf number
  | .flush cf n => db.flush cf n
  | .deleteLog number => db.deleteLog number

/-- A new database, whose first log has a number above zero. -/
def Database.init (allow2pc : Bool) (families : List (UInt32 × ColumnFamily)) (number : ℕ) :
    Database where
  allow2pc
  ids := families.map Prod.fst
  families cf := (families.lookup cf).map fun family =>
    ⟨{ family with logNumber := 0, mem := ⟨[], 0⟩ }, [], [], 0⟩
  closed := []
  current := ⟨number, []⟩
  lastSequence := 0
  transactions := []
  minLogNumberToKeep2pc := 0

/-- The state of `RecoverLogFiles`. There is no next sequence number before the first record. -/
structure Recovery where
  columnFamilies : ColumnFamilies
  recoveredTransactions : List (Bytes × RecoveredTransaction)
  nextSequence : Option ℕ

def LogFile.numbered (l : LogFile) : List (ℕ × Bytes) :=
  l.records.map fun record => (l.number, record)

def Database.numbered (db : Database) : List (ℕ × Bytes) :=
  (db.closed ++ [db.current]).flatMap LogFile.numbered

/-- The records that the recovery reads. It skips the logs that are no longer needed. -/
def Database.replayed (db : Database) : List (ℕ × Bytes) :=
  db.numbered.filter fun record => db.minLogNumberToKeep2pc ≤ record.1

section
variable (db : Database)

def Database.reopened : ColumnFamilies := fun cf =>
  (db.families cf).map fun f =>
    { f.toColumnFamily with logNumber := f.manifestLogNumber, mem := ⟨[], 0⟩ }

def Database.recoverRecord (log : ℕ) (record : Bytes) (r : Recovery) : Option (Status × Recovery) :=
  if record.length < headerSize then some (.corruption "log record too small", r)
  else
    (insertIntoBatch (db.options true log) record r.columnFamilies r.recoveredTransactions).map
      fun result =>
        (result.1, ⟨result.2.columnFamilies, result.2.recoveredTransactions,
          some result.2.sequence⟩)

def Database.recoverRecords : List (ℕ × Bytes) → Recovery → Option (Status × Recovery)
  | [], r => some (.ok, r)
  | (log, record) :: rest, r => do
      let (status, r) ← db.recoverRecord log record r
      if status = .ok then Database.recoverRecords rest r else return (status, r)

def Database.recoverLogFiles : Option (Status × Recovery) :=
  db.recoverRecords db.replayed ⟨db.reopened, [], none⟩

end

end PowerLawRocksdb.LogLifeCycle
