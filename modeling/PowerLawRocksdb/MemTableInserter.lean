import Mathlib.Logic.Function.Basic
import PowerLawRocksdb.BatchContents

/-!
# Inserting a write batch into the memtables

`MemTableInserter` is the handler that applies a batch. It gives the updates their
sequence numbers, one for each key, or one for each batch if the database writes
transactions before they commit. While a log is replayed it rebuilds prepared
transactions from the log, and applies them when it finds their commit marker.

Its state holds the memtables and the transactions that have been rebuilt. A memtable
is the list of what has been added to it. Updates in place, the folding of successive
merges, counters and the scheduling of flushes are left out.
-/
namespace PowerLawRocksdb.MemTableInserter
open Numerals WriteBatch BatchEntries BatchIterate BatchGrammar WriteGroups

inductive ValueType where
  | value | deletion | singleDeletion | rangeDeletion | merge | blobIndex
deriving DecidableEq

structure MemEntry where
  sequence : ℕ
  type : ValueType
  key : Bytes
  value : Bytes
deriving DecidableEq

structure MemTable where
  entries : List MemEntry
  minPrepLogReferenced : ℕ
deriving DecidableEq

/-- Range deletions have a table of their own. -/
def MemEntry.sameTable (e e' : MemEntry) : Bool :=
  (e.type == .rangeDeletion) == (e'.type == .rangeDeletion)

/-- The largest number that can be packed with a value type into eight bytes. -/
def maxSequenceNumber : ℕ := 2 ^ 56 - 1

/-- `Add` returns false if the key is there with the same sequence number. That the number
can be packed is asserted. -/
def MemTable.add (m : MemTable) (e : MemEntry) : Option (Option MemTable) :=
  if maxSequenceNumber < e.sequence then none
  else if m.entries.any fun e' =>
      e'.sameTable e && e'.key == e.key && e'.sequence == e.sequence then
    some none
  else some (some { m with entries := m.entries ++ [e] })

def MemTable.refLogContainingPrepSection (m : MemTable) (log : ℕ) : MemTable :=
  if log < m.minPrepLogReferenced ∨ m.minPrepLogReferenced = 0 then
    { m with minPrepLogReferenced := log }
  else m

structure ColumnFamily where
  name : String
  tableFactory : String
  deleteRangeSupported : Bool
  logNumber : ℕ
  mem : MemTable

abbrev ColumnFamilies := UInt32 → Option ColumnFamily

/-- What an inserter is constructed with, and whether the database allows two-phase
commit. The log number is zero unless a log is replayed. -/
structure Options where
  ignoreMissingColumnFamilies : Bool
  recoveringLogNumber : ℕ
  concurrentMemtableWrites : Bool
  seqPerBatch : Bool
  batchPerTxn : Bool
  allow2pc : Bool

def Options.writeAfterCommit (o : Options) : Bool := !o.seqPerBatch

def Options.writeBeforePrepare (o : Options) : Bool := !o.batchPerTxn

def Options.recovering (o : Options) : Prop := o.recoveringLogNumber ≠ 0

instance (o : Options) : Decidable o.recovering := inferInstanceAs (Decidable (_ ≠ _))

structure BatchInfo where
  logNumber : ℕ
  batch : Bytes
  batchCnt : ℕ

/-- The batches of a transaction by their first sequence numbers. -/
structure RecoveredTransaction where
  batches : List (ℕ × BatchInfo)
  unprepared : Bool

/-- The keys seen with the current sequence number. -/
structure DuplicateDetector where
  batchSeq : ℕ
  keys : List (UInt32 × Bytes)

structure Inserter where
  sequence : ℕ
  columnFamilies : ColumnFamilies
  logNumberRef : ℕ
  rebuildingTrx : Option Bytes
  rebuildingTrxSeq : ℕ
  unpreparedBatch : Bool
  duplicateDetector : DuplicateDetector
  recoveredTransactions : List (Bytes × RecoveredTransaction)

section
variable (o : Options)

def Inserter.maybeAdvanceSeq (i : Inserter) (batchBoundary : Bool) : Inserter :=
  if batchBoundary = o.seqPerBatch then { i with sequence := i.sequence + 1 } else i

/-- It is undefined for a column family that has been dropped. -/
def Inserter.isDuplicateKeySeq (i : Inserter) (cf : UInt32) (key : Bytes) :
    Option (Bool × Inserter) :=
  let d := i.duplicateDetector
  if i.sequence < d.batchSeq ∨ (i.columnFamilies cf).isNone then none
  else
    let keys := if d.batchSeq ≠ i.sequence then [] else d.keys
    let seen := decide ((cf, key) ∈ keys)
    some (seen, { i with
      duplicateDetector := ⟨i.sequence, if seen then [(cf, key)] else (cf, key) :: keys⟩ })

/-- `SeekToColumnFamily`: the status for an update that is left out, or the column family. -/
def Inserter.seekToColumnFamily (i : Inserter) (cf : UInt32) : Except Status ColumnFamily :=
  match i.columnFamilies cf with
  | none =>
      .error (if o.ignoreMissingColumnFamilies then .ok
        else .invalidArgument "Invalid column family specified in write batch")
  | some family =>
      if o.recovering ∧ o.recoveringLogNumber < family.logNumber then .error .ok
      else if 0 < i.logNumberRef then
        .ok { family with mem := family.mem.refLogContainingPrepSection i.logNumberRef }
      else .ok family

/-- A call on the transaction that is being rebuilt. Its status is ignored. -/
def Inserter.rebuild (i : Inserter) (u : Update) : Inserter :=
  { i with rebuildingTrx := i.rebuildingTrx.map fun rep => (u.apply rep).toOption.getD rep }

/-- An update whose column family is missing or has been flushed. Only its key is kept,
for a transaction that has been written before its commit. -/
def Inserter.skip (i : Inserter) (status : Status) (cf : UInt32) (key : Bytes) (u : Update) :
    Option (Status × Inserter) :=
  if i.rebuildingTrx.isNone then some (status, i.maybeAdvanceSeq o false)
  else if o.writeAfterCommit then none
  else do
    let (batchBoundary, i) ← (i.rebuild u).isDuplicateKeySeq cf key
    return (status, i.maybeAdvanceSeq o batchBoundary)

def Inserter.setColumnFamily (i : Inserter) (cf : UInt32) (family : ColumnFamily) : Inserter :=
  { i with columnFamilies := Function.update i.columnFamilies cf (some family) }

/-- The addition to the memtable. A key that is there with the same sequence number is
tried again with the next one. -/
def Inserter.add (i : Inserter) (cf : UInt32) (family : ColumnFamily) (type : ValueType)
    (key value : Bytes) (u : Update) : Option (Status × Inserter) :=
  match family.mem.add ⟨i.sequence, type, key, value⟩ with
  | none => none
  | some none =>
      if o.seqPerBatch then
        some (.tryAgain "key+seq exists",
          ((i.setColumnFamily cf family).maybeAdvanceSeq o true).maybeAdvanceSeq o false)
      else none
  | some (some mem) =>
      let i := i.setColumnFamily cf { family with mem }
      if i.rebuildingTrx.isSome ∧ o.writeAfterCommit then none
      else some (.ok, (i.rebuild u).maybeAdvanceSeq o false)

/-- What the methods for updates have in common. `check` is a last reason to refuse. -/
def Inserter.update (i : Inserter) (cf : UInt32) (type : ValueType) (key value : Bytes)
    (u : Update) (check : ColumnFamily → Option Status) : Option (Status × Inserter) :=
  if o.writeAfterCommit ∧ i.rebuildingTrx.isSome then some (.ok, i.rebuild u)
  else
    match i.seekToColumnFamily o cf with
    | .error status => i.skip o status cf key u
    | .ok family =>
        match check family with
        | some status => some (status, i.setColumnFamily cf family)
        | none => i.add o cf family type key value u

/-- A transaction is rebuilt with a plain value in any case. -/
def putCFImpl (type : ValueType) (cf : UInt32) (key value : Bytes) (i : Inserter) :
    Option (Status × Inserter) :=
  i.update o cf type key value (.put cf key value) fun _ => none

def putCF : UInt32 → Bytes → Bytes → Inserter → Option (Status × Inserter) := putCFImpl o .value

def putBlobIndexCF : UInt32 → Bytes → Bytes → Inserter → Option (Status × Inserter) :=
  putCFImpl o .blobIndex

def deleteCF (cf : UInt32) (key : Bytes) (i : Inserter) : Option (Status × Inserter) :=
  i.update o cf .deletion key [] (.delete cf key) fun _ => none

def singleDeleteCF (cf : UInt32) (key : Bytes) (i : Inserter) : Option (Status × Inserter) :=
  i.update o cf .singleDeletion key [] (.singleDelete cf key) fun _ => none

def deleteRangeCF (cf : UInt32) (beginKey endKey : Bytes) (i : Inserter) :
    Option (Status × Inserter) :=
  i.update o cf .rangeDeletion beginKey endKey (.deleteRange cf beginKey endKey) fun family =>
    if family.deleteRangeSupported then none
    else some (.notSupported ("DeleteRange not supported for table type " ++ family.tableFactory ++
      " in CF " ++ family.name))

def mergeCF (cf : UInt32) (key value : Bytes) (i : Inserter) : Option (Status × Inserter) :=
  if o.concurrentMemtableWrites then none
  else i.update o cf .merge key value (.merge cf key value) fun _ => none

def markBeginPrepare (unprepare : Bool) (i : Inserter) : Option (Status × Inserter) :=
  if i.rebuildingTrx.isSome then none
  else if o.recovering then
    if !o.allow2pc then
      some (.notSupported
        "WAL contains prepared transactions. Open with TransactionDB::Open().", i)
    else if i.unpreparedBatch then none
    else some (.ok, { i with
      rebuildingTrx := some empty
      rebuildingTrxSeq := i.sequence
      unpreparedBatch := unprepare })
  else some (.ok, i)

/-- `InsertRecoveredTransaction`. A second batch is possible only behind an unprepared one. -/
def Inserter.insertRecoveredTransaction (i : Inserter) (name : Bytes) (info : BatchInfo) :
    Option Inserter :=
  let rest := i.recoveredTransactions.filter fun r => r.1 ≠ name
  match i.recoveredTransactions.find? fun r => r.1 = name with
  | none =>
      some { i with
        recoveredTransactions :=
          rest ++ [(name, ⟨[(i.rebuildingTrxSeq, info)], i.unpreparedBatch⟩)] }
  | some (_, trx) =>
      if !trx.unprepared ∨ i.rebuildingTrxSeq ∈ trx.batches.map Prod.fst then none
      else some { i with
        recoveredTransactions :=
          rest ++ [(name, ⟨trx.batches ++ [(i.rebuildingTrxSeq, info)], i.unpreparedBatch⟩)] }

def Inserter.deleteRecoveredTransaction (i : Inserter) (name : Bytes) : Inserter :=
  { i with recoveredTransactions := i.recoveredTransactions.filter fun r => r.1 ≠ name }

def markEndPrepare (name : Bytes) (i : Inserter) : Option (Status × Inserter) :=
  match i.rebuildingTrx with
  | none => if o.recovering then none else some (.ok, i.maybeAdvanceSeq o true)
  | some batch =>
      if o.recovering ∧ o.allow2pc then do
        let batchCnt := if o.writeAfterCommit then 0 else i.sequence - i.rebuildingTrxSeq + 1
        let i ← i.insertRecoveredTransaction name ⟨o.recoveringLogNumber, batch, batchCnt⟩
        return (.ok, { i with rebuildingTrx := none }.maybeAdvanceSeq o true)
      else none

def markNoop (emptyBatch : Bool) (i : Inserter) : Option (Status × Inserter) :=
  some (.ok, if emptyBatch then i else i.maybeAdvanceSeq o true)

/-- `replay` iterates over the batch of the transaction with the same inserter. -/
def markCommit (replay : Bytes → Inserter → Option (Status × Inserter)) (name : Bytes)
    (i : Inserter) : Option (Status × Inserter) :=
  if o.recovering then
    match i.recoveredTransactions.find? fun r => r.1 = name with
    | none => some (.ok, i.maybeAdvanceSeq o true)
    | some (_, trx) =>
        if i.logNumberRef ≠ 0 then none
        else if o.writeAfterCommit then
          match trx.batches with
          | [(_, info)] => do
              let (status, i) ← replay info.batch { i with logNumberRef := info.logNumber }
              let i := { i with logNumberRef := 0 }
              let i := if status = .ok then i.deleteRecoveredTransaction name else i
              return (status, i.maybeAdvanceSeq o true)
          | _ => none
        else some (.ok, (i.deleteRecoveredTransaction name).maybeAdvanceSeq o true)
  else if o.writeAfterCommit ∧ i.logNumberRef = 0 then none
  else some (.ok, i.maybeAdvanceSeq o true)

def markRollback (name : Bytes) (i : Inserter) : Option (Status × Inserter) :=
  let i := if o.recovering then i.deleteRecoveredTransaction name else i
  some (.ok, i.maybeAdvanceSeq o true)

/-- The handler, given what it does at a commit marker. -/
def handler (commit : Bytes → Inserter → Option (Status × Inserter)) : Handler Inserter where
  putCF := putCF o
  deleteCF := deleteCF o
  singleDeleteCF := singleDeleteCF o
  deleteRangeCF := deleteRangeCF o
  mergeCF := mergeCF o
  putBlobIndexCF := putBlobIndexCF o
  logData _ i := i
  markBeginPrepare := markBeginPrepare o
  markEndPrepare := markEndPrepare o
  markCommit := commit
  markRollback := markRollback o
  markNoop := markNoop o
  continues i := (true, i)
  writeAfterCommit := o.writeAfterCommit
  writeBeforePrepare := o.writeBeforePrepare

/-- A transaction that is replayed holds updates only, so that there is no commit
marker inside it. -/
def inserter : Handler Inserter :=
  handler o (markCommit o (handler o fun _ _ => none).iterate)

end

/-- A member of a write group, with its part for the log. -/
structure Writer extends GroupWriter where
  disableMemtable : Bool
  logRef : ℕ

def Writer.shouldWriteToMemtable (w : Writer) : Bool := !w.callbackFailed && !w.disableMemtable

/-- A new inserter. -/
def Inserter.start (sequence : ℕ) (columnFamilies : ColumnFamilies)
    (recoveredTransactions : List (Bytes × RecoveredTransaction)) : Inserter where
  sequence
  columnFamilies
  logNumberRef := 0
  rebuildingTrx := none
  rebuildingTrxSeq := 0
  unpreparedBatch := false
  duplicateDetector := ⟨0, []⟩
  recoveredTransactions

/-- `InsertInto` for a write group, one writer after another. -/
def insertIntoGroup (o : Options) : List Writer → Inserter → Option (Status × Inserter)
  | [], i => some (.ok, i)
  | w :: group, i =>
      if w.callbackFailed then insertIntoGroup o group i
      else if !w.shouldWriteToMemtable then insertIntoGroup o group (i.maybeAdvanceSeq o true)
      else do
        let (status, i) ← (inserter o).iterate (setSequence w.batch i.sequence)
          { i with logNumberRef := w.logRef }
        if status = .ok then insertIntoGroup o group i else return (status, i)

def sequenceOf (rep : Bytes) : ℕ := ofLittleEndian (rep.take 8)

/-- `InsertInto` for a batch that is read from a log. -/
def insertIntoBatch (o : Options) (rep : Bytes) (columnFamilies : ColumnFamilies)
    (recoveredTransactions : List (Bytes × RecoveredTransaction)) : Option (Status × Inserter) :=
  (inserter o).iterate rep (.start (sequenceOf rep) columnFamilies recoveredTransactions)

end PowerLawRocksdb.MemTableInserter
