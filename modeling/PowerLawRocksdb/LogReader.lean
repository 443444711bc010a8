import PowerLawRocksdb.LogFormat

/-!
# The reader of the log

The reader works on one block at a time. `ReadPhysicalRecord` returns the type of
the next fragment or a code above all types, and `ReadRecord` assembles fragments
into a logical record. It skips damaged parts and reports them, and it stops at
the end of the file, whether this falls between two records or inside one.

Reads of the file are short only at its end and do not fail, and the reader does
not retry after the end. The type byte is a signed character, so a byte from 128
on becomes a large unsigned number.
-/
namespace PowerLawRocksdb.LogReader
open Numerals LogFormat

inductive WALRecoveryMode where
  | tolerateCorruptedTailRecords
  | absoluteConsistency
  | pointInTimeRecovery
  | skipAnyCorruptedRecords
  deriving DecidableEq, Repr

/-- What `ReadPhysicalRecord` can return: the record types, and further codes. -/
inductive ReadCode where
  | type (t : RecordType)
  | eof
  | badRecord
  | badHeader
  | oldRecord
  | badRecordLen
  | badRecordChecksum
  deriving DecidableEq, Repr

def ReadCode.code : ReadCode → ℕ
  | .type t => t.code
  | .eof => 9
  | .badRecord => 10
  | .badHeader => 11
  | .oldRecord => 12
  | .badRecordLen => 13
  | .badRecordChecksum => 14

/-- The named codes. A type byte of the file can be any of them, or none. -/
def ReadCode.ofCode : ℕ → Option ReadCode
  | 0 => some (.type .zero)
  | 1 => some (.type .full)
  | 2 => some (.type .first)
  | 3 => some (.type .middle)
  | 4 => some (.type .last)
  | 5 => some (.type .recyclableFull)
  | 6 => some (.type .recyclableFirst)
  | 7 => some (.type .recyclableMiddle)
  | 8 => some (.type .recyclableLast)
  | 9 => some .eof
  | 10 => some .badRecord
  | 11 => some .badHeader
  | 12 => some .oldRecord
  | 13 => some .badRecordLen
  | 14 => some .badRecordChecksum
  | _ => none

/-- The state of the reader. The unread rest of the file stands for its position,
and `reports` for the calls of the reporter. -/
structure Reader where
  file : Bytes
  buffer : Bytes
  eof : Bool
  endOfBufferOffset : ℕ
  recycled : Bool
  checksum : Bool
  logNumber : ℕ
  reports : List (ℕ × String)

def Reader.init (file : Bytes) (checksum : Bool) (logNumber : ℕ) : Reader :=
  ⟨file, [], false, 0, false, checksum, logNumber, []⟩

def Reader.reportCorruption (r : Reader) (bytes : ℕ) (reason : String) : Reader :=
  { r with reports := r.reports ++ [(bytes, reason)] }

def Reader.reportIf (r : Reader) (cond : Bool) (bytes : ℕ) (reason : String) : Reader :=
  if cond then r.reportCorruption bytes reason else r

def Reader.readMore (r : Reader) : Reader × Option (ReadCode × ℕ) :=
  if !r.eof then
    let buffer := r.file.take blockSize
    ({ r with
        file := r.file.drop blockSize
        buffer := buffer
        eof := decide (buffer.length < blockSize)
        endOfBufferOffset := r.endOfBufferOffset + buffer.length }, none)
  else if r.buffer.length ≠ 0 then
    ({ r with buffer := [] }, some (.badHeader, r.buffer.length))
  else ({ r with buffer := [] }, some (.eof, 0))

structure Physical where
  code : ℕ
  fragment : Bytes
  dropSize : ℕ

variable (crc : Crc32c)

def Reader.takeRecord (r : Reader) (type length headerLength : ℕ) : Physical × Reader :=
  let size := r.buffer.length
  let cleared := { r with buffer := [] }
  if headerLength + length > size then
    if !r.eof then (⟨ReadCode.badRecordLen.code, [], size⟩, cleared)
    else if size ≠ 0 then (⟨ReadCode.badHeader.code, [], size⟩, cleared)
    else (⟨ReadCode.eof.code, [], size⟩, cleared)
  else if type = RecordType.zero.code ∧ length = 0 then
    (⟨ReadCode.badRecord.code, [], 0⟩, cleared)
  else if r.checksum ∧ crc.value ((r.buffer.drop 6).take (length + headerLength - 6)) ≠
      unmask (ofLittleEndian (r.buffer.take 4)).toUInt32 then
    (⟨ReadCode.badRecordChecksum.code, [], size⟩, cleared)
  else
    (⟨type, (r.buffer.drop headerLength).take length, 0⟩,
      { r with buffer := r.buffer.drop (headerLength + length) })

/-- A character, converted to an unsigned integer of 32 bits. -/
def charCode (b : UInt8) : ℕ := if b.toNat < 128 then b.toNat else b.toNat + (2 ^ 32 - 256)

/-- The loop of `ReadPhysicalRecord`, undefined if it has not ended within `fuel` turns. -/
def Reader.physicalLoop : ℕ → Reader → Option (Physical × Reader)
  | 0, _ => none
  | fuel + 1, r =>
      let more := fun r : Reader =>
        match r.readMore with
        | (r', none) => Reader.physicalLoop fuel r'
        | (r', some (code, dropSize)) => some (⟨code.code, [], dropSize⟩, r')
      if r.buffer.length < headerSize then more r
      else
        let type := charCode (r.buffer.getD 6 0)
        let length := ofLittleEndian ((r.buffer.drop 4).take 2)
        if RecordType.recyclableFull.code ≤ type ∧ type ≤ RecordType.recyclableLast.code then
          let r := { r with
            recycled := r.recycled || decide (r.endOfBufferOffset - r.buffer.length = 0) }
          if r.buffer.length < recyclableHeaderSize then more r
          else if ofLittleEndian ((r.buffer.drop 7).take 4) ≠ r.logNumber then
            some (⟨ReadCode.oldRecord.code, [], 0⟩, r)
          else some (r.takeRecord crc type length recyclableHeaderSize)
        else some (r.takeRecord crc type length headerSize)

/-- Two turns are enough: after a read, the buffer holds a whole header or the
file is at its end. -/
def Reader.readPhysicalRecord (r : Reader) : Option (Physical × Reader) :=
  Reader.physicalLoop crc 2 r

/-- A turn of the loop of `ReadRecord` ends it, with no record where the source
returns false, or goes on with the scratch space. -/
inductive Turn where
  | done (record : Option Bytes) (r : Reader)
  | again (inFragment : Bool) (scratch : Bytes) (r : Reader)

def Reader.atEnd (r : Reader) (mode : WALRecoveryMode) (inFragment : Bool) (scratch : Bytes) :
    Turn :=
  .done none (r.reportIf (inFragment && decide (mode = .absoluteConsistency)) scratch.length
    "error reading trailing data")

def Reader.dropFragment (r : Reader) (inFragment : Bool) (scratch : Bytes) : Turn :=
  if inFragment then .again false [] (r.reportCorruption scratch.length "error in middle of record")
  else .again false scratch r

def Reader.badFragment (r : Reader) (mode : WALRecoveryMode) (inFragment : Bool) (scratch : Bytes)
    (dropSize : ℕ) (reason : String) : Turn :=
  if r.recycled && decide (mode = .tolerateCorruptedTailRecords) then .done none r
  else (r.reportCorruption dropSize reason).dropFragment inFragment scratch

def Reader.recordTurn (r : Reader) (mode : WALRecoveryMode) (inFragment : Bool) (scratch : Bytes)
    (p : Physical) : Turn :=
  let unfinished := inFragment && !scratch.isEmpty
  match ReadCode.ofCode p.code with
  | some (.type .full) | some (.type .recyclableFull) =>
      .done (some p.fragment) (r.reportIf unfinished scratch.length "partial record without end(1)")
  | some (.type .first) | some (.type .recyclableFirst) =>
      .again true p.fragment (r.reportIf unfinished scratch.length "partial record without end(2)")
  | some (.type .middle) | some (.type .recyclableMiddle) =>
      if inFragment then .again true (scratch ++ p.fragment) r
      else .again false scratch
        (r.reportCorruption p.fragment.length "missing start of fragmented record(1)")
  | some (.type .last) | some (.type .recyclableLast) =>
      if inFragment then .done (some (scratch ++ p.fragment)) r
      else .again false scratch
        (r.reportCorruption p.fragment.length "missing start of fragmented record(2)")
  | some .badHeader =>
      (r.reportIf (decide (mode = .absoluteConsistency)) p.dropSize "truncated header").atEnd
        mode inFragment scratch
  | some .eof => r.atEnd mode inFragment scratch
  | some .oldRecord =>
      if mode ≠ .skipAnyCorruptedRecords then r.atEnd mode inFragment scratch
      else r.dropFragment inFragment scratch
  | some .badRecord => r.dropFragment inFragment scratch
  | some .badRecordLen => r.badFragment mode inFragment scratch p.dropSize "bad record length"
  | some .badRecordChecksum => r.badFragment mode inFragment scratch p.dropSize "checksum mismatch"
  | some (.type .zero) | none =>
      .again false []
        (r.reportCorruption (p.fragment.length + if inFragment then scratch.length else 0)
          ("unknown record type " ++ toString p.code))

/-- The loop of `ReadRecord`, undefined if it has not ended within `fuel` turns. -/
def Reader.recordLoop (mode : WALRecoveryMode) :
    ℕ → Bool → Bytes → Reader → Option (Option Bytes × Reader)
  | 0, _, _, _ => none
  | fuel + 1, inFragment, scratch, r =>
      (r.readPhysicalRecord crc).bind fun result =>
        match result.2.recordTurn mode inFragment scratch result.1 with
        | .done record r' => some (record, r')
        | .again inFragment' scratch' r' =>
            Reader.recordLoop mode fuel inFragment' scratch' r'

/-- `ReadRecord`. Every turn that does not end it takes a byte or more from the
file, except where an old record is skipped, which the source repeats forever. -/
def Reader.readRecord (r : Reader) (mode : WALRecoveryMode) : Option (Option Bytes × Reader) :=
  Reader.recordLoop crc mode (r.buffer.length + r.file.length + 1) false [] r

end PowerLawRocksdb.LogReader
