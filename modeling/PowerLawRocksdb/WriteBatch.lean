import PowerLawRocksdb.Numerals
import PowerLawRocksdb.SpaceSaving

/-!
# Write batches and the operations of an instance

A batch is one string of bytes: a sequence number, a count, and then one entry per
update. An instance prints its key in decimal with at least eight characters and
logs a batch with one `Put` or `Delete` on the default column family. The sequence
number is set when the batch is logged.
-/
namespace PowerLawRocksdb.WriteBatch
open Numerals SpaceSaving

def maxUint32 : ℕ := 4294967295

/-- The size of the sequence number and the count. -/
def headerSize : ℕ := 12

def encodeVarint32 (v : ℕ) : Bytes :=
  if v < 2 ^ 7 then [v.toUInt8]
  else if v < 2 ^ 14 then [(v ||| 128).toUInt8, (v >>> 7).toUInt8]
  else if v < 2 ^ 21 then [(v ||| 128).toUInt8, (v >>> 7 ||| 128).toUInt8, (v >>> 14).toUInt8]
  else if v < 2 ^ 28 then
    [(v ||| 128).toUInt8, (v >>> 7 ||| 128).toUInt8, (v >>> 14 ||| 128).toUInt8,
      (v >>> 21).toUInt8]
  else
    [(v ||| 128).toUInt8, (v >>> 7 ||| 128).toUInt8, (v >>> 14 ||| 128).toUInt8,
      (v >>> 21 ||| 128).toUInt8, (v >>> 28).toUInt8]

/-- `PutLengthPrefixedSlice`, which stores the length as a 32-bit number. -/
def lengthPrefixed (slice : Bytes) : Bytes := encodeVarint32 (slice.length % 2 ^ 32) ++ slice

/-- A new batch. -/
def empty : Bytes := List.replicate headerSize 0

def count (rep : Bytes) : ℕ := ofLittleEndian ((rep.drop 8).take 4)

def setCount (rep : Bytes) (n : ℕ) : Bytes := rep.take 8 ++ littleEndian 4 n ++ rep.drop headerSize

def setSequence (rep : Bytes) (seq : ℕ) : Bytes := littleEndian 8 seq ++ rep.drop 8

/-- The entries of a batch. -/
def body (rep : Bytes) : Bytes := rep.drop headerSize

/-- The tag of an entry, and the column family unless it is the default one. -/
def tagged (defaultTag otherTag : UInt8) (columnFamily : ℕ) : Bytes :=
  if columnFamily = 0 then [defaultTag] else otherTag :: encodeVarint32 columnFamily

def put (rep : Bytes) (columnFamily : ℕ) (key value : Bytes) : Except String Bytes :=
  if key.length > maxUint32 then .error "key is too large"
  else if value.length > maxUint32 then .error "value is too large"
  else .ok (setCount rep (count rep + 1) ++ tagged 1 5 columnFamily ++ lengthPrefixed key ++
    lengthPrefixed value)

def delete (rep : Bytes) (columnFamily : ℕ) (key : Bytes) : Bytes :=
  setCount rep (count rep + 1) ++ tagged 0 4 columnFamily ++ lengthPrefixed key

/-- The operations of an instance, with any value. -/
inductive Op where
  | put (key : Key) (value : Bytes)
  | del (key : Key)

def Op.key : Op → Key
  | .put key _ => key
  | .del key => key

/-- The value is short enough for its length to be stored. -/
def Op.fits : Op → Bool
  | .put _ value => decide (value.length ≤ maxUint32)
  | .del _ => true

/-- The key as an instance prints it. -/
def printKey (key : Key) : Bytes := padded 8 key.toNat

def Op.batch : Op → Except String Bytes
  | .put key value => WriteBatch.put empty 0 (printKey key) value
  | .del key => .ok (WriteBatch.delete empty 0 (printKey key))

/-- An operation, and the sequence number that it is logged with. -/
structure Write where
  op : Op
  sequence : ℕ

def Write.record (w : Write) : Except String Bytes :=
  w.op.batch.map fun rep => setSequence rep w.sequence

theorem length_empty : headerSize ≤ empty.length := Nat.le_refl headerSize

theorem length_setCount {rep : Bytes} (h : headerSize ≤ rep.length) (n : ℕ) :
    (setCount rep n).length = rep.length := by
  unfold headerSize at h
  simp only [setCount, headerSize, List.length_append, List.length_take, List.length_drop,
    length_littleEndian]
  omega

theorem body_setCount {rep : Bytes} (h : headerSize ≤ rep.length) (n : ℕ) (rest : Bytes) :
    body (setCount rep n ++ rest) = body rep ++ rest := by
  unfold headerSize at h
  have hlen : (rep.take 8 ++ littleEndian 4 n).length = headerSize := by
    rw [List.length_append, List.length_take, length_littleEndian, headerSize]
    omega
  rw [body, setCount, List.append_assoc, List.drop_left' hlen, body]

theorem body_setSequence (rep : Bytes) (seq : ℕ) : body (setSequence rep seq) = body rep := by
  have hlen : (littleEndian 8 seq).length = 8 := length_littleEndian ..
  rw [body, headerSize, setSequence, show 12 = 8 + 4 from rfl, ← List.drop_drop,
    List.drop_left' hlen, List.drop_drop, body, headerSize]

theorem length_setSequence {rep : Bytes} (h : headerSize ≤ rep.length) (seq : ℕ) :
    (setSequence rep seq).length = rep.length := by
  unfold headerSize at h
  rw [setSequence, List.length_append, length_littleEndian, List.length_drop]
  omega

theorem length_printKey {key : Key} (h : key.toNat < 10 ^ 8) : (printKey key).length = 8 :=
  length_padded (by decide) h

theorem le_length_printKey (key : Key) : 8 ≤ (printKey key).length := le_length_padded 8 key.toNat

theorem length_printKey_le (key : Key) : (printKey key).length ≤ 20 :=
  length_padded_le (by decide) (by decide) (key.toNat_lt.trans (by decide))

theorem printKey_not_large (key : Key) : ¬ (printKey key).length > maxUint32 :=
  Nat.not_lt_of_le ((length_printKey_le key).trans (by decide))

/-- A short length takes one byte. -/
theorem lengthPrefixed_of_lt {slice : Bytes} (h : slice.length < 2 ^ 7) :
    lengthPrefixed slice = slice.length.toUInt8 :: slice := by
  unfold lengthPrefixed encodeVarint32
  rw [Nat.mod_eq_of_lt (h.trans (by decide)), if_pos h]
  rfl

theorem lengthPrefixed_printKey (key : Key) :
    lengthPrefixed (printKey key) = (printKey key).length.toUInt8 :: printKey key :=
  lengthPrefixed_of_lt ((length_printKey_le key).trans_lt (by decide))

/-- The bytes of a batch with one entry. -/
theorem setSequence_entry (sequence : ℕ) (tag : UInt8) (key : Key) (rest : Bytes) :
    setSequence (setCount empty (count empty + 1) ++ [tag] ++ lengthPrefixed (printKey key) ++
        rest) sequence =
      littleEndian 8 sequence ++ littleEndian 4 1 ++ [tag, (printKey key).length.toUInt8] ++
        (printKey key ++ rest) := by
  rw [lengthPrefixed_printKey]
  rfl

/-- Where the key stands in the logged batch. -/
theorem record_eq (w : Write) (hfits : w.op.fits = true) :
    ∃ head tail, w.record = .ok (head ++ (printKey w.op.key ++ tail)) ∧ head.length = 14 := by
  obtain ⟨op, sequence⟩ := w
  cases op with
  | put key value =>
      have hvalue : ¬ value.length > maxUint32 := by
        simpa only [Op.fits, decide_eq_true_eq, gt_iff_lt, Nat.not_lt] using hfits
      refine ⟨littleEndian 8 sequence ++ littleEndian 4 1 ++ [1, (printKey key).length.toUInt8],
        lengthPrefixed value, ?_, rfl⟩
      rw [Write.record, Op.batch, WriteBatch.put, if_neg (printKey_not_large key), if_neg hvalue]
      exact congrArg Except.ok (setSequence_entry sequence 1 key (lengthPrefixed value))
  | del key =>
      refine ⟨littleEndian 8 sequence ++ littleEndian 4 1 ++ [0, (printKey key).length.toUInt8],
        [], ?_, rfl⟩
      rw [Write.record, Op.batch, WriteBatch.delete, ← List.append_nil (_ ++ lengthPrefixed _)]
      exact congrArg Except.ok (setSequence_entry sequence 0 key [])

/-- An operation whose value is too long is refused. -/
theorem record_error (w : Write) (hfits : w.op.fits = false) :
    ∃ reason, w.record = .error reason := by
  obtain ⟨op, sequence⟩ := w
  cases op with
  | put key value =>
      have hvalue : value.length > maxUint32 := by
        simpa only [Op.fits, decide_eq_false_iff_not, Nat.not_le] using hfits
      refine ⟨"value is too large", ?_⟩
      rw [Write.record, Op.batch, WriteBatch.put, if_neg (printKey_not_large key), if_pos hvalue]
      rfl
  | del key => exact absurd hfits (by simp [Op.fits])

/-- Every batch that is logged has its key from byte 14 on. -/
theorem exists_of_record {w : Write} {r : Bytes} (hr : w.record = .ok r) :
    ∃ head tail, r = head ++ (printKey w.op.key ++ tail) ∧ head.length = 14 := by
  cases hfits : w.op.fits with
  | false =>
      obtain ⟨reason, herror⟩ := record_error w hfits
      rw [herror] at hr
      cases hr
  | true =>
      obtain ⟨head, tail, hok, hhead⟩ := record_eq w hfits
      rw [hok] at hr
      exact ⟨head, tail, (Except.ok.inj hr).symm, hhead⟩

end PowerLawRocksdb.WriteBatch
