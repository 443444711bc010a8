import PowerLawRocksdb.LogFormat

/-!
# The writer of the log

`AddRecord` fills the current block with a fragment, as long as a header fits in
it, and continues in the next block. A block is closed with zeros where no header
fits. Where exactly a header fits and nothing else, the record starts with an
empty fragment. Appends to the file are taken to succeed.

For the plain record types the bytes that one call appends are described by
`Emits`, which forgets the state of the writer except for the block offset.
-/
namespace PowerLawRocksdb.LogWriter
open Numerals LogFormat

structure Writer where
  dest : Bytes
  blockOffset : ℕ
  logNumber : ℕ
  recycleLogFiles : Bool

def Writer.init (logNumber : ℕ) (recycleLogFiles : Bool) : Writer :=
  ⟨[], 0, logNumber, recycleLogFiles⟩

def Writer.headerLength (w : Writer) : ℕ :=
  if w.recycleLogFiles then recyclableHeaderSize else headerSize

def fragmentType (recycle isBegin isEnd : Bool) : RecordType :=
  match isBegin, isEnd with
  | true, true => if recycle then .recyclableFull else .full
  | true, false => if recycle then .recyclableFirst else .first
  | false, true => if recycle then .recyclableLast else .last
  | false, false => if recycle then .recyclableMiddle else .middle

variable (crc : Crc32c)

def Writer.emitPhysicalRecord (w : Writer) (t : RecordType) (payload : Bytes) : Writer :=
  let typeByte := t.code.toUInt8
  let logNum := if t.recyclable then littleEndian 4 w.logNumber else []
  let typeCrc := crc.value [typeByte]
  let headerCrc := if t.recyclable then crc.extend typeCrc logNum else typeCrc
  let sum := mask (crc.extend headerCrc payload)
  let header := littleEndian 4 sum.toNat ++ littleEndian 2 payload.length ++ [typeByte] ++ logNum
  { w with
    dest := w.dest ++ header ++ payload
    blockOffset := w.blockOffset + header.length + payload.length }

/-- The start of a turn: close the block where no header fits in the rest of it. -/
def Writer.switchBlock (w : Writer) : Writer :=
  let leftover := blockSize - w.blockOffset
  if leftover < w.headerLength then
    { w with dest := w.dest ++ List.replicate leftover 0, blockOffset := 0 }
  else w

/-- The loop of `AddRecord`, undefined if it has not ended within `fuel` turns. -/
def Writer.addFragments : ℕ → Bool → Writer → Bytes → Option Writer
  | 0, _, _, _ => none
  | fuel + 1, isBegin, w, left =>
      let w := w.switchBlock
      let avail := blockSize - w.blockOffset - w.headerLength
      let fragmentLength := if left.length < avail then left.length else avail
      let isEnd := left.length == fragmentLength
      let w := w.emitPhysicalRecord crc (fragmentType w.recycleLogFiles isBegin isEnd)
        (left.take fragmentLength)
      let left := left.drop fragmentLength
      if 0 < left.length then Writer.addFragments fuel false w left else some w

/-- Every turn but the first one writes at least one byte of the record. -/
def Writer.addRecord (w : Writer) (slice : Bytes) : Option Writer :=
  Writer.addFragments crc (slice.length + 1) true w slice

/-- A fragment of a plain type as it is stored. -/
def physicalRecord (t : RecordType) (payload : Bytes) : Bytes :=
  littleEndian 4 (mask (crc.value (t.code.toUInt8 :: payload))).toNat ++
    littleEndian 2 payload.length ++ [t.code.toUInt8] ++ payload

/-- The zeros that close the block at offset `o`, if a header does not fit there. -/
def padding (o : ℕ) : ℕ := if blockSize - o < headerSize then blockSize - o else 0

/-- The offset at which the next header is written. -/
def headerOffset (o : ℕ) : ℕ := if blockSize - o < headerSize then 0 else o

/-- From block offset `o`, the rest of a record is stored as `bytes`, up to `o'`. -/
inductive Emits : ℕ → Bool → Bytes → Bytes → ℕ → Prop
  | last (o : ℕ) (isBegin : Bool) (payload : Bytes)
      (h : headerOffset o + headerSize + payload.length ≤ blockSize) :
      Emits o isBegin payload
        (List.replicate (padding o) 0 ++
          physicalRecord crc (fragmentType false isBegin true) payload)
        (headerOffset o + headerSize + payload.length)
  | more (o : ℕ) (isBegin : Bool) (p q bytes : Bytes) (o' : ℕ)
      (hp : headerOffset o + headerSize + p.length = blockSize) (hq : q ≠ [])
      (h : Emits blockSize false q bytes o') :
      Emits o isBegin (p ++ q)
        (List.replicate (padding o) 0 ++ physicalRecord crc (fragmentType false isBegin false) p ++
          bytes) o'

variable {crc}

@[simp] theorem length_physicalRecord (t : RecordType) (payload : Bytes) :
    (physicalRecord crc t payload).length = headerSize + payload.length := by
  unfold physicalRecord headerSize
  simp only [List.length_append, length_littleEndian, List.length_singleton]

theorem fragmentType_not_recyclable (isBegin isEnd : Bool) :
    (fragmentType false isBegin isEnd).recyclable = false := by
  cases isBegin <;> cases isEnd <;> rfl

theorem headerOffset_le {o : ℕ} (ho : o ≤ blockSize) : headerOffset o + headerSize ≤ blockSize := by
  unfold headerOffset
  split_ifs with h
  · decide
  · omega

section Plain
variable (dest : Bytes) (o logNumber : ℕ)

theorem switchBlock_eq : Writer.switchBlock ⟨dest, o, logNumber, false⟩ =
    ⟨dest ++ List.replicate (padding o) 0, headerOffset o, logNumber, false⟩ := by
  unfold padding headerOffset
  split_ifs with h
  · exact if_pos h
  · rw [List.replicate_zero, List.append_nil]
    exact if_neg h

theorem emitPhysicalRecord_eq {t : RecordType} (ht : t.recyclable = false) (payload : Bytes) :
    Writer.emitPhysicalRecord crc ⟨dest, o, logNumber, false⟩ t payload =
      ⟨dest ++ physicalRecord crc t payload, o + headerSize + payload.length, logNumber,
        false⟩ := by
  have hcrc : crc.extend 0 (t.code.toUInt8 :: payload) =
      crc.extend (crc.extend 0 [t.code.toUInt8]) payload := crc.extend_append 0 [_] payload
  unfold Writer.emitPhysicalRecord physicalRecord Crc32c.value
  rw [ht, hcrc]
  simp [headerSize]

variable (crc) in
/-- What one turn of the loop leaves behind. -/
def afterFragment (isBegin isEnd : Bool) (payload : Bytes) : Writer :=
  ⟨dest ++ (List.replicate (padding o) 0 ++
      physicalRecord crc (fragmentType false isBegin isEnd) payload),
    headerOffset o + headerSize + payload.length, logNumber, false⟩

theorem addFragments_last (fuel : ℕ) (isBegin : Bool) {left : Bytes}
    (h : headerOffset o + headerSize + left.length ≤ blockSize) :
    Writer.addFragments crc (fuel + 1) isBegin ⟨dest, o, logNumber, false⟩ left =
      some (afterFragment crc dest o logNumber isBegin true left) := by
  have hlen : (if left.length < blockSize - headerOffset o - headerSize then left.length
      else blockSize - headerOffset o - headerSize) = left.length := by
    split_ifs <;> omega
  unfold Writer.addFragments afterFragment
  simp only [switchBlock_eq, Writer.headerLength, Bool.false_eq_true, if_false, hlen,
    beq_self_eq_true, List.take_length, List.drop_length, List.length_nil, Nat.lt_irrefl, if_false]
  rw [emitPhysicalRecord_eq _ _ _ (fragmentType_not_recyclable isBegin true), List.append_assoc]

theorem addFragments_more (fuel : ℕ) (isBegin : Bool) {p q : Bytes}
    (hp : headerOffset o + headerSize + p.length = blockSize) (hq : q ≠ []) :
    Writer.addFragments crc (fuel + 1) isBegin ⟨dest, o, logNumber, false⟩ (p ++ q) =
      Writer.addFragments crc fuel false
        (afterFragment crc dest o logNumber isBegin false p) q := by
  have hpos := List.length_pos_of_ne_nil hq
  have hlen : (if (p ++ q).length < blockSize - headerOffset o - headerSize then (p ++ q).length
      else blockSize - headerOffset o - headerSize) = p.length := by
    rw [List.length_append]
    split_ifs <;> omega
  have hend : ((p ++ q).length == p.length) = false := by
    rw [List.length_append]
    exact beq_false_of_ne (by omega)
  conv_lhs => unfold Writer.addFragments
  unfold afterFragment
  simp only [switchBlock_eq, Writer.headerLength, Bool.false_eq_true, if_false, hlen, hend,
    List.take_left, List.drop_left, hpos, if_true]
  rw [emitPhysicalRecord_eq _ _ _ (fragmentType_not_recyclable isBegin false), List.append_assoc]

/-- A record fits into the block, or fills it with a first part. -/
theorem fits_or_splits {o : ℕ} (ho : o ≤ blockSize) (left : Bytes) :
    headerOffset o + headerSize + left.length ≤ blockSize ∨
      ∃ p q, left = p ++ q ∧ headerOffset o + headerSize + p.length = blockSize ∧ q ≠ [] := by
  have hroom := headerOffset_le ho
  by_cases h : headerOffset o + headerSize + left.length ≤ blockSize
  · exact Or.inl h
  · refine Or.inr ⟨left.take (blockSize - headerOffset o - headerSize), _,
      (List.take_append_drop _ _).symm, ?_, ?_⟩
    · rw [List.length_take]
      omega
    · apply List.ne_nil_of_length_pos
      rw [List.length_drop]
      omega

variable (crc) in
/-- The turns after the first one start at the end of a block. -/
theorem addFragments_emits {fuel : ℕ} {left : Bytes} (hleft : left ≠ [])
    (hfuel : left.length ≤ fuel) :
    ∃ bytes o', Emits crc blockSize false left bytes o' ∧
      Writer.addFragments crc fuel false ⟨dest, blockSize, logNumber, false⟩ left =
        some ⟨dest ++ bytes, o', logNumber, false⟩ := by
  induction fuel generalizing dest left with
  | zero => exact absurd (List.eq_nil_of_length_eq_zero (Nat.le_zero.mp hfuel)) hleft
  | succ fuel ih =>
      rcases fits_or_splits (le_refl blockSize) left with hfit | ⟨p, q, rfl, hp, hq⟩
      · exact ⟨_, _, .last blockSize false left hfit, addFragments_last _ _ _ _ _ hfit⟩
      · have hlen : headerOffset blockSize + headerSize < blockSize := by decide
        rw [List.length_append] at hfuel
        rw [addFragments_more _ _ _ _ _ hp hq, afterFragment, hp]
        obtain ⟨bytes, o', hemit, hadd⟩ := ih (dest ++ (List.replicate (padding blockSize) 0 ++
          physicalRecord crc (fragmentType false false false) p)) hq (by omega)
        exact ⟨_, o', .more blockSize false p q bytes o' hp hq hemit,
          by rw [hadd, List.append_assoc]⟩

/-- One call of `AddRecord` returns, and appends the fragments of the record. -/
theorem addRecord_emits (ho : o ≤ blockSize) (slice : Bytes) :
    ∃ bytes o', Emits crc o true slice bytes o' ∧
      Writer.addRecord crc ⟨dest, o, logNumber, false⟩ slice =
        some ⟨dest ++ bytes, o', logNumber, false⟩ := by
  unfold Writer.addRecord
  rcases fits_or_splits ho slice with hfit | ⟨p, q, rfl, hp, hq⟩
  · exact ⟨_, _, .last o true slice hfit, addFragments_last _ _ _ _ _ hfit⟩
  · rw [addFragments_more _ _ _ _ _ hp hq, afterFragment, hp]
    obtain ⟨bytes, o', hemit, hadd⟩ := addFragments_emits crc (dest ++
      (List.replicate (padding o) 0 ++ physicalRecord crc (fragmentType false true false) p))
      logNumber hq (show q.length ≤ (p ++ q).length by rw [List.length_append]; omega)
    exact ⟨_, o', .more o true p q bytes o' hp hq hemit, by rw [hadd, List.append_assoc]⟩

end Plain

theorem Emits.length_pos {o o' : ℕ} {isBegin : Bool} {left bytes : Bytes}
    (h : Emits crc o isBegin left bytes o') : 0 < bytes.length := by
  have hpos : 0 < headerSize := by decide
  cases h with
  | last o isBegin payload h =>
      rw [List.length_append, length_physicalRecord]
      omega
  | more o isBegin p q bytes o' hp hq h =>
      rw [List.length_append, List.length_append, length_physicalRecord]
      omega

theorem Emits.offset_le {o o' : ℕ} {isBegin : Bool} {left bytes : Bytes}
    (h : Emits crc o isBegin left bytes o') : o' ≤ blockSize := by
  induction h with
  | last o isBegin payload h => exact h
  | more o isBegin p q bytes o' hp hq h ih => exact ih

end PowerLawRocksdb.LogWriter
