import PowerLawRocksdb.Numerals

/-!
# The format of the write-ahead log

A log file is a sequence of blocks of 32768 bytes. A logical record is cut into
fragments that do not cross a block. Each fragment is stored with a header of
seven bytes: a masked checksum, the length and the type. The recyclable types
have a header of eleven bytes that also holds the number of the log.

The checksum is a parameter. Only the law of `crc32c::Extend` is used, that it
continues the checksum of a string by the bytes that follow it.
-/
namespace PowerLawRocksdb.LogFormat
open Numerals

def blockSize : ℕ := 32768

def headerSize : ℕ := 7

def recyclableHeaderSize : ℕ := 11

inductive RecordType where
  | zero
  | full
  | first
  | middle
  | last
  | recyclableFull
  | recyclableFirst
  | recyclableMiddle
  | recyclableLast
  deriving DecidableEq, Repr

def RecordType.code : RecordType → ℕ
  | .zero => 0
  | .full => 1
  | .first => 2
  | .middle => 3
  | .last => 4
  | .recyclableFull => 5
  | .recyclableFirst => 6
  | .recyclableMiddle => 7
  | .recyclableLast => 8

def RecordType.recyclable (t : RecordType) : Bool :=
  decide (RecordType.recyclableFull.code ≤ t.code)

structure Crc32c where
  extend : UInt32 → Bytes → UInt32
  extend_append : ∀ crc a b, extend crc (a ++ b) = extend (extend crc a) b

def Crc32c.value (crc : Crc32c) (bytes : Bytes) : UInt32 := crc.extend 0 bytes

def maskDelta : UInt32 := 0xa282ead8

/-- Rotate right by 15 bits and add a constant. -/
def mask (crc : UInt32) : UInt32 := ((crc >>> 15) ||| (crc <<< 17)) + maskDelta

def unmask (masked : UInt32) : UInt32 :=
  let rot := masked - maskDelta
  (rot >>> 17) ||| (rot <<< 15)

theorem rotate_rotate (x : BitVec 32) :
    (((x >>> 15) ||| (x <<< 17)) >>> 17) ||| (((x >>> 15) ||| (x <<< 17)) <<< 15) = x := by
  apply BitVec.eq_of_getLsbD_eq
  intro i hi
  simp only [BitVec.getLsbD_or, BitVec.getLsbD_ushiftRight, BitVec.getLsbD_shiftLeft]
  -- the low 15 bits come from the left shift, the others from the right shift
  by_cases h : i < 15
  · have h17 : 17 + i < 32 := by omega
    rw [BitVec.getLsbD_of_ge x (15 + (17 + i)) (by omega)]
    simp [h, h17]
  · rw [BitVec.getLsbD_of_ge x (15 + (17 + i)) (by omega), show 15 + (i - 15) = i by omega]
    have h17 : i - 15 < 17 := by omega
    simp [h, hi, h17]

theorem unmask_mask (crc : UInt32) : unmask (mask crc) = crc := by
  unfold unmask mask
  simp only [UInt32.add_sub_cancel]
  apply UInt32.eq_of_toBitVec_eq
  exact rotate_rotate crc.toBitVec

/-- One step of the software implementation: a byte, bit by bit. -/
def crcByte (l : UInt32) (b : UInt8) : UInt32 :=
  (List.range 8).foldl (fun l _ => if l &&& 1 = 1 then (l >>> 1) ^^^ 0x82f63b78 else l >>> 1)
    (l ^^^ b.toUInt32)

/-- The checksum that the repository implements with tables. -/
def crc32c : Crc32c where
  extend crc bytes := bytes.foldl crcByte (crc ^^^ 0xffffffff) ^^^ 0xffffffff
  extend_append crc a b := by
    simp only [List.foldl_append, UInt32.xor_assoc, UInt32.xor_self, UInt32.xor_zero]

end PowerLawRocksdb.LogFormat
