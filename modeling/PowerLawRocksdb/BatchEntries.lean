import PowerLawRocksdb.Readers
import PowerLawRocksdb.WriteBatch

/-!
# The entries of a write batch

Behind its header a batch is a sequence of entries. `ReadRecordFromWriteBatch` takes
one entry off the front: a tag, for some tags the number of a column family, and up to
two strings with their lengths in front. Lengths and column families are 32-bit
numbers in groups of seven bits.

The reader accepts more than is ever written, such as a number with leading zero groups
or the tag with a column family in front of the default one. It is local, so that
entries can be told apart without looking ahead.
-/
namespace PowerLawRocksdb.BatchEntries
open Numerals WriteBatch Readers

/-- The loop over the bytes of a number. Bits above the 32nd are shifted out. -/
def getVarint32PtrFallback (shift result : UInt32) : Reader UInt8 UInt32
  | [] => none
  | byte :: p =>
      if shift ≤ 28 then
        if byte &&& 128 ≠ 0 then
          getVarint32PtrFallback (shift + 7) (result ||| ((byte.toUInt32 &&& 127) <<< shift)) p
        else some (result ||| (byte.toUInt32 <<< shift), p)
      else none

/-- A number of one byte is returned without the loop. -/
def getVarint32 : Reader UInt8 UInt32
  | [] => getVarint32PtrFallback 0 0 []
  | byte :: p =>
      if byte &&& 128 = 0 then some (byte.toUInt32, p)
      else getVarint32PtrFallback 0 0 (byte :: p)

def getLengthPrefixedSlice : Reader UInt8 Bytes :=
  getVarint32.bind fun len => Reader.take len.toNat

/-- An entry as it is handed to the handler of `Iterate`. -/
inductive Entry where
  | put (columnFamily : UInt32) (key value : Bytes)
  | delete (columnFamily : UInt32) (key : Bytes)
  | singleDelete (columnFamily : UInt32) (key : Bytes)
  | deleteRange (columnFamily : UInt32) (beginKey endKey : Bytes)
  | merge (columnFamily : UInt32) (key value : Bytes)
  | putBlobIndex (columnFamily : UInt32) (key value : Bytes)
  | logData (blob : Bytes)
  | beginPrepare
  | beginPersistedPrepare
  | beginUnprepare
  | endPrepare (xid : Bytes)
  | commit (xid : Bytes)
  | rollback (xid : Bytes)
  | noop
deriving DecidableEq

/-- The column family behind a tag that has one. -/
def columnFamily (present : Bool) : Reader UInt8 UInt32 :=
  if present then getVarint32 else Reader.pure 0

def keyOnly (present : Bool) (make : UInt32 → Bytes → Entry) : Reader UInt8 Entry :=
  (columnFamily present).bind fun cf => getLengthPrefixedSlice.bind fun key =>
    Reader.pure (make cf key)

def keyAndValue (present : Bool) (make : UInt32 → Bytes → Bytes → Entry) : Reader UInt8 Entry :=
  (columnFamily present).bind fun cf => getLengthPrefixedSlice.bind fun key =>
    getLengthPrefixedSlice.bind fun value => Reader.pure (make cf key value)

def sliceOnly (make : Bytes → Entry) : Reader UInt8 Entry :=
  getLengthPrefixedSlice.bind fun slice => Reader.pure (make slice)

/-- The cases of the tag: the text of the error, and what is read behind the tag. -/
def recordCase (tag : UInt8) : Option (String × Reader UInt8 Entry) :=
  match tag with
  | 5 => some ("bad WriteBatch Put", keyAndValue true .put)
  | 1 => some ("bad WriteBatch Put", keyAndValue false .put)
  | 4 => some ("bad WriteBatch Delete", keyOnly true .delete)
  | 8 => some ("bad WriteBatch Delete", keyOnly true .singleDelete)
  | 0 => some ("bad WriteBatch Delete", keyOnly false .delete)
  | 7 => some ("bad WriteBatch Delete", keyOnly false .singleDelete)
  | 14 => some ("bad WriteBatch DeleteRange", keyAndValue true .deleteRange)
  | 15 => some ("bad WriteBatch DeleteRange", keyAndValue false .deleteRange)
  | 6 => some ("bad WriteBatch Merge", keyAndValue true .merge)
  | 2 => some ("bad WriteBatch Merge", keyAndValue false .merge)
  | 16 => some ("bad WriteBatch BlobIndex", keyAndValue true .putBlobIndex)
  | 17 => some ("bad WriteBatch BlobIndex", keyAndValue false .putBlobIndex)
  | 3 => some ("bad WriteBatch Blob", sliceOnly .logData)
  | 13 => some ("", Reader.pure .noop)
  | 9 => some ("", Reader.pure .beginPrepare)
  | 18 => some ("", Reader.pure .beginPersistedPrepare)
  | 19 => some ("", Reader.pure .beginUnprepare)
  | 10 => some ("bad EndPrepare XID", sliceOnly .endPrepare)
  | 11 => some ("bad Commit XID", sliceOnly .commit)
  | 12 => some ("bad Rollback XID", sliceOnly .rollback)
  | _ => none

/-- It is never called on an empty string. -/
def readRecordFromWriteBatch : Bytes → Except String (Entry × Bytes)
  | [] => .error "unknown WriteBatch tag"
  | tag :: input =>
      match recordCase tag with
      | none => .error "unknown WriteBatch tag"
      | some (message, read) =>
          match read input with
          | none => .error message
          | some r => .ok r

/-- The reader without the texts of its errors. -/
def readEntry : Reader UInt8 Entry := fun input => (readRecordFromWriteBatch input).toOption

/-- The bytes of an entry as the calls on a batch write them. -/
def Entry.bytes : Entry → Bytes
  | .put cf key value => tagged 1 5 cf.toNat ++ lengthPrefixed key ++ lengthPrefixed value
  | .delete cf key => tagged 0 4 cf.toNat ++ lengthPrefixed key
  | .singleDelete cf key => tagged 7 8 cf.toNat ++ lengthPrefixed key
  | .deleteRange cf beginKey endKey =>
      tagged 15 14 cf.toNat ++ lengthPrefixed beginKey ++ lengthPrefixed endKey
  | .merge cf key value => tagged 2 6 cf.toNat ++ lengthPrefixed key ++ lengthPrefixed value
  | .putBlobIndex cf key value =>
      tagged 17 16 cf.toNat ++ lengthPrefixed key ++ lengthPrefixed value
  | .logData blob => 3 :: lengthPrefixed blob
  | .beginPrepare => [9]
  | .beginPersistedPrepare => [18]
  | .beginUnprepare => [19]
  | .endPrepare xid => 10 :: lengthPrefixed xid
  | .commit xid => 11 :: lengthPrefixed xid
  | .rollback xid => 12 :: lengthPrefixed xid
  | .noop => [13]

/-- The strings of an entry. -/
def Entry.slices : Entry → List Bytes
  | .put _ key value | .merge _ key value | .putBlobIndex _ key value => [key, value]
  | .deleteRange _ beginKey endKey => [beginKey, endKey]
  | .delete _ key | .singleDelete _ key => [key]
  | .logData slice | .endPrepare slice | .commit slice | .rollback slice => [slice]
  | .beginPrepare | .beginPersistedPrepare | .beginUnprepare | .noop => []

/-- The lengths of all strings fit into 32 bits. -/
def Entry.Fits (e : Entry) : Prop := ∀ slice ∈ e.slices, slice.length ≤ maxUint32

instance (e : Entry) : Decidable e.Fits := inferInstanceAs (Decidable (∀ _ ∈ _, _))

/-- Whether the header counts the entry. -/
def Entry.counted : Entry → Bool
  | .put .. | .delete .. | .singleDelete .. | .deleteRange .. | .merge .. | .putBlobIndex .. => true
  | .logData _ | .beginPrepare | .beginPersistedPrepare | .beginUnprepare | .endPrepare _
  | .commit _ | .rollback _ | .noop => false

theorem toNat_and_mask (b : UInt8) : (b.toUInt32 &&& 127).toNat = b.toNat % 2 ^ 7 := by
  rw [UInt32.toNat_and, UInt8.toNat_toUInt32]
  exact Nat.and_two_pow_sub_one_eq_mod b.toNat 7

theorem toNat_or_continue (w : ℕ) : (w ||| 128).toUInt8.toNat % 2 ^ 7 = w % 2 ^ 7 := by
  rw [Nat.toUInt8, UInt8.toNat_ofNat', Nat.mod_mod_of_dvd _ (by decide), Nat.or_mod_two_pow]
  exact Nat.or_zero _

/-- The highest bit of a byte says that more bytes follow. -/
theorem or_continue_and (w : ℕ) : (w ||| 128).toUInt8 &&& 128 ≠ 0 := by
  intro h
  have hbit := congrArg (fun b : UInt8 => b.toNat.testBit 7) h
  have hmod : ((w ||| 128) % 2 ^ 8).testBit 7 = (w ||| 128).testBit 7 := by
    rw [Nat.testBit_mod_two_pow]
    rfl
  have hcontinue : (128 : ℕ).testBit 7 = true := by decide
  simp only [UInt8.toNat_and, Nat.toUInt8, UInt8.toNat_ofNat', Nat.testBit_and, hmod,
    Nat.testBit_or] at hbit
  simp [hcontinue] at hbit

theorem toNat_toUInt8 {w : ℕ} (h : w < 2 ^ 7) : w.toUInt8.toNat = w := by
  rw [Nat.toUInt8, UInt8.toNat_ofNat']
  omega

theorem toUInt8_and {w : ℕ} (h : w < 2 ^ 7) : w.toUInt8 &&& 128 = 0 := by
  apply UInt8.toNat_inj.mp
  rw [UInt8.toNat_and, toNat_toUInt8 h]
  apply Nat.eq_of_testBit_eq
  intro i
  show (w &&& 2 ^ 7).testBit i = (0 : ℕ).testBit i
  rw [Nat.testBit_and, Nat.testBit_two_pow, Nat.zero_testBit]
  by_cases hi : 7 = i
  · rw [← hi, Nat.testBit_lt_two_pow h, Bool.false_and]
  · rw [decide_eq_false hi, Bool.and_false]

/-- The next group of seven bits is put above the `s` bits that are there. -/
theorem mod_or_shiftLeft (v s : ℕ) :
    v % 2 ^ s ||| ((v >>> s) % 2 ^ 7) <<< s = v % 2 ^ (s + 7) := by
  apply Nat.eq_of_testBit_eq
  intro i
  simp only [Nat.testBit_or, Nat.testBit_mod_two_pow, Nat.testBit_shiftLeft,
    Nat.testBit_shiftRight]
  by_cases hi : i < s
  · simp [hi, Nat.lt_add_right 7 hi, Nat.not_le_of_lt hi]
  · have hsub : s + (i - s) = i := Nat.add_sub_of_le (Nat.le_of_not_lt hi)
    have hlt : i - s < 7 ↔ i < s + 7 := by omega
    simp [hi, Nat.le_of_not_lt hi, hsub, hlt]

theorem toUInt32_or_shiftLeft {v s : ℕ} (hv : v < 2 ^ 32) (hs : s ≤ 28) {b : UInt32}
    (hb : b.toNat = (v >>> s) % 2 ^ 7) :
    (v % 2 ^ s).toUInt32 ||| b <<< s.toUInt32 = (v % 2 ^ (s + 7)).toUInt32 := by
  have hlt : ∀ k, v % 2 ^ k < 2 ^ 32 := fun k => (Nat.mod_le ..).trans_lt hv
  have hshift : s.toUInt32.toNat % 32 = s := by
    rw [Nat.toUInt32, UInt32.toNat_ofNat']
    omega
  have hgroup : ((v >>> s) % 2 ^ 7) <<< s < 2 ^ 32 := by
    rw [Nat.shiftLeft_eq, Nat.shiftRight_eq_div_pow]
    calc v / 2 ^ s % 2 ^ 7 * 2 ^ s ≤ v / 2 ^ s * 2 ^ s := Nat.mul_le_mul_right _ (Nat.mod_le ..)
      _ ≤ v := Nat.div_mul_le_self ..
      _ < 2 ^ 32 := hv
  apply UInt32.toNat_inj.mp
  rw [UInt32.toNat_or, UInt32.toNat_shiftLeft, hshift, hb, Nat.mod_eq_of_lt hgroup]
  simp only [Nat.toUInt32, UInt32.toNat_ofNat']
  rw [Nat.mod_eq_of_lt (hlt s), Nat.mod_eq_of_lt (hlt (s + 7)), mod_or_shiftLeft]

section Numbers
variable {v s : ℕ} (hv : v < 2 ^ 32) (hs : s ≤ 28)
include hv hs

-- In both steps the loop holds the lowest `s` bits of the number.
theorem getVarint32PtrFallback_more (p : Bytes) :
    getVarint32PtrFallback s.toUInt32 (v % 2 ^ s).toUInt32 ((v >>> s ||| 128).toUInt8 :: p) =
      getVarint32PtrFallback (s + 7).toUInt32 (v % 2 ^ (s + 7)).toUInt32 p := by
  have hle : s.toUInt32 ≤ 28 := by
    rw [UInt32.le_iff_toNat_le, Nat.toUInt32, UInt32.toNat_ofNat']
    exact (Nat.mod_le ..).trans hs
  have hgroup : ((v >>> s ||| 128).toUInt8.toUInt32 &&& 127).toNat = (v >>> s) % 2 ^ 7 := by
    rw [toNat_and_mask, toNat_or_continue]
  have hnext : s.toUInt32 + 7 = (s + 7).toUInt32 := (UInt32.ofNat_add s 7).symm
  rw [getVarint32PtrFallback, if_pos hle, if_pos (or_continue_and _), hnext,
    toUInt32_or_shiftLeft hv hs hgroup]

theorem getVarint32PtrFallback_last (hlast : v < 2 ^ (s + 7)) (p : Bytes) :
    getVarint32PtrFallback s.toUInt32 (v % 2 ^ s).toUInt32 ((v >>> s).toUInt8 :: p) =
      some (v.toUInt32, p) := by
  have hle : s.toUInt32 ≤ 28 := by
    rw [UInt32.le_iff_toNat_le, Nat.toUInt32, UInt32.toNat_ofNat']
    exact (Nat.mod_le ..).trans hs
  have hw : v >>> s < 2 ^ 7 := by
    rw [Nat.shiftRight_eq_div_pow]
    exact Nat.div_lt_of_lt_mul (by rwa [← Nat.pow_add])
  have hgroup : (v >>> s).toUInt8.toUInt32.toNat = (v >>> s) % 2 ^ 7 := by
    rw [UInt8.toNat_toUInt32, toNat_toUInt8 hw, Nat.mod_eq_of_lt hw]
  have hdone : ¬ (v >>> s).toUInt8 &&& 128 ≠ 0 := not_not.mpr (toUInt8_and hw)
  rw [getVarint32PtrFallback, if_pos hle, if_neg hdone, toUInt32_or_shiftLeft hv hs hgroup,
    Nat.mod_eq_of_lt hlast]

end Numbers

/-- The case of one byte agrees with the loop. -/
theorem getVarint32_eq (input : Bytes) : getVarint32 input = getVarint32PtrFallback 0 0 input := by
  cases input with
  | nil => rfl
  | cons byte p =>
      rw [getVarint32]
      split_ifs with hdone
      · rw [getVarint32PtrFallback, if_pos (by decide), if_neg (not_not.mpr hdone)]
        simp
      · rfl

theorem spells_encodeVarint32 {v : ℕ} (hv : v < 2 ^ 32) :
    Spells getVarint32 (encodeVarint32 v) v.toUInt32 := by
  intro rest
  have hstart : getVarint32PtrFallback 0 0 =
      getVarint32PtrFallback (0 : ℕ).toUInt32 (v % 2 ^ 0).toUInt32 := by
    rw [Nat.pow_zero, Nat.mod_one]
    rfl
  have hmore := fun s (hs : s ≤ 28) p => getVarint32PtrFallback_more hv hs p
  have hlast := fun s (hs : s ≤ 28) h p => getVarint32PtrFallback_last hv hs h p
  have hmore₀ := hmore 0 (by decide)
  have hlast₀ := hlast 0 (by decide)
  rw [Nat.shiftRight_zero] at hmore₀ hlast₀
  rw [getVarint32_eq, hstart]
  unfold encodeVarint32
  split_ifs with h₁ h₂ h₃ h₄
  · exact hlast₀ h₁ rest
  · simp only [List.cons_append, List.nil_append]
    rw [hmore₀]
    exact hlast 7 (by decide) h₂ rest
  · simp only [List.cons_append, List.nil_append]
    rw [hmore₀, hmore 7 (by decide)]
    exact hlast 14 (by decide) h₃ rest
  · simp only [List.cons_append, List.nil_append]
    rw [hmore₀, hmore 7 (by decide), hmore 14 (by decide)]
    exact hlast 21 (by decide) h₄ rest
  · simp only [List.cons_append, List.nil_append]
    rw [hmore₀, hmore 7 (by decide), hmore 14 (by decide), hmore 21 (by decide)]
    exact hlast 28 (by decide) (hv.trans (by decide)) rest

theorem spells_lengthPrefixed {slice : Bytes} (h : slice.length ≤ maxUint32) :
    Spells getLengthPrefixedSlice (lengthPrefixed slice) slice := by
  have hlt : slice.length < 2 ^ 32 := Nat.lt_succ_of_le h
  have hlen : slice.length.toUInt32.toNat = slice.length := by
    rw [Nat.toUInt32, UInt32.toNat_ofNat', Nat.mod_eq_of_lt hlt]
  have hslice := Spells.take slice
  rw [← hlen] at hslice
  unfold lengthPrefixed
  rw [Nat.mod_eq_of_lt hlt]
  exact (spells_encodeVarint32 hlt).bind hslice

theorem local_getVarint32PtrFallback (shift result : UInt32) :
    Local (getVarint32PtrFallback shift result) := by
  intro input
  induction input generalizing shift result with
  | nil =>
      intro v rest h
      cases h
  | cons byte p ih =>
      intro v rest h
      unfold getVarint32PtrFallback at h
      split_ifs at h with hshift hmore
      · obtain ⟨taken, rfl, hspells⟩ := ih _ _ h
        refine ⟨byte :: taken, rfl, ?_⟩
        intro rest'
        rw [List.cons_append, getVarint32PtrFallback, if_pos hshift, if_pos hmore]
        exact hspells rest'
      · cases h
        refine ⟨[byte], rfl, ?_⟩
        intro rest'
        rw [List.cons_append, getVarint32PtrFallback, if_pos hshift, if_neg hmore]
        rfl

theorem local_getVarint32 : Local getVarint32 := by
  rw [funext getVarint32_eq]
  exact local_getVarint32PtrFallback 0 0

theorem local_getLengthPrefixedSlice : Local getLengthPrefixedSlice :=
  local_getVarint32.bind fun len => Local.take len.toNat

theorem local_columnFamily (present : Bool) : Local (columnFamily present) := by
  cases present with
  | false => exact Local.pure 0
  | true => exact local_getVarint32

theorem local_keyOnly (present : Bool) (make : UInt32 → Bytes → Entry) :
    Local (keyOnly present make) :=
  (local_columnFamily present).bind fun _ => local_getLengthPrefixedSlice.bind fun _ => Local.pure _

theorem local_keyAndValue (present : Bool) (make : UInt32 → Bytes → Bytes → Entry) :
    Local (keyAndValue present make) :=
  (local_columnFamily present).bind fun _ => local_getLengthPrefixedSlice.bind fun _ =>
    local_getLengthPrefixedSlice.bind fun _ => Local.pure _

theorem local_sliceOnly (make : Bytes → Entry) : Local (sliceOnly make) :=
  local_getLengthPrefixedSlice.bind fun _ => Local.pure _

theorem local_recordCase {tag : UInt8} {message : String} {read : Reader UInt8 Entry}
    (h : recordCase tag = some (message, read)) : Local read := by
  unfold recordCase at h
  split at h <;> cases h
  all_goals
    first
    | exact local_keyAndValue _ _
    | exact local_keyOnly _ _
    | exact local_sliceOnly _
    | exact Local.pure _

theorem readEntry_cons {tag : UInt8} {message : String} {read : Reader UInt8 Entry}
    (h : recordCase tag = some (message, read)) (input : Bytes) :
    readEntry (tag :: input) = read input := by
  simp only [readEntry, readRecordFromWriteBatch, h]
  cases hread : read input with
  | none => simp [Except.toOption]
  | some r => simp [Except.toOption]

theorem spells_cons {tag : UInt8} {message : String} {read : Reader UInt8 Entry} {taken : Bytes}
    {e : Entry} (h : recordCase tag = some (message, read)) (htaken : Spells read taken e) :
    Spells readEntry (tag :: taken) e := by
  intro rest
  rw [List.cons_append, readEntry_cons h]
  exact htaken rest

theorem local_readEntry : Local readEntry := by
  intro input e rest h
  cases input with
  | nil => cases h
  | cons tag input =>
      cases hcase : recordCase tag with
      | none => simp [readEntry, readRecordFromWriteBatch, hcase, Except.toOption] at h
      | some r =>
          rw [readEntry_cons hcase] at h
          obtain ⟨taken, rfl, htaken⟩ := local_recordCase hcase h
          exact ⟨tag :: taken, rfl, spells_cons hcase htaken⟩

/-- The two tags of an update, without and with a column family. -/
theorem spells_tagged {defaultTag otherTag : UInt8} {message : String} {cf : UInt32}
    {next : UInt32 → Reader UInt8 Entry} {taken : Bytes} {e : Entry}
    (hdefault : recordCase defaultTag = some (message, (columnFamily false).bind next))
    (hother : recordCase otherTag = some (message, (columnFamily true).bind next))
    (htaken : Spells (next cf) taken e) :
    Spells readEntry (tagged defaultTag otherTag cf.toNat ++ taken) e := by
  unfold tagged
  split_ifs with hcf
  · have hzero : cf = 0 := UInt32.toNat_inj.mp hcf
    subst hzero
    exact spells_cons hdefault ((Spells.pure 0).bind htaken)
  · have hnumber := spells_encodeVarint32 cf.toNat_lt
    rw [Nat.toUInt32, UInt32.ofNat_toNat] at hnumber
    exact spells_cons hother (hnumber.bind htaken)

theorem spells_slice (make : Bytes → Entry) {slice : Bytes} (h : slice.length ≤ maxUint32) :
    Spells (getLengthPrefixedSlice.bind fun slice => Reader.pure (make slice))
      (lengthPrefixed slice) (make slice) := by
  intro rest
  rw [Reader.bind, spells_lengthPrefixed h]
  rfl

theorem spells_slices (make : Bytes → Bytes → Entry) {key value : Bytes}
    (hkey : key.length ≤ maxUint32) (hvalue : value.length ≤ maxUint32) :
    Spells (getLengthPrefixedSlice.bind fun key => getLengthPrefixedSlice.bind fun value =>
      Reader.pure (make key value)) (lengthPrefixed key ++ lengthPrefixed value)
      (make key value) := by
  intro rest
  rw [Reader.bind, List.append_assoc, spells_lengthPrefixed hkey]
  exact spells_slice (make key) hvalue rest

/-- What is written for an entry is read back, whatever follows. -/
theorem Entry.spells_bytes {e : Entry} (h : e.Fits) : Spells readEntry e.bytes e := by
  cases e with
  | put cf key value | merge cf key value | putBlobIndex cf key value | deleteRange cf key value =>
      have hkey := h key List.mem_cons_self
      have hvalue := h value (List.mem_cons_of_mem _ List.mem_cons_self)
      rw [Entry.bytes, List.append_assoc]
      exact spells_tagged rfl rfl (spells_slices _ hkey hvalue)
  | delete cf key | singleDelete cf key =>
      exact spells_tagged rfl rfl (spells_slice _ (h key List.mem_cons_self))
  | logData slice | endPrepare slice | commit slice | rollback slice =>
      exact spells_cons rfl (spells_slice _ (h slice List.mem_cons_self))
  | beginPrepare | beginPersistedPrepare | beginUnprepare | noop =>
      exact spells_cons rfl (Spells.pure _)

theorem Entry.bytes_ne_nil (e : Entry) : e.bytes ≠ [] := by
  have htagged : ∀ (a b : UInt8) (cf : ℕ), tagged a b cf ≠ [] := by
    intro a b cf
    unfold tagged
    split_ifs
    · exact List.cons_ne_nil _ _
    · exact List.cons_ne_nil _ _
  cases e <;> simp [Entry.bytes, htagged]

theorem Entry.spelling {entries : List Entry} (h : ∀ e ∈ entries, e.Fits) :
    Spelling readEntry Entry.bytes entries :=
  fun e he => ⟨e.spells_bytes (h e he), e.bytes_ne_nil⟩

end PowerLawRocksdb.BatchEntries
