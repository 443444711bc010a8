import PowerLawRocksdb.WalScan

/-!
# The scan of arbitrary write batches

The log of a database holds batches with any updates, on any column family, or with
none at all. The scan checks that a record has a header, and then takes the eight
bytes from offset 14 on for a decimal number. It is determined exactly for which
batches these bytes are all in the record and `std::stoll` accepts them. A shorter
record is read beyond its end, and what lies there decides. An exception ends the
scan, and the log is not deleted.

An update that a batch refuses leaves the batch as it is. Save points and a limit on
the size of a batch only take updates back and are left out.
-/
namespace PowerLawRocksdb.BatchGrammar
open LogFormat (Crc32c crc32c)
open Numerals LogWriter WriteBatch WalScan

/-- The calls that extend a batch, those for transactions and blob indexes included. -/
inductive Update where
  | put (columnFamily : UInt32) (key value : Bytes)
  | delete (columnFamily : UInt32) (key : Bytes)
  | singleDelete (columnFamily : UInt32) (key : Bytes)
  | deleteRange (columnFamily : UInt32) (beginKey endKey : Bytes)
  | merge (columnFamily : UInt32) (key value : Bytes)
  | putBlobIndex (columnFamily : UInt32) (key value : Bytes)
  | putLogData (blob : Bytes)
  | insertNoop
  | markEndPrepare (xid : Bytes) (writeAfterCommit unpreparedBatch : Bool)
  | markCommit (xid : Bytes)
  | markRollback (xid : Bytes)

/-- A counted entry: its tag, the column family and one or two strings. -/
def entry (rep : Bytes) (defaultTag otherTag : UInt8) (columnFamily : UInt32)
    (slices : List Bytes) : Bytes :=
  setCount rep (count rep + 1) ++ (tagged defaultTag otherTag columnFamily.toNat ++
    (slices.map lengthPrefixed).flatten)

def singleDelete (rep : Bytes) (columnFamily : UInt32) (key : Bytes) : Bytes :=
  entry rep 7 8 columnFamily [key]

def deleteRange (rep : Bytes) (columnFamily : UInt32) (beginKey endKey : Bytes) : Bytes :=
  entry rep 15 14 columnFamily [beginKey, endKey]

def merge (rep : Bytes) (columnFamily : UInt32) (key value : Bytes) : Except String Bytes :=
  if key.length > maxUint32 then .error "key is too large"
  else if value.length > maxUint32 then .error "value is too large"
  else .ok (entry rep 2 6 columnFamily [key, value])

def putBlobIndex (rep : Bytes) (columnFamily : UInt32) (key value : Bytes) : Bytes :=
  entry rep 17 16 columnFamily [key, value]

def putLogData (rep blob : Bytes) : Bytes := rep ++ (3 :: lengthPrefixed blob)

def insertNoop (rep : Bytes) : Bytes := rep ++ [13]

/-- The first entry must be the no-op that becomes the begin marker. -/
def markEndPrepare (rep xid : Bytes) (writeAfterCommit unpreparedBatch : Bool) :
    Except String Bytes :=
  if rep[12]? = some 13 then
    .ok (rep.set 12 (if writeAfterCommit then 9 else if unpreparedBatch then 19 else 18) ++
      (10 :: lengthPrefixed xid))
  else .error "the batch has no prepare section"

def markCommit (rep xid : Bytes) : Bytes := rep ++ (11 :: lengthPrefixed xid)

def markRollback (rep xid : Bytes) : Bytes := rep ++ (12 :: lengthPrefixed xid)

def Update.apply (rep : Bytes) : Update → Except String Bytes
  | .put cf key value => WriteBatch.put rep cf.toNat key value
  | .delete cf key => .ok (WriteBatch.delete rep cf.toNat key)
  | .singleDelete cf key => .ok (BatchGrammar.singleDelete rep cf key)
  | .deleteRange cf beginKey endKey => .ok (BatchGrammar.deleteRange rep cf beginKey endKey)
  | .merge cf key value => BatchGrammar.merge rep cf key value
  | .putBlobIndex cf key value => .ok (BatchGrammar.putBlobIndex rep cf key value)
  | .putLogData blob => .ok (BatchGrammar.putLogData rep blob)
  | .insertNoop => .ok (BatchGrammar.insertNoop rep)
  | .markEndPrepare xid writeAfterCommit unpreparedBatch =>
      BatchGrammar.markEndPrepare rep xid writeAfterCommit unpreparedBatch
  | .markCommit xid => .ok (BatchGrammar.markCommit rep xid)
  | .markRollback xid => .ok (BatchGrammar.markRollback rep xid)

/-- A batch that is written, with its sequence number. -/
structure Batch where
  updates : List Update
  sequence : ℕ

def build (updates : List Update) : Bytes :=
  updates.foldl (fun rep update => (update.apply rep).toOption.getD rep) empty

def Batch.record (b : Batch) : Bytes := setSequence (build b.updates) b.sequence

def Batch.entries (b : Batch) : Bytes := body (build b.updates)

/-- `DeleteObsoleteFileImpl` for a log goes on to the deletion of the file, unless the
scan throws. -/
def reachesDeletion (crc : Crc32c) (behind : ℕ → Behind) (number : ℕ) (file : Option Bytes) :
    Option Bool :=
  (genTopkForPartitioner crc behind number file).map fun scan => scan.exception.isNone

/-- The text behind white space and at most one sign. -/
def unsignedPart (s : Bytes) : Bytes :=
  let s := s.dropWhile isSpace
  if s.head? == some 45 || s.head? == some 43 then s.tail else s

def StartsNumber (s : Bytes) : Prop := ∃ b ∈ (unsignedPart s).head?, IsDigit b

/-- The entries are long enough, and a number begins at their third byte. For an
update of the default column family with a short key this is the start of the key. -/
def Batch.Numeric (b : Batch) : Prop :=
  10 ≤ b.entries.length ∧ StartsNumber ((b.entries.drop 2).take 8)

theorem le_length_append {rep : Bytes} (h : headerSize ≤ rep.length) (rest : Bytes) :
    headerSize ≤ (rep ++ rest).length := by
  rw [List.length_append]
  exact Nat.le_add_right_of_le h

theorem le_length_setCount {rep : Bytes} (h : headerSize ≤ rep.length) (n : ℕ) :
    headerSize ≤ (setCount rep n).length := by
  rwa [length_setCount h]

theorem Update.length_apply {rep rep' : Bytes} (h : headerSize ≤ rep.length) {u : Update}
    (hu : u.apply rep = .ok rep') : headerSize ≤ rep'.length := by
  have hcounted := le_length_setCount h (count rep + 1)
  cases u with
  | put cf key value =>
      rw [Update.apply, WriteBatch.put] at hu
      split_ifs at hu
      cases hu
      rw [List.append_assoc, List.append_assoc]
      exact le_length_append hcounted _
  | merge cf key value =>
      rw [Update.apply, BatchGrammar.merge] at hu
      split_ifs at hu
      cases hu
      exact le_length_append hcounted _
  | markEndPrepare xid writeAfterCommit unpreparedBatch =>
      rw [Update.apply, BatchGrammar.markEndPrepare] at hu
      split_ifs at hu
      all_goals
        cases hu
        apply le_length_append
        rwa [List.length_set]
  | delete cf key =>
      cases hu
      rw [WriteBatch.delete, List.append_assoc]
      exact le_length_append hcounted _
  | singleDelete cf key | deleteRange cf beginKey endKey | putBlobIndex cf key value =>
      cases hu
      exact le_length_append hcounted _
  | putLogData blob | insertNoop | markCommit xid | markRollback xid =>
      cases hu
      exact le_length_append h _

theorem length_build (updates : List Update) : headerSize ≤ (build updates).length := by
  have hall : ∀ rep : Bytes, headerSize ≤ rep.length → headerSize ≤
      (updates.foldl (fun rep update => (update.apply rep).toOption.getD rep) rep).length := by
    induction updates with
    | nil => exact fun rep h => h
    | cons u updates ih =>
        intro rep h
        rw [List.foldl_cons]
        apply ih
        cases hu : u.apply rep with
        | error _ => exact h
        | ok rep' => exact u.length_apply h hu
  exact hall empty length_empty

theorem length_unsignedPart (s : Bytes) : (unsignedPart s).length ≤ s.length := by
  have hdrop := (List.dropWhile_sublist (l := s) isSpace).length_le
  dsimp only [unsignedPart]
  split_ifs
  · rw [List.length_tail]
    omega
  · exact hdrop

/-- Eight characters are always in range, so only the first one decides. -/
theorem stoll_ok_iff {s : Bytes} (hs : s.length ≤ 8) :
    (∃ n, stoll s = .ok n) ↔ StartsNumber s := by
  set digits := (unsignedPart s).takeWhile fun b => decide (IsDigit b) with hdigits
  have hlen : digits.length ≤ 8 :=
    ((List.takeWhile_sublist _).length_le.trans (length_unsignedPart s)).trans hs
  have hall : ∀ b ∈ digits, IsDigit b := by
    intro b hb
    have hdigit := List.mem_takeWhile_imp (hdigits ▸ hb)
    exact of_decide_eq_true hdigit
  have hvalue : value digits < 10 ^ 8 :=
    (value_lt hall).trans_le (Nat.pow_le_pow_right (by decide) hlen)
  have hempty : digits.isEmpty = true ↔ ¬ StartsNumber s := by
    rw [hdigits, StartsNumber]
    cases unsignedPart s with
    | nil => simp
    | cons b rest =>
        by_cases hb : IsDigit b
        · simp [hb]
        · simp [hb]
  set n : ℤ := if (s.dropWhile isSpace).head? == some 45 then -(value digits : ℤ) else value digits
    with hn
  have hrange : ¬ (n < -2 ^ 63 ∨ 2 ^ 63 ≤ n) := by
    rw [hn]
    split_ifs
    · omega
    · omega
  have hstoll : stoll s = if digits.isEmpty then .error .invalidArgument else
      if n < -2 ^ 63 ∨ 2 ^ 63 ≤ n then .error .outOfRange else .ok n := rfl
  rw [hstoll, if_neg hrange]
  split_ifs with h
  · simp [hempty.mp h]
  · simp [not_not.mp (mt hempty.mpr h)]

theorem Batch.length_record (b : Batch) : b.record.length = 12 + b.entries.length := by
  have h := length_build b.updates
  rw [Batch.record, length_setSequence h, Batch.entries, body, List.length_drop]
  exact (Nat.add_sub_of_le h).symm

theorem Batch.drop_record (b : Batch) : b.record.drop 14 = b.entries.drop 2 := by
  have hbody : body b.record = b.entries := body_setSequence ..
  rw [← hbody, body, List.drop_drop]
  rfl

theorem length_keyStr (behind : Behind) (record : Bytes) : (keyStr behind record).length ≤ 8 := by
  rw [keyStr, List.length_map, List.length_range]

theorem Batch.scanRecord_cases (b : Batch) (behind : Behind) :
    (StartsNumber (keyStr behind b.record) ∧ ∃ key, scanRecord behind b.record = .key key) ∨
      ¬ StartsNumber (keyStr behind b.record) ∧
        ∃ e, scanRecord behind b.record = .exception e := by
  have hheader : ¬ b.record.length < headerSize := by
    rw [b.length_record]
    exact Nat.not_lt_of_le (Nat.le_add_right ..)
  have hstoll := stoll_ok_iff (length_keyStr behind b.record)
  rw [scanRecord, if_neg hheader, ← hstoll]
  cases stoll (keyStr behind b.record) with
  | ok n => exact .inl ⟨⟨n, rfl⟩, _, rfl⟩
  | error e =>
      refine .inr ⟨?_, e, rfl⟩
      rintro ⟨n, hn⟩
      cases hn

/-- The record is long enough and holds a number exactly if the batch is numeric. -/
theorem Batch.numeric_iff (b : Batch) (behind : Behind) :
    b.Numeric ↔ overreads b.record = false ∧ StartsNumber (keyStr behind b.record) := by
  have hlen := b.length_record
  have hover : overreads b.record = false ↔ 10 ≤ b.entries.length := by
    rw [overreads, decide_eq_false_iff_not, hlen, headerSize]
    omega
  rw [Batch.Numeric, hover]
  apply and_congr_right
  intro hlong
  rw [keyStr_eq (by omega), b.drop_record]

theorem exception_eq_none_iff (behind : ℕ → Behind) (batches : List Batch) :
    (scanAll behind (batches.map Batch.record)).exception = none ↔
      ∀ i b, batches[i]? = some b → StartsNumber (keyStr (behind i) b.record) := by
  induction batches generalizing behind with
  | nil => simp [scanAll]
  | cons b batches ih =>
      have hall : (∀ i b', (b :: batches)[i]? = some b' →
          StartsNumber (keyStr (behind i) b'.record)) ↔
          StartsNumber (keyStr (behind 0) b.record) ∧
            ∀ i b', batches[i]? = some b' → StartsNumber (keyStr (behind (i + 1)) b'.record) := by
        constructor
        · exact fun h => ⟨h 0 b rfl, fun i b' hb' => h (i + 1) b' hb'⟩
        · rintro ⟨hfirst, hrest⟩ (_ | i) b' hb'
          · cases hb'
            exact hfirst
          · exact hrest i b' hb'
      rw [hall, List.map_cons, scanAll, Scan.record, ← ih]
      rcases b.scanRecord_cases (behind 0) with ⟨hnumber, key, hscan⟩ | ⟨hnumber, e, hscan⟩
      · simp [hscan, hnumber]
      · simp [hscan, hnumber]

/-- Nothing is thrown, and nothing behind a record is read, exactly for numeric batches. -/
theorem scanAll_clean_iff (behind : ℕ → Behind) (batches : List Batch) :
    ((scanAll behind (batches.map Batch.record)).overread = false ∧
        (scanAll behind (batches.map Batch.record)).exception = none) ↔
      ∀ b ∈ batches, b.Numeric := by
  induction batches generalizing behind with
  | nil => simp [scanAll]
  | cons b batches ih =>
      rw [List.map_cons, List.forall_mem_cons, ← ih (fun n => behind (n + 1)),
        b.numeric_iff (behind 0), scanAll, Scan.record]
      rcases b.scanRecord_cases (behind 0) with ⟨hnumber, key, hscan⟩ | ⟨hnumber, e, hscan⟩
      · simp [hscan, hnumber, and_assoc]
      · simp [hscan, hnumber]

/-- The scan of a log stays within the records and throws nothing exactly if all batches
are numeric. The deletion of the log is reached exactly if the bytes that are read for
each batch begin with a number. -/
theorem reachesDeletion_iff (crc : Crc32c) (behind : ℕ → Behind) (batches : List Batch)
    (number : ℕ) :
    ∃ w scan, logRecords crc (Writer.init number false) (batches.map Batch.record) = some w ∧
      genTopkForPartitioner crc behind number (some w.dest) = some scan ∧
      (scan.overread = false ∧ scan.exception = none ↔ ∀ b ∈ batches, b.Numeric) ∧
      (reachesDeletion crc behind number (some w.dest) = some true ↔
        ∀ i b, batches[i]? = some b → StartsNumber (keyStr (behind i) b.record)) := by
  obtain ⟨w, hw, hscan⟩ := scan_logged crc (batches.map Batch.record) number
  refine ⟨w, _, hw, hscan behind, scanAll_clean_iff behind batches, ?_⟩
  rw [reachesDeletion, hscan, Option.map_some, Option.some.injEq, Option.isNone_iff_eq_none,
    exception_eq_none_iff]

/-- A batch that puts the key `12345678` is numeric. The record of one that puts `12345`
is too short, but the log is deleted, whatever lies behind the record. -/
theorem reachesDeletion_digits :
    (∃ w scan, logRecords crc32c (Writer.init 3 false)
        [(⟨[.put 0 [49, 50, 51, 52, 53, 54, 55, 56] []], 1⟩ : Batch).record] = some w ∧
      genTopkForPartitioner crc32c (fun _ _ => 0) 3 (some w.dest) = some scan ∧
      scan.overread = false ∧ scan.exception = none) ∧
    ∀ behind, ∃ w, logRecords crc32c (Writer.init 3 false)
        [(⟨[.put 0 [49, 50, 51, 52, 53] []], 1⟩ : Batch).record] = some w ∧
      reachesDeletion crc32c behind 3 (some w.dest) = some true := by
  constructor
  · obtain ⟨w, scan, hw, hscan, hclean, -⟩ := reachesDeletion_iff crc32c (fun _ _ => 0)
      [⟨[.put 0 [49, 50, 51, 52, 53, 54, 55, 56] []], 1⟩] 3
    refine ⟨w, scan, hw, hscan, hclean.mpr ?_⟩
    rw [List.forall_mem_singleton]
    exact ⟨by decide, 49, rfl, by decide⟩
  · intro behind
    obtain ⟨w, scan, hw, -, -, hdeleted⟩ := reachesDeletion_iff crc32c behind
      [⟨[.put 0 [49, 50, 51, 52, 53] []], 1⟩] 3
    refine ⟨w, hw, hdeleted.mpr ?_⟩
    rintro (_ | i) b hb
    · cases hb
      exact ⟨49, rfl, by decide⟩
    · cases hb

/-- For a batch that puts a key of letters the scan throws, and the log is not deleted.
For a batch without any update it reads behind the record. -/
theorem deletion_blocked :
    (∃ w, logRecords crc32c (Writer.init 3 false)
        [(⟨[.put 0 [97, 98, 99, 100, 101, 102, 103, 104] []], 1⟩ : Batch).record] = some w ∧
      ∀ behind, genTopkForPartitioner crc32c behind 3 (some w.dest) =
          some ⟨[], false, some .invalidArgument⟩ ∧
        reachesDeletion crc32c behind 3 (some w.dest) = some false) ∧
    ∃ w, logRecords crc32c (Writer.init 3 false) [(⟨[], 1⟩ : Batch).record] = some w ∧
      ∀ behind, ∃ scan, genTopkForPartitioner crc32c behind 3 (some w.dest) = some scan ∧
        scan.overread = true := by
  constructor
  · obtain ⟨w, hw, hscan⟩ := scan_logged crc32c
      [(⟨[.put 0 [97, 98, 99, 100, 101, 102, 103, 104] []], 1⟩ : Batch).record] 3
    refine ⟨w, hw, fun behind => ?_⟩
    have hgen := hscan behind
    rw [show scanAll behind _ = ⟨[], false, some .invalidArgument⟩ from rfl] at hgen
    exact ⟨hgen, by rw [reachesDeletion, hgen]; rfl⟩
  · obtain ⟨w, hw, hscan⟩ := scan_logged crc32c [(⟨[], 1⟩ : Batch).record] 3
    refine ⟨w, hw, fun behind => ⟨_, hscan behind, ?_⟩⟩
    rw [scanAll, Scan.record]
    rcases (⟨[], 1⟩ : Batch).scanRecord_cases (behind 0) with ⟨-, key, hkey⟩ | ⟨-, e, he⟩
    · rw [hkey]
      rfl
    · rw [he]
      rfl

end PowerLawRocksdb.BatchGrammar
