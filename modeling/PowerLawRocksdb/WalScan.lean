import PowerLawRocksdb.LogReplay
import PowerLawRocksdb.WriteBatch
import Mathlib.Data.List.TakeWhile

/-!
# Feeding the tracker from a log

Before a log file is deleted, its records are read and the key of each is given to
the tracker. The scan does not decode the batch: it takes the eight bytes from
offset 14 on for the decimal key, also if the record ends before. For the batches
that an instance logs this is the key of their only entry, so the tracker sees every
operation whose record is complete in the file, also when the file is torn at any
byte, and whatever lies behind the records in memory.
-/
namespace PowerLawRocksdb.WalScan
open Numerals LogFormat LogWriter LogReader LogReplay WriteBatch SpaceSaving

inductive StollError where
  | invalidArgument
  | outOfRange
  deriving DecidableEq, Repr

def isSpace (b : UInt8) : Bool := b == 32 || (decide (9 ≤ b) && decide (b ≤ 13))

/-- Leading white space, an optional sign, and then as many digits as there are. -/
def stoll (s : Bytes) : Except StollError ℤ :=
  let s := s.dropWhile isSpace
  let negative := s.head? == some 45
  let s := if negative || s.head? == some 43 then s.tail else s
  let digits := s.takeWhile fun b => decide (IsDigit b)
  let n : ℤ := if negative then -(value digits : ℤ) else value digits
  if digits.isEmpty then .error .invalidArgument
  else if n < -2 ^ 63 ∨ 2 ^ 63 ≤ n then .error .outOfRange
  else .ok n

inductive Outcome where
  | tooSmall
  | key (key : Key)
  | exception (e : StollError)

/-- The bytes that lie behind a record in memory. -/
abbrev Behind := ℕ → UInt8

/-- `rec_data[i]`. The data of a record is a part of a larger buffer, so a read behind
the end of the record gives what happens to be there. -/
def recData (behind : Behind) (record : Bytes) (i : ℕ) : UInt8 :=
  record.getD i (behind (i - record.length))

def keyStr (behind : Behind) (record : Bytes) : Bytes :=
  (List.range 8).map fun i => recData behind record (14 + i)

/-- The record is accepted, but the bytes of the key are not all in it. -/
def overreads (record : Bytes) : Bool :=
  decide (WriteBatch.headerSize ≤ record.length ∧ record.length < 22)

def scanRecord (behind : Behind) (record : Bytes) : Outcome :=
  if record.length < WriteBatch.headerSize then .tooSmall
  else
    match stoll (keyStr behind record) with
    | .error e => .exception e
    | .ok n => .key (UInt64.ofInt n)

/-- The keys that are given to `ProcessKey`, whether a byte behind a record has been read,
and the exception that ends the scan. -/
structure Scan where
  keys : List Key
  overread : Bool
  exception : Option StollError
  deriving DecidableEq, Repr

def Scan.record (rest : Scan) (behind : Behind) (record : Bytes) : Scan :=
  match scanRecord behind record with
  | .tooSmall => rest
  | .exception e => ⟨[], overreads record, some e⟩
  | .key key => ⟨key :: rest.keys, overreads record || rest.overread, rest.exception⟩

variable (crc : Crc32c)

/-- `behind n` is what lies behind the record after the next `n` ones. -/
def scanLoop : ℕ → (ℕ → Behind) → Reader → Option Scan
  | 0, _, _ => none
  | fuel + 1, behind, r =>
      (r.readRecord crc .tolerateCorruptedTailRecords).bind fun result =>
        match result.1 with
        | none => some ⟨[], false, none⟩
        | some record =>
            match scanRecord (behind 0) record with
            | .tooSmall =>
                scanLoop fuel (fun n => behind (n + 1))
                  (result.2.reportCorruption record.length "log record too small")
            | .exception e => some ⟨[], overreads record, some e⟩
            | .key key =>
                (scanLoop fuel (fun n => behind (n + 1)) result.2).map fun rest =>
                  ⟨key :: rest.keys, overreads record || rest.overread, rest.exception⟩

/-- The calls of `ProcessKey`. A file that cannot be opened is not scanned. -/
def genTopkForPartitioner (behind : ℕ → Behind) (log : ℕ) : Option Bytes → Option Scan
  | none => some ⟨[], false, none⟩
  | some file => scanLoop crc (file.length + 1) behind (Reader.init file true log)

def scanAll (behind : ℕ → Behind) : List Bytes → Scan
  | [] => ⟨[], false, none⟩
  | record :: records => (scanAll (fun n => behind (n + 1)) records).record (behind 0) record

/-- Operations are logged one by one, each with the length of the file after it.
One that is refused is not logged. -/
def logWrites : Writer → List Write → Option (Writer × List (Write × ℕ))
  | w, [] => some (w, [])
  | w, x :: xs =>
      match x.record with
      | .error _ => logWrites w xs
      | .ok record =>
          (w.addRecord crc record).bind fun w' =>
            (logWrites w' xs).map fun rest => (rest.1, (x, w'.dest.length) :: rest.2)

/-- From block offset `o`, a log consists of records with their stored bytes. -/
inductive Logged : ℕ → List (Bytes × Bytes) → Prop
  | nil (o : ℕ) (ho : o ≤ blockSize) : Logged o []
  | cons {o o' : ℕ} {slice bytes : Bytes} {log : List (Bytes × Bytes)}
      (h : Emits crc o true slice bytes o') (hlog : Logged o' log) :
      Logged o ((slice, bytes) :: log)

def contents (log : List (Bytes × Bytes)) : Bytes := (log.map Prod.snd).flatten

/-- The records that are complete within the first `t` bytes. -/
def kept : List (Bytes × Bytes) → ℕ → List Bytes
  | [], _ => []
  | (slice, bytes) :: log, t =>
      if bytes.length ≤ t then slice :: kept log (t - bytes.length) else []

variable {crc}

theorem At.reportCorruption {r : Reader} {o : ℕ} {rest : Bytes} (h : At r o rest) (bytes : ℕ)
    (reason : String) : At (r.reportCorruption bytes reason) o rest :=
  ⟨h.buffer, h.file, h.eof⟩

theorem contents_cons (slice bytes : Bytes) (log : List (Bytes × Bytes)) :
    contents ((slice, bytes) :: log) = bytes ++ contents log := rfl

/-- A truncated log is scanned like the list of its complete records. -/
theorem scanLoop_replay {o : ℕ} {log : List (Bytes × Bytes)} (h : Logged crc o log) {r : Reader}
    {t : ℕ} (hr : At r o ((contents log).take t)) {fuel : ℕ}
    (hfuel : ((contents log).take t).length < fuel) (behind : ℕ → Behind) :
    scanLoop crc fuel behind r = some (scanAll behind (kept log t)) := by
  induction h generalizing r t fuel behind with
  | nil o ho =>
      cases fuel with
      | zero => exact absurd hfuel (Nat.not_lt_zero _)
      | succ fuel =>
          obtain ⟨r', hread⟩ : ∃ r', r.readRecord crc .tolerateCorruptedTailRecords =
              some (none, r') := readRecord_nil ho (by simpa [contents] using hr)
          rw [scanLoop, hread]
          rfl
  | @cons o o' slice bytes log h hlog ih =>
      rw [contents_cons] at hr hfuel
      cases fuel with
      | zero => exact absurd hfuel (Nat.not_lt_zero _)
      | succ fuel =>
          by_cases hwhole : bytes.length ≤ t
          · rw [List.take_append, List.take_of_length_le hwhole] at hr hfuel
            obtain ⟨r', hread, hat⟩ := readRecord_whole h hr
            have hpos := h.length_pos
            rw [List.length_append] at hfuel
            have hrest : ((contents log).take (t - bytes.length)).length < fuel := by omega
            rw [scanLoop, hread, kept, if_pos hwhole, scanAll, Scan.record]
            simp only [Option.bind_some]
            cases scanRecord (behind 0) slice with
            | tooSmall => exact ih (At.reportCorruption hat _ _) hrest _
            | key key => exact congrArg (Option.map _) (ih hat hrest _)
            | exception e => rfl
          · have hpre : (bytes ++ contents log).take t <+: bytes := by
              rw [List.take_append_of_le_length (by omega)]
              exact List.take_prefix t bytes
            obtain ⟨r', hread⟩ := readRecord_torn h hr hpre (by rw [List.length_take]; omega)
            rw [scanLoop, hread, kept, if_neg hwhole]
            rfl

theorem Logged.of_start {log : List (Bytes × Bytes)} (h : Logged crc 0 log) :
    Logged crc blockSize log := by
  cases h with
  | nil ho => exact .nil blockSize le_rfl
  | cons h hlog =>
      refine .cons ?_ hlog
      cases h with
      | last => exact .last blockSize _ _ ‹_›
      | more => exact .more blockSize _ _ _ _ _ ‹_› ‹_› ‹_›

theorem genTopkForPartitioner_replay {log : List (Bytes × Bytes)} (h : Logged crc 0 log)
    (behind : ℕ → Behind) (logNumber t : ℕ) :
    genTopkForPartitioner crc behind logNumber (some ((contents log).take t)) =
      some (scanAll behind (kept log t)) :=
  scanLoop_replay h.of_start (at_init _ true logNumber) (Nat.lt_succ_self _) behind

def logRecords (crc : Crc32c) (w : Writer) (records : List Bytes) : Option Writer :=
  records.foldlM (fun w record => w.addRecord crc record) w

theorem logRecords_logged (crc : Crc32c) (records : List Bytes) (dest : Bytes) {o : ℕ}
    (ho : o ≤ blockSize) (logNumber : ℕ) :
    ∃ log o', Logged crc o log ∧ log.map Prod.fst = records ∧
      logRecords crc ⟨dest, o, logNumber, false⟩ records =
        some ⟨dest ++ contents log, o', logNumber, false⟩ := by
  induction records generalizing dest o with
  | nil =>
      refine ⟨[], o, .nil o ho, rfl, ?_⟩
      rw [contents, List.map_nil, List.flatten_nil, List.append_nil]
      rfl
  | cons record records ih =>
      obtain ⟨bytes, o₁, hemit, hadd⟩ : ∃ bytes o₁, Emits crc o true record bytes o₁ ∧ _ :=
        addRecord_emits dest o logNumber ho record
      obtain ⟨log, o', hlog, hmap, hrest⟩ := ih (dest ++ bytes) hemit.offset_le
      refine ⟨(record, bytes) :: log, o', .cons hemit hlog, by rw [List.map_cons, hmap], ?_⟩
      rw [logRecords, List.foldlM_cons, hadd, contents_cons, ← List.append_assoc]
      exact hrest

theorem kept_all (log : List (Bytes × Bytes)) :
    kept log (contents log).length = log.map Prod.fst := by
  induction log with
  | nil => rfl
  | cons entry log ih =>
      obtain ⟨slice, bytes⟩ := entry
      rw [kept, contents_cons, List.length_append, if_pos (Nat.le_add_right ..),
        Nat.add_sub_cancel_left, ih, List.map_cons]

theorem scan_logged (crc : Crc32c) (records : List Bytes) (logNumber : ℕ) :
    ∃ w, logRecords crc (Writer.init logNumber false) records = some w ∧ ∀ behind,
      genTopkForPartitioner crc behind logNumber (some w.dest) = some (scanAll behind records) := by
  obtain ⟨log, o', hlog, hmap, hw⟩ :=
    logRecords_logged crc records [] (Nat.zero_le blockSize) logNumber
  refine ⟨_, hw, fun behind => ?_⟩
  have hreplay := genTopkForPartitioner_replay hlog behind logNumber (contents log).length
  rwa [List.take_length, kept_all, hmap] at hreplay

theorem digit_start {b : UInt8} (h : IsDigit b) : isSpace b = false ∧ b ≠ 45 ∧ b ≠ 43 := by
  obtain ⟨h48, -⟩ := h
  rw [UInt8.le_iff_toNat_le] at h48
  have hne : ∀ c : UInt8, c.toNat < 48 → b ≠ c := by
    rintro c hc rfl
    exact absurd h48 (Nat.not_le.mpr hc)
  refine ⟨?_, hne 45 (by decide), hne 43 (by decide)⟩
  have h13 : ¬ b ≤ 13 := fun h13 => by
    rw [UInt8.le_iff_toNat_le] at h13
    exact absurd (h48.trans h13) (by decide)
  simp [isSpace, hne 32 (by decide), h13]

theorem stoll_digits {s : Bytes} (hs : s ≠ []) (hdigits : ∀ b ∈ s, IsDigit b)
    (hlt : value s < 2 ^ 63) : stoll s = .ok (value s : ℤ) := by
  cases s with
  | nil => exact absurd rfl hs
  | cons b s =>
      obtain ⟨hspace, hminus, hplus⟩ := digit_start (hdigits b List.mem_cons_self)
      have hdrop : (b :: s).dropWhile isSpace = b :: s := by
        rw [List.dropWhile_cons, hspace]
        rfl
      have htake : (b :: s).takeWhile (fun b => decide (IsDigit b)) = b :: s :=
        List.takeWhile_eq_self_iff.mpr fun b hb => decide_eq_true (hdigits b hb)
      have hrange : ¬ ((value (b :: s) : ℤ) < -2 ^ 63 ∨ (2 : ℤ) ^ 63 ≤ value (b :: s)) := by
        omega
      unfold stoll
      simp only [hdrop, List.head?_cons, Option.some_beq_some, beq_false_of_ne hminus,
        beq_false_of_ne hplus, Bool.or_self, Bool.false_eq_true, if_false, htake,
        List.isEmpty_cons, hrange]

theorem ofInt_natCast {n : ℕ} (h : n < 2 ^ 64) : UInt64.ofInt (n : ℤ) = UInt64.ofNat n := by
  have hlt : (n : ℤ) < 2 ^ 64 := by exact_mod_cast h
  rw [UInt64.ofInt, Int.emod_eq_of_lt (Int.natCast_nonneg _) hlt, Int.toNat_natCast]

theorem keyStr_eq {record : Bytes} (h : 22 ≤ record.length) (behind : Behind) :
    keyStr behind record = (record.drop 14).take 8 := by
  have hlen : (keyStr behind record).length = ((record.drop 14).take 8).length := by
    rw [keyStr, List.length_map, List.length_range, List.length_take, List.length_drop]
    omega
  apply List.ext_getElem hlen
  intro i hi _
  have hlt : 14 + i < record.length := by
    rw [keyStr, List.length_map, List.length_range] at hi
    omega
  rw [List.getElem_take, List.getElem_drop]
  simp [keyStr, recData, List.getElem?_eq_getElem hlt]

theorem overreads_eq_false {record : Bytes} (h : 22 ≤ record.length) : overreads record = false :=
  decide_eq_false fun hshort => Nat.not_lt.mpr h hshort.2

theorem scanRecord_eq (key : Key) {head : Bytes} (hhead : head.length = 14) (tail : Bytes) :
    22 ≤ (head ++ (printKey key ++ tail)).length ∧
      ∃ k, (∀ behind, scanRecord behind (head ++ (printKey key ++ tail)) = .key k) ∧
        k.toNat = value ((printKey key).take 8) := by
  have hkey := le_length_printKey key
  have hlen : 22 ≤ (head ++ (printKey key ++ tail)).length := by
    rw [List.length_append, List.length_append]
    omega
  have hbytes : ((head ++ (printKey key ++ tail)).drop 14).take 8 = (printKey key).take 8 := by
    rw [List.drop_left' hhead, List.take_append_of_le_length hkey]
  have htake : ((printKey key).take 8).length = 8 := List.length_take_of_le hkey
  have hdigits : ∀ b ∈ (printKey key).take 8, IsDigit b := fun b hb =>
    isDigit_of_mem_padded (List.mem_of_mem_take hb)
  have hlt := value_lt hdigits
  rw [htake] at hlt
  have hstoll := stoll_digits (List.ne_nil_of_length_pos (by omega)) hdigits
    (hlt.trans (by decide))
  refine ⟨hlen, UInt64.ofNat (value ((printKey key).take 8)), fun behind => ?_,
    UInt64.toNat_ofNat_of_lt (hlt.trans (by decide))⟩
  rw [scanRecord, if_neg (by rw [WriteBatch.headerSize]; omega), keyStr_eq hlen, hbytes, hstoll]
  exact congrArg Outcome.key (ofInt_natCast (hlt.trans (by decide)))

theorem value_take_printKey {key : Key} (h : key.toNat < 10 ^ 8) :
    value ((printKey key).take 8) = key.toNat := by
  rw [List.take_of_length_le (length_printKey h).le]
  exact value_padded 8 key.toNat

theorem record_of_key {key : Key} (h : key.toNat < 10 ^ 8) {head tail : Bytes}
    (hhead : head.length = 14) (rest : Scan) (behind : Behind) :
    rest.record behind (head ++ (printKey key ++ tail)) =
      ⟨key :: rest.keys, rest.overread, rest.exception⟩ := by
  obtain ⟨hlen, k, hscan, hk⟩ := scanRecord_eq key hhead tail
  rw [Scan.record, hscan, overreads_eq_false hlen,
    UInt64.toNat_inj.mp (hk.trans (value_take_printKey h))]
  rfl

/-- The scan takes the number of the first eight characters of the printed key for the
key, which is the key itself exactly if it has no more than eight digits. -/
theorem scanned_key (w : Write) {r : Bytes} (hr : w.record = .ok r) :
    ∃ k, (∀ behind, scanRecord behind r = .key k) ∧ overreads r = false ∧
      k.toNat = value ((printKey w.op.key).take 8) ∧
      (k = w.op.key ↔ w.op.key.toNat < 10 ^ 8) := by
  obtain ⟨head, tail, rfl, hhead⟩ := exists_of_record hr
  obtain ⟨hlen, k, hscan, hk⟩ := scanRecord_eq w.op.key hhead tail
  refine ⟨k, hscan, overreads_eq_false hlen, hk, ?_, ?_⟩
  · rintro rfl
    have hlt := value_lt fun b (hb : b ∈ (printKey w.op.key).take 8) =>
      isDigit_of_mem_padded (List.mem_of_mem_take hb)
    rw [hk]
    exact hlt.trans_le (Nat.pow_le_pow_right (by decide) (List.length_take_le ..))
  · intro h
    exact UInt64.toNat_inj.mp (hk.trans (value_take_printKey h))

/-- The key 123456789 is put, and the scan reads 12345678. -/
theorem scanned_key_long :
    ∃ r k, (⟨.put 123456789 [1], 4⟩ : Write).record = .ok r ∧
      (∀ behind, scanRecord behind r = .key k) ∧ k ≠ 123456789 := by
  obtain ⟨r, hr⟩ : ∃ r, (⟨.put 123456789 [1], 4⟩ : Write).record = .ok r := ⟨_, rfl⟩
  obtain ⟨k, hscan, -, -, hiff⟩ := scanned_key ⟨.put 123456789 [1], 4⟩ hr
  exact ⟨r, k, hr, hscan, hiff.not.mpr (by decide)⟩

/-- A scan of the log that begins at byte `start` gives the keys of the marked
operations, each as soon as the file reaches its mark. -/
structure Scans (start : ℕ) (log : List (Bytes × Bytes)) (marks : List (Write × ℕ)) : Prop where
  later : ∀ m ∈ marks, start < m.2
  scan : ∀ behind t, scanAll behind (kept log t) =
    ⟨(marks.filter fun m => m.2 ≤ start + t).map fun m => m.1.op.key, false, none⟩

theorem Scans.cons {start : ℕ} {log : List (Bytes × Bytes)} {marks : List (Write × ℕ)}
    {slice bytes : Bytes} {x : Write} (h : Scans (start + bytes.length) log marks)
    (hpos : 0 < bytes.length) (hkey : ∀ (rest : Scan) behind, rest.record behind slice =
      ⟨x.op.key :: rest.keys, rest.overread, rest.exception⟩) :
    Scans start ((slice, bytes) :: log) ((x, start + bytes.length) :: marks) := by
  constructor
  · intro m hm
    rcases List.mem_cons.mp hm with rfl | hm
    · exact Nat.lt_add_of_pos_right hpos
    · exact (Nat.le_add_right _ _).trans_lt (h.later m hm)
  · intro behind t
    rw [kept]
    by_cases hwhole : bytes.length ≤ t
    · have hshift : start + bytes.length + (t - bytes.length) = start + t := by omega
      have hfirst : decide (start + bytes.length ≤ start + t) = true := decide_eq_true (by omega)
      rw [if_pos hwhole, scanAll, hkey, h.scan, hshift, List.filter_cons, if_pos hfirst]
      rfl
    · have hnone : ((x, start + bytes.length) :: marks).filter (fun m => m.2 ≤ start + t) = [] := by
        rw [List.filter_eq_nil_iff]
        intro m hm
        rw [decide_eq_true_eq]
        rcases List.mem_cons.mp hm with rfl | hm
        · exact Nat.not_le.mpr (by omega)
        · have := h.later m hm
          omega
      rw [if_neg hwhole, hnone]
      rfl

theorem logWrites_scans (crc : Crc32c) (writes : List Write)
    (hkeys : ∀ x ∈ writes, x.op.key.toNat < 10 ^ 8) (dest : Bytes) {o : ℕ} (ho : o ≤ blockSize)
    (logNumber : ℕ) :
    ∃ log o' marks, Logged crc o log ∧
      logWrites crc ⟨dest, o, logNumber, false⟩ writes =
        some (⟨dest ++ contents log, o', logNumber, false⟩, marks) ∧
      marks.map Prod.fst = writes.filter (fun x => x.op.fits) ∧ Scans dest.length log marks := by
  induction writes generalizing dest o with
  | nil =>
      refine ⟨[], o, [], .nil o ho, ?_, rfl, ⟨by simp, fun behind t => rfl⟩⟩
      rw [logWrites, contents, List.map_nil, List.flatten_nil, List.append_nil]
  | cons x writes ih =>
      have hkey := hkeys x List.mem_cons_self
      have ih := @ih fun y hy => hkeys y (List.mem_cons_of_mem x hy)
      cases hfits : x.op.fits with
      | false =>
          obtain ⟨reason, hrecord⟩ := record_error x hfits
          obtain ⟨log, o', marks, hlog, hwrites, hmap, hscans⟩ := ih dest ho
          refine ⟨log, o', marks, hlog, ?_, ?_, hscans⟩
          · rw [logWrites, hrecord]
            exact hwrites
          · rw [List.filter_cons_of_neg (by simp [hfits])]
            exact hmap
      | true =>
          obtain ⟨head, tail, hrecord, hhead⟩ := record_eq x hfits
          obtain ⟨bytes, o₁, hemit, hadd⟩ : ∃ bytes o₁, Emits crc o true _ bytes o₁ ∧ _ :=
            addRecord_emits dest o logNumber ho (head ++ (printKey x.op.key ++ tail))
          obtain ⟨log, o', marks, hlog, hwrites, hmap, hscans⟩ := ih (dest ++ bytes) hemit.offset_le
          refine ⟨(_, bytes) :: log, o', (x, dest.length + bytes.length) :: marks,
            .cons hemit hlog, ?_, ?_, ?_⟩
          · rw [logWrites, hrecord]
            simp only [hadd, Option.bind_some, hwrites, Option.map_some, contents_cons,
              List.append_assoc, List.length_append]
          · rw [List.filter_cons_of_pos (by simp [hfits]), List.map_cons, hmap]
          · rw [List.length_append] at hscans
            exact hscans.cons hemit.length_pos (record_of_key hkey hhead)

/-- The tracker is fed exactly the keys of the operations whose record is complete
in the file, however the file is cut off. -/
theorem genTopkForPartitioner_torn (crc : Crc32c) (writes : List Write)
    (hkeys : ∀ x ∈ writes, x.op.key.toNat < 10 ^ 8) (logNumber : ℕ) :
    ∃ w marks, logWrites crc (Writer.init logNumber false) writes = some (w, marks) ∧
      marks.map Prod.fst = writes.filter (fun x => x.op.fits) ∧
      ∀ behind, ∀ t ≤ w.dest.length,
        genTopkForPartitioner crc behind logNumber (some (w.dest.take t)) =
          some ⟨(marks.filter fun m => m.2 ≤ t).map fun m => m.1.op.key, false, none⟩ := by
  obtain ⟨log, o', marks, hlog, hwrites, hmap, hscans⟩ :=
    logWrites_scans crc writes hkeys [] (Nat.zero_le blockSize) logNumber
  refine ⟨_, marks, hwrites, hmap, fun behind t _ => ?_⟩
  have hreplay := genTopkForPartitioner_replay hlog behind logNumber t
  rw [hscans.scan behind t, List.length_nil, Nat.zero_add] at hreplay
  exact hreplay

theorem genTopkForPartitioner_torn_two :
    ∃ w marks, logWrites crc32c (Writer.init 7 false)
        [⟨.put 5 [1, 1, 1], 1⟩, ⟨.del 99999999, 2⟩] = some (w, marks) ∧
      marks.map (fun m => m.1.op.key) = [5, 99999999] ∧
      ∀ behind, ∀ t ≤ w.dest.length,
        genTopkForPartitioner crc32c behind 7 (some (w.dest.take t)) =
          some ⟨(marks.filter fun m => m.2 ≤ t).map fun m => m.1.op.key, false, none⟩ := by
  obtain ⟨w, marks, hwrites, hmap, hscan⟩ := genTopkForPartitioner_torn crc32c
    [⟨.put 5 [1, 1, 1], 1⟩, ⟨.del 99999999, 2⟩] (by decide) 7
  refine ⟨w, marks, hwrites, ?_, hscan⟩
  have := congrArg (List.map fun x : Write => x.op.key) hmap
  rwa [List.map_map] at this

end PowerLawRocksdb.WalScan
