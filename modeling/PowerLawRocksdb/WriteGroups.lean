import PowerLawRocksdb.WalScan

/-!
# Write groups

Writers that arrive together are logged as one record. A group of one writer is
logged as it is. For a larger group the entries of all batches are appended to one
batch, behind a common header. The scan of the log reads one key per record, which
is the key of the first operation of the group.

The flags of a batch and the states cached for recovery are not modelled.
-/
namespace PowerLawRocksdb.WriteGroups
open LogFormat (Crc32c crc32c)
open Numerals LogWriter WriteBatch WalScan SpaceSaving

/-- A member of a write group. The termination point, if it is set, gives the size
and the count of the part of the batch that belongs in the log. -/
structure GroupWriter where
  batch : Bytes
  callbackFailed : Bool
  terminationPoint : Option (ℕ × ℕ)

def plain (rep : Bytes) : GroupWriter := ⟨rep, false, none⟩

def append (dst : Bytes) (src : GroupWriter) : Bytes :=
  match src.terminationPoint with
  | some (size, n) => setCount dst (count dst + n) ++ (body src.batch).take (size - headerSize)
  | none => setCount dst (count dst + count src.batch) ++ body src.batch

def appendAll (dst : Bytes) (group : List GroupWriter) : Bytes :=
  group.foldl (fun dst writer => if writer.callbackFailed then dst else append dst writer) dst

/-- The batch that is logged for a group. -/
def mergeBatch : List GroupWriter → Bytes
  | [leader] =>
      if !leader.callbackFailed && leader.terminationPoint.isNone then leader.batch
      else appendAll empty [leader]
  | group => appendAll empty group

structure PutOp where
  key : Key
  value : Bytes
  small : key.toNat < 10 ^ 8
  fits : value.length ≤ maxUint32

/-- The operations of one group in order, and its sequence number. -/
structure WriteGroup where
  ops : List PutOp
  sequence : ℕ
  nonempty : ops ≠ []

def PutOp.batch (p : PutOp) : Except String Bytes := (Op.put p.key p.value).batch

/-- The record that `WriteToWAL` appends. -/
def WriteGroup.record (g : WriteGroup) : Except String Bytes := do
  let batches ← g.ops.mapM PutOp.batch
  return setSequence (mergeBatch (batches.map plain)) g.sequence

def opsOf (groups : List WriteGroup) : List PutOp := groups.flatMap WriteGroup.ops

def logGroups (crc : Crc32c) (w : Writer) (groups : List WriteGroup) : Option Writer :=
  (groups.mapM fun g : WriteGroup => g.record.toOption).bind (logRecords crc w)

theorem append_plain {dst : Bytes} (h : headerSize ≤ dst.length) (rep : Bytes) :
    body (append dst (plain rep)) = body dst ++ body rep ∧
      headerSize ≤ (append dst (plain rep)).length := by
  constructor
  · exact body_setCount h _ _
  · simp only [append, plain, List.length_append, length_setCount h]
    omega

theorem appendAll_plain (reps : List Bytes) {dst : Bytes} (h : headerSize ≤ dst.length) :
    body (appendAll dst (reps.map plain)) =
        body dst ++ (reps.map body).flatten ∧
      headerSize ≤ (appendAll dst (reps.map plain)).length := by
  induction reps generalizing dst with
  | nil =>
      constructor
      · exact (List.append_nil _).symm
      · exact h
  | cons rep reps ih =>
      obtain ⟨hbody, hlen⟩ := append_plain h rep
      obtain ⟨hall, hlen'⟩ := ih hlen
      constructor
      · rw [List.map_cons, List.map_cons, List.flatten_cons, ← List.append_assoc, ← hbody, ← hall]
        rfl
      · exact hlen'

theorem mergeBatch_plain {reps : List Bytes} (hreps : ∀ rep ∈ reps, headerSize ≤ rep.length) :
    body (mergeBatch (reps.map plain)) = (reps.map body).flatten ∧
      headerSize ≤ (mergeBatch (reps.map plain)).length := by
  have hmerged := appendAll_plain reps length_empty
  match reps with
  | [] => exact hmerged
  | [rep] =>
      constructor
      · exact (List.append_nil _).symm
      · exact hreps rep List.mem_cons_self
  | _ :: _ :: _ => exact hmerged

theorem PutOp.batch_eq (p : PutOp) :
    ∃ rep, p.batch = .ok rep ∧ headerSize ≤ rep.length ∧
      body rep = [1, 8] ++ (printKey p.key ++ lengthPrefixed p.value) := by
  have hvalue : ¬ p.value.length > maxUint32 := Nat.not_lt_of_le p.fits
  refine ⟨_, by
    rw [PutOp.batch, Op.batch, WriteBatch.put, if_neg (printKey_not_large p.key),
      if_neg hvalue], ?_, ?_⟩
  · simp only [List.length_append, length_setCount length_empty]
    exact length_empty.trans (by omega)
  · rw [List.append_assoc, List.append_assoc, body_setCount length_empty,
      lengthPrefixed_printKey, length_printKey p.small]
    rfl

theorem mapM_batch (ops : List PutOp) :
    ∃ reps, ops.mapM PutOp.batch = .ok reps ∧ (∀ rep ∈ reps, headerSize ≤ rep.length) ∧
      reps.map body = ops.map fun p => [1, 8] ++ (printKey p.key ++ lengthPrefixed p.value) := by
  induction ops with
  | nil => exact ⟨[], rfl, by simp, rfl⟩
  | cons p ops ih =>
      obtain ⟨rep, hrep, hlen, hbody⟩ := p.batch_eq
      obtain ⟨reps, hreps, hlens, hbodies⟩ := ih
      refine ⟨rep :: reps, ?_, ?_, ?_⟩
      · rw [List.mapM_cons, hrep, hreps]
        rfl
      · exact List.forall_mem_cons.mpr ⟨hlen, hlens⟩
      · rw [List.map_cons, List.map_cons, hbody, hbodies]

def WriteGroup.firstKey (g : WriteGroup) : Key := (g.ops.head g.nonempty).key

/-- The scan takes the first key of a group for the key of its record. -/
theorem WriteGroup.record_scan (g : WriteGroup) :
    ∃ record, g.record = .ok record ∧ ∀ (rest : Scan) behind, rest.record behind record =
      ⟨g.firstKey :: rest.keys, rest.overread, rest.exception⟩ := by
  obtain ⟨reps, hreps, hlens, hbodies⟩ := mapM_batch g.ops
  obtain ⟨hbody, hlen⟩ := mergeBatch_plain hlens
  refine ⟨setSequence (mergeBatch (reps.map plain)) g.sequence, ?_, ?_⟩
  · rw [WriteGroup.record, hreps]
    rfl
  · set record := setSequence (mergeBatch (reps.map plain)) g.sequence
    have hrecord : record = record.take headerSize ++ body record :=
      (List.take_append_drop _ _).symm
    have hhead : (record.take headerSize).length = headerSize := by
      rw [List.length_take, length_setSequence hlen, min_eq_left hlen]
    have hhead' : (record.take headerSize ++ [1, 8]).length = 14 := by
      rw [List.length_append, hhead]
      rfl
    have hscan : ∀ tail (rest : Scan) behind, rest.record behind
        ((record.take headerSize ++ [1, 8]) ++ (printKey g.firstKey ++ tail)) =
          ⟨g.firstKey :: rest.keys, rest.overread, rest.exception⟩ := fun tail =>
      record_of_key (g.ops.head g.nonempty).small hhead'
    rw [hrecord, body_setSequence, hbody, hbodies, ← List.cons_head_tail g.nonempty,
      List.map_cons, List.flatten_cons]
    simp only [List.append_assoc] at hscan ⊢
    exact hscan _

theorem mapM_record (groups : List WriteGroup) :
    ∃ records, groups.mapM (fun g => g.record.toOption) = some records ∧
      ∀ behind, scanAll behind records = ⟨groups.map WriteGroup.firstKey, false, none⟩ := by
  induction groups with
  | nil => exact ⟨[], rfl, fun _ => rfl⟩
  | cons g groups ih =>
      obtain ⟨record, hrecord, hscan⟩ := g.record_scan
      obtain ⟨records, hrecords, hall⟩ := ih
      refine ⟨record :: records, ?_, ?_⟩
      · rw [List.mapM_cons, hrecord, hrecords]
        rfl
      · intro behind
        rw [scanAll, hscan, hall, List.map_cons]

/-- The tracker is fed one key per group. -/
theorem scan_logGroups (crc : Crc32c) (groups : List WriteGroup) (logNumber : ℕ) :
    ∃ w, logGroups crc (Writer.init logNumber false) groups = some w ∧
      ∀ behind, genTopkForPartitioner crc behind logNumber (some w.dest) =
        some ⟨groups.map WriteGroup.firstKey, false, none⟩ := by
  obtain ⟨records, hrecords, hall⟩ := mapM_record groups
  obtain ⟨w, hw, hscan⟩ := scan_logged crc records logNumber
  refine ⟨w, ?_, ?_⟩
  · rw [logGroups, hrecords, Option.bind_some, hw]
  · intro behind
    rw [hscan, hall]

theorem opsOf_cons (g : WriteGroup) (groups : List WriteGroup) :
    opsOf (g :: groups) = g.ops ++ opsOf groups := rfl

theorem length_le_opsOf (groups : List WriteGroup) : groups.length ≤ (opsOf groups).length := by
  induction groups with
  | nil => exact Nat.le_refl 0
  | cons g groups ih =>
      have hpos := List.length_pos_of_ne_nil g.nonempty
      rw [opsOf_cons, List.length_append, List.length_cons]
      omega

/-- One key per group is one key per operation only if every group is a single one. -/
theorem firstKeys_eq_iff (groups : List WriteGroup) :
    groups.map WriteGroup.firstKey = (opsOf groups).map PutOp.key ↔
      ∀ g ∈ groups, g.ops.length = 1 := by
  induction groups with
  | nil => simp [opsOf]
  | cons g groups ih =>
      rw [List.forall_mem_cons, ← ih, opsOf_cons, List.map_append, List.map_cons]
      constructor
      · intro h
        have hlen := congrArg List.length h
        have hle := length_le_opsOf groups
        have hpos := List.length_pos_of_ne_nil g.nonempty
        simp only [List.length_cons, List.length_append, List.length_map] at hlen
        have hone : g.ops.length = 1 := by omega
        obtain ⟨p, hp⟩ := List.length_eq_one_iff.mp hone
        refine ⟨hone, ?_⟩
        rw [hp] at h
        exact (List.cons.inj h).2
      · rintro ⟨hone, h⟩
        obtain ⟨p, hp⟩ := List.length_eq_one_iff.mp hone
        have hfirst : g.firstKey = p.key := by simp only [WriteGroup.firstKey, hp, List.head_cons]
        rw [hp, hfirst, h]
        rfl

/-- Two groupings of the same operations feed the tracker the keys of all of them
exactly if neither merges anything. -/
theorem scan_groupings_iff (crc : Crc32c) (logNumber : ℕ) (groups₁ groups₂ : List WriteGroup)
    (h : opsOf groups₁ = opsOf groups₂) (behind : ℕ → Behind) :
    ∃ w₁ w₂, logGroups crc (Writer.init logNumber false) groups₁ = some w₁ ∧
      logGroups crc (Writer.init logNumber false) groups₂ = some w₂ ∧
      ((genTopkForPartitioner crc behind logNumber (some w₁.dest) =
            some ⟨(opsOf groups₁).map PutOp.key, false, none⟩ ∧
          genTopkForPartitioner crc behind logNumber (some w₂.dest) =
            some ⟨(opsOf groups₁).map PutOp.key, false, none⟩) ↔
        ∀ g ∈ groups₁ ++ groups₂, g.ops.length = 1) := by
  obtain ⟨w₁, hw₁, hscan₁⟩ := scan_logGroups crc groups₁ logNumber
  obtain ⟨w₂, hw₂, hscan₂⟩ := scan_logGroups crc groups₂ logNumber
  refine ⟨w₁, w₂, hw₁, hw₂, ?_⟩
  rw [List.forall_mem_append, ← firstKeys_eq_iff, ← firstKeys_eq_iff, ← h, hscan₁, hscan₂]
  simp only [Option.some.injEq, Scan.mk.injEq, and_true]

def putFive : PutOp := ⟨5, [1], by decide, by decide⟩
def putSeven : PutOp := ⟨7, [], by decide, by decide⟩

theorem scan_groupings_single :
    ∃ w, logGroups crc32c (Writer.init 3 false)
        [⟨[putFive], 1, by simp⟩, ⟨[putSeven], 2, by simp⟩] = some w ∧
      genTopkForPartitioner crc32c (fun _ _ => 0) 3 (some w.dest) =
        some ⟨[5, 7], false, none⟩ := by
  obtain ⟨w, _, hw, -, hiff⟩ := scan_groupings_iff crc32c 3
    [⟨[putFive], 1, by simp⟩, ⟨[putSeven], 2, by simp⟩]
    [⟨[putFive], 1, by simp⟩, ⟨[putSeven], 2, by simp⟩] rfl (fun _ _ => 0)
  exact ⟨w, hw, (hiff.mpr (by decide)).1⟩

/-- Two puts that are merged into one record: the second one is not counted. -/
theorem scan_merged_pair :
    ∃ w, logGroups crc32c (Writer.init 3 false) [⟨[putFive, putSeven], 1, by simp⟩] = some w ∧
      ∀ behind, genTopkForPartitioner crc32c behind 3 (some w.dest) = some ⟨[5], false, none⟩ :=
  scan_logGroups crc32c [⟨[putFive, putSeven], 1, by simp⟩] 3

end PowerLawRocksdb.WriteGroups
