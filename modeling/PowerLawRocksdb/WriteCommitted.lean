import PowerLawRocksdb.MemTableInserter

/-!
# Transactions that are written at their commit

By default a transaction is written to the log when it is prepared, and to the
memtables when it commits. Each update has a sequence number of its own.
-/
namespace PowerLawRocksdb.WriteCommitted
open Numerals WriteBatch BatchEntries BatchIterate BatchGrammar BatchContents WriteGroups
open MemTableInserter

/-- The default policy, with one thread that inserts. -/
structure Policy (o : Options) : Prop where
  seqPerBatch : o.seqPerBatch = false
  batchPerTxn : o.batchPerTxn = true
  serial : o.concurrentMemtableWrites = false

/-- What an update adds to the memtable of its column family. -/
def payload : Entry → Option (UInt32 × ValueType × Bytes × Bytes)
  | .put cf key value => some (cf, .value, key, value)
  | .delete cf key => some (cf, .deletion, key, [])
  | .singleDelete cf key => some (cf, .singleDeletion, key, [])
  | .deleteRange cf beginKey endKey => some (cf, .rangeDeletion, beginKey, endKey)
  | .merge cf key value => some (cf, .merge, key, value)
  | .putBlobIndex cf key value => some (cf, .blobIndex, key, value)
  | .logData _ | .beginPrepare | .beginPersistedPrepare | .beginUnprepare | .endPrepare _
  | .commit _ | .rollback _ | .noop => none

/-- What is kept of an entry in a transaction that is rebuilt. -/
def rebuilt : Entry → Option Entry
  | .putBlobIndex cf key value => some (.put cf key value)
  | e => if e.counted then some e else none

/-- The additions of a list of entries, numbered from `sequence` on. -/
def additions : ℕ → List Entry → List (UInt32 × MemEntry)
  | _, [] => []
  | sequence, e :: entries =>
      match payload e with
      | none => additions sequence entries
      | some (cf, type, key, value) =>
          (cf, ⟨sequence, type, key, value⟩) :: additions (sequence + 1) entries

def record (m : MemTable) (ref : ℕ) (e : MemEntry) : MemTable :=
  let m := if 0 < ref then m.refLogContainingPrepSection ref else m
  { m with entries := m.entries ++ [e] }

/-- A column family that has been flushed does not need the log. -/
def Skips (o : Options) (family : ColumnFamily) : Prop :=
  o.recovering ∧ o.recoveringLogNumber < family.logNumber

instance (o : Options) (family : ColumnFamily) : Decidable (Skips o family) :=
  inferInstanceAs (Decidable (_ ∧ _))

def receive (o : Options) (ref : ℕ) (e : MemEntry) (family : ColumnFamily) : ColumnFamily :=
  if Skips o family then family else { family with mem := record family.mem ref e }

def insertOne (o : Options) (ref : ℕ) (cfs : ColumnFamilies) (a : UInt32 × MemEntry) :
    ColumnFamilies :=
  Function.update cfs a.1 ((cfs a.1).map (receive o ref a.2))

def insertAll (o : Options) (ref : ℕ) (cfs : ColumnFamilies) (as : List (UInt32 × MemEntry)) :
    ColumnFamilies :=
  as.foldl (insertOne o ref) cfs

/-- The column families that there are, and whether they support range deletions. -/
def schema (cfs : ColumnFamilies) : UInt32 → Option Bool :=
  fun cf => (cfs cf).map ColumnFamily.deleteRangeSupported

/-- The column family of an update is there and supports the update. -/
def Supported (families : UInt32 → Option Bool) (e : Entry) : Prop :=
  ∀ cf type key value, payload e = some (cf, type, key, value) →
    ∃ range, families cf = some range ∧ (type = .rangeDeletion → range = true)

/-- Everything in the memtables is older than `sequence`. -/
def Older (cfs : ColumnFamilies) (sequence : ℕ) : Prop :=
  ∀ cf family, cfs cf = some family → ∀ e ∈ family.mem.entries, e.sequence < sequence

section
variable {o : Options} {cfs : ColumnFamilies} {ref sequence : ℕ}

theorem insertOne_eq_some {a : UInt32 × MemEntry} {cf : UInt32} {family : ColumnFamily}
    (h : insertOne o ref cfs a cf = some family) :
    ∃ old, cfs cf = some old ∧ family = if cf = a.1 then receive o ref a.2 old else old := by
  unfold insertOne at h
  by_cases hcf : cf = a.1
  · subst hcf
    rw [Function.update_self] at h
    obtain ⟨old, hold, hnew⟩ := Option.map_eq_some_iff.mp h
    exact ⟨old, hold, by rw [if_pos rfl, hnew]⟩
  · rw [Function.update_of_ne hcf] at h
    exact ⟨family, h, by rw [if_neg hcf]⟩

theorem receive_deleteRangeSupported (e : MemEntry) (family : ColumnFamily) :
    (receive o ref e family).deleteRangeSupported = family.deleteRangeSupported := by
  unfold receive
  split_ifs <;> rfl

theorem schema_insertOne (a : UInt32 × MemEntry) :
    schema (insertOne o ref cfs a) = schema cfs := by
  funext cf
  unfold schema insertOne
  by_cases hcf : cf = a.1
  · subst hcf
    rw [Function.update_self]
    cases cfs a.1 with
    | none => rfl
    | some family => exact congrArg some (receive_deleteRangeSupported a.2 family)
  · rw [Function.update_of_ne hcf]

theorem record_entries (m : MemTable) (ref : ℕ) (e : MemEntry) :
    (record m ref e).entries = m.entries ++ [e] := by
  unfold record MemTable.refLogContainingPrepSection
  split_ifs <;> rfl

theorem mem_receive {e e' : MemEntry} {family : ColumnFamily}
    (h : e' ∈ (receive o ref e family).mem.entries) : e' ∈ family.mem.entries ∨ e' = e := by
  unfold receive at h
  split_ifs at h
  · exact .inl h
  · rw [record_entries, List.mem_append, List.mem_singleton] at h
    exact h

theorem Older.insertOne (h : Older cfs sequence) {a : UInt32 × MemEntry}
    (ha : a.2.sequence = sequence) : Older (insertOne o ref cfs a) (sequence + 1) := by
  intro cf family hfamily e he
  obtain ⟨old, hold, rfl⟩ := insertOne_eq_some hfamily
  have hall : ∀ e ∈ old.mem.entries, e.sequence < sequence + 1 := fun e he =>
    (h cf old hold e he).trans (Nat.lt_succ_self _)
  split_ifs at he
  · rcases mem_receive he with he | rfl
    · exact hall e he
    · rw [ha]
      exact Nat.lt_succ_self _
  · exact hall e he

/-- A key with a new sequence number is added. -/
theorem add_eq {m : MemTable} {e : MemEntry} (h : ∀ e' ∈ m.entries, e'.sequence < e.sequence)
    (hmax : e.sequence ≤ maxSequenceNumber) :
    m.add e = some (some { m with entries := m.entries ++ [e] }) := by
  have hnone : (m.entries.any fun e' =>
      e'.sameTable e && e'.key == e.key && e'.sequence == e.sequence) = false := by
    rw [List.any_eq_false]
    intro e' he'
    have hne : ¬ e'.sequence = e.sequence := (h e' he').ne
    simp [hne]
  rw [MemTable.add, if_neg (Nat.not_lt.mpr hmax), hnone]
  rfl

end

/-- The state after some additions. -/
def inserted (o : Options) (i : Inserter) (as : List (UInt32 × MemEntry)) : Inserter :=
  { i with
    sequence := i.sequence + as.length
    columnFamilies := insertAll o i.logNumberRef i.columnFamilies as }

section
variable {o : Options} (ho : Policy o) {i : Inserter}
include ho

theorem maybeAdvanceSeq_false (i : Inserter) :
    i.maybeAdvanceSeq o false = { i with sequence := i.sequence + 1 } := by
  rw [Inserter.maybeAdvanceSeq, if_pos ho.seqPerBatch.symm]

theorem maybeAdvanceSeq_true (i : Inserter) : i.maybeAdvanceSeq o true = i := by
  rw [Inserter.maybeAdvanceSeq, if_neg (by rw [ho.seqPerBatch]; decide)]

theorem writeAfterCommit_eq : o.writeAfterCommit = true := by
  rw [Options.writeAfterCommit, ho.seqPerBatch]
  rfl

omit ho in
theorem seekToColumnFamily_eq {cf : UInt32} {family : ColumnFamily}
    (hfamily : i.columnFamilies cf = some family) :
    i.seekToColumnFamily o cf = if Skips o family then .error .ok else
      .ok { family with
        mem := if 0 < i.logNumberRef then family.mem.refLogContainingPrepSection i.logNumberRef
          else family.mem } := by
  rw [Inserter.seekToColumnFamily, hfamily]
  dsimp only
  split_ifs <;> first | rfl | contradiction

theorem inserter_add_eq (hrebuilding : i.rebuildingTrx = none)
    (hmax : i.sequence ≤ maxSequenceNumber) {family : ColumnFamily}
    (hmem : ∀ e ∈ family.mem.entries, e.sequence < i.sequence) (cf : UInt32) (type : ValueType)
    (key value : Bytes) (u : Update) :
    i.add o cf family type key value u =
      some (.ok, { i with
        sequence := i.sequence + 1
        columnFamilies := Function.update i.columnFamilies cf (some { family with
          mem := { family.mem with
            entries := family.mem.entries ++ [⟨i.sequence, type, key, value⟩] } }) }) := by
  have hadd := add_eq (m := family.mem) (e := ⟨i.sequence, type, key, value⟩) hmem hmax
  rw [Inserter.add, hadd]
  dsimp only
  rw [if_neg (by simp [Inserter.setColumnFamily, hrebuilding]), maybeAdvanceSeq_false ho,
    Inserter.rebuild, Inserter.setColumnFamily, hrebuilding]
  rfl

/-- An update that is not part of a transaction is added with the next number. -/
theorem update_eq (hrebuilding : i.rebuildingTrx = none) (hmax : i.sequence ≤ maxSequenceNumber)
    (holder : Older i.columnFamilies i.sequence) {cf : UInt32} {family : ColumnFamily}
    (hfamily : i.columnFamilies cf = some family) {check : ColumnFamily → Option Status}
    (hcheck : ∀ mem, check { family with mem } = none) (type : ValueType) (key value : Bytes)
    (u : Update) :
    i.update o cf type key value u check =
      some (.ok, inserted o i [(cf, ⟨i.sequence, type, key, value⟩)]) := by
  have hinserted : insertAll o i.logNumberRef i.columnFamilies
      [(cf, ⟨i.sequence, type, key, value⟩)] = Function.update i.columnFamilies cf
        (some (receive o i.logNumberRef ⟨i.sequence, type, key, value⟩ family)) := by
    rw [insertAll, List.foldl_cons, List.foldl_nil, insertOne, hfamily, Option.map_some]
  unfold inserted
  rw [hinserted, receive, Inserter.update, if_neg (by simp [hrebuilding]),
    seekToColumnFamily_eq hfamily]
  by_cases hskips : Skips o family
  · rw [if_pos hskips, if_pos hskips, ← hfamily, Function.update_eq_self]
    dsimp only
    rw [Inserter.skip, if_pos (by rw [hrebuilding]; rfl), maybeAdvanceSeq_false ho]
    rfl
  · rw [if_neg hskips, if_neg hskips]
    dsimp only
    rw [hcheck, inserter_add_eq ho hrebuilding hmax]
    · rfl
    · intro e he
      apply holder cf family hfamily
      dsimp only at he
      unfold MemTable.refLogContainingPrepSection at he
      split_ifs at he <;> exact he

variable (commit : Bytes → Inserter → Option (Status × Inserter))

omit ho in
theorem extend_pair {e : Entry} {key value : Bytes} (hslices : e.slices = [key, value])
    (hfits : e.Fits) : ¬ (key.length > maxUint32 ∨ value.length > maxUint32) := by
  rw [Entry.Fits, hslices] at hfits
  have hkey := hfits key List.mem_cons_self
  have hvalue := hfits value (List.mem_cons_of_mem _ List.mem_cons_self)
  omega

/-- Every update comes down to the common part of the methods. `u` is the call on a
transaction that is being rebuilt. -/
theorem dispatch_eq_update {e : Entry} {cf : UInt32} {type : ValueType} {key value : Bytes}
    (hpayload : payload e = some (cf, type, key, value)) (p : Progress) (i : Inserter) :
    ∃ u check result, (handler o commit).dispatch e p i =
        (i.update o cf type key value u check).map result ∧
      (∀ family : ColumnFamily, (type = .rangeDeletion → family.deleteRangeSupported = true) →
        check family = none) ∧
      (∀ t, ∃ p', result (.ok, t) = (.ok, p', t)) ∧
      (e.Fits → u.Fits ∧ ∃ e', rebuilt e = some e' ∧
        ∀ entries, u.extend entries = some (entries ++ [e'])) := by
  cases e with
  | put _ _ _ =>
      cases hpayload
      refine ⟨.put cf key value, fun _ => none, counts p, rfl, fun _ _ => rfl,
        fun t => ⟨_, rfl⟩, ?_⟩
      exact fun hfits => ⟨trivial, _, rfl, fun _ => if_neg (extend_pair rfl hfits)⟩
  | delete _ _ =>
      cases hpayload
      refine ⟨.delete cf key, fun _ => none, counts p, rfl, fun _ _ => rfl, fun t => ⟨_, rfl⟩, ?_⟩
      exact fun hfits => ⟨hfits key List.mem_cons_self, _, rfl, fun _ => rfl⟩
  | singleDelete _ _ =>
      cases hpayload
      refine ⟨.singleDelete cf key, fun _ => none, counts p, rfl, fun _ _ => rfl,
        fun t => ⟨_, rfl⟩, ?_⟩
      exact fun hfits => ⟨hfits key List.mem_cons_self, _, rfl, fun _ => rfl⟩
  | putBlobIndex _ _ _ =>
      cases hpayload
      refine ⟨.put cf key value, fun _ => none, _, rfl, fun _ _ => rfl, fun t => ⟨_, rfl⟩, ?_⟩
      exact fun hfits => ⟨trivial, _, rfl, fun _ => if_neg (extend_pair rfl hfits)⟩
  | merge _ _ _ =>
      cases hpayload
      refine ⟨.merge cf key value, fun _ => none, counts p, ?_, fun _ _ => rfl,
        fun t => ⟨_, rfl⟩, ?_⟩
      · exact congrArg (Option.map (counts p)) (if_neg (by rw [ho.serial]; decide))
      · exact fun hfits => ⟨trivial, _, rfl, fun _ => if_neg (extend_pair rfl hfits)⟩
  | deleteRange _ _ _ =>
      cases hpayload
      refine ⟨.deleteRange cf key value, _, counts p, rfl, ?_, fun t => ⟨_, rfl⟩, ?_⟩
      · intro family hrange
        exact if_pos (hrange rfl)
      · intro hfits
        refine ⟨⟨hfits key List.mem_cons_self, ?_⟩, _, rfl, fun _ => rfl⟩
        exact hfits value (List.mem_cons_of_mem _ List.mem_cons_self)
  | logData _ | beginPrepare | beginPersistedPrepare | beginUnprepare | endPrepare _ | commit _
  | rollback _ | noop => cases hpayload

theorem dispatch_payload (hrebuilding : i.rebuildingTrx = none)
    (hmax : i.sequence ≤ maxSequenceNumber) (holder : Older i.columnFamilies i.sequence) {e : Entry}
    (hsupported : Supported (schema i.columnFamilies) e) {cf : UInt32} {type : ValueType}
    {key value : Bytes} (hpayload : payload e = some (cf, type, key, value)) (p : Progress) :
    ∃ p', (handler o commit).dispatch e p i =
      some (.ok, p', inserted o i [(cf, ⟨i.sequence, type, key, value⟩)]) := by
  obtain ⟨range, hschema, hrange⟩ := hsupported cf type key value hpayload
  obtain ⟨family, hfamily, rfl⟩ := Option.map_eq_some_iff.mp hschema
  obtain ⟨u, check, result, hdispatch, hcheck, hresult, -⟩ :=
    dispatch_eq_update ho commit hpayload p i
  have hupdate := update_eq ho hrebuilding hmax holder hfamily
    (fun mem => hcheck { family with mem } hrange) type key value u
  obtain ⟨p', hp'⟩ := hresult (inserted o i [(cf, ⟨i.sequence, type, key, value⟩)])
  exact ⟨p', by rw [hdispatch, hupdate, Option.map_some, hp']⟩

end

theorem inserted_append (o : Options) (i : Inserter) (as bs : List (UInt32 × MemEntry)) :
    inserted o (inserted o i as) bs = inserted o i (as ++ bs) := by
  simp only [inserted, insertAll, List.foldl_append, List.length_append, Nat.add_assoc]

theorem additions_of_none {e : Entry} (h : payload e = none) (sequence : ℕ)
    (entries : List Entry) : additions sequence (e :: entries) = additions sequence entries := by
  rw [additions, h]

theorem additions_of_some {e : Entry} {cf : UInt32} {type : ValueType} {key value : Bytes}
    (h : payload e = some (cf, type, key, value)) (sequence : ℕ) (entries : List Entry) :
    additions sequence (e :: entries) =
      (cf, ⟨sequence, type, key, value⟩) :: additions (sequence + 1) entries := by
  rw [additions, h]

theorem payload_isSome (e : Entry) : (payload e).isSome = e.counted := by
  cases e <;> rfl

theorem length_additions (sequence : ℕ) (entries : List Entry) :
    (additions sequence entries).length = updateCount entries := by
  induction entries generalizing sequence with
  | nil => rfl
  | cons e entries ih =>
      have hcounted := payload_isSome e
      rw [updateCount_cons]
      cases hpayload : payload e with
      | none =>
          rw [hpayload] at hcounted
          rw [additions_of_none hpayload, ih, ← hcounted]
          rfl
      | some a =>
          rw [hpayload] at hcounted
          rw [additions_of_some hpayload, List.length_cons, ih, ← hcounted]
          rfl

theorem additions_append (sequence : ℕ) (es fs : List Entry) :
    additions sequence (es ++ fs) =
      additions sequence es ++ additions (sequence + updateCount es) fs := by
  induction es generalizing sequence with
  | nil => rfl
  | cons e es ih =>
      have hcounted := payload_isSome e
      rw [List.cons_append, updateCount_cons]
      cases hpayload : payload e with
      | none =>
          rw [hpayload] at hcounted
          rw [additions_of_none hpayload, additions_of_none hpayload, ih, ← hcounted]
          rfl
      | some a =>
          rw [hpayload] at hcounted
          rw [additions_of_some hpayload, additions_of_some hpayload, ih, ← hcounted,
            List.cons_append, Nat.add_comm (updateCount es), ← Nat.add_assoc]
          rfl

/-- There are sequence numbers for the updates. -/
def Numberable (sequence : ℕ) (entries : List Entry) : Prop :=
  sequence + updateCount entries ≤ maxSequenceNumber + 1

instance (sequence : ℕ) (entries : List Entry) : Decidable (Numberable sequence entries) :=
  inferInstanceAs (Decidable (_ ≤ _))

theorem Numberable.of_append {sequence : ℕ} {es fs : List Entry}
    (h : Numberable sequence (es ++ fs)) :
    Numberable sequence es ∧ Numberable (sequence + updateCount es) fs := by
  unfold Numberable at h ⊢
  rw [updateCount_append] at h
  omega

theorem Numberable.of_none {sequence : ℕ} {e : Entry} {entries : List Entry}
    (h : Numberable sequence (e :: entries)) (hpayload : payload e = none) :
    Numberable sequence entries := by
  have hcounted := payload_isSome e
  rw [hpayload] at hcounted
  rw [Numberable, updateCount_cons, ← hcounted] at h
  unfold Numberable
  simpa using h

theorem Numberable.of_some {sequence : ℕ} {e : Entry} {entries : List Entry}
    (h : Numberable sequence (e :: entries)) {a : UInt32 × ValueType × Bytes × Bytes}
    (hpayload : payload e = some a) :
    sequence ≤ maxSequenceNumber ∧ Numberable (sequence + 1) entries := by
  have hcounted := payload_isSome e
  rw [hpayload] at hcounted
  rw [Numberable, updateCount_cons, ← hcounted, if_pos (Option.isSome_some ..)] at h
  unfold Numberable
  omega

/-- An update, or an entry without any effect of its own. -/
def Plain : Entry → Prop
  | .beginPrepare | .beginPersistedPrepare | .beginUnprepare | .endPrepare _ | .commit _
  | .rollback _ => False
  | _ => True

instance (e : Entry) : Decidable (Plain e) := by
  cases e <;> unfold Plain <;> infer_instance

/-- The entry changes nothing outside a transaction that is being rebuilt. -/
def Inert (o : Options) (commit : Bytes → Inserter → Option (Status × Inserter)) (ref : ℕ)
    (e : Entry) : Prop :=
  ∀ i p, i.rebuildingTrx = none → i.logNumberRef = ref →
    ∃ p', (handler o commit).dispatch e p i = some (.ok, p', i)

section
variable {o : Options} (ho : Policy o) (commit : Bytes → Inserter → Option (Status × Inserter))
include ho

/-- The updates among the entries are inserted, if nothing else has an effect. -/
theorem feed_inserted {entries : List Entry} {i : Inserter} (hrebuilding : i.rebuildingTrx = none)
    (hnumbers : Numberable i.sequence entries) (holder : Older i.columnFamilies i.sequence)
    (hsupported : ∀ e ∈ entries, Supported (schema i.columnFamilies) e)
    (hinert : ∀ e ∈ entries, payload e = none → Inert o commit i.logNumberRef e) (p : Progress) :
    ∃ p', (handler o commit).feed entries p i =
      some (p', inserted o i (additions i.sequence entries)) := by
  induction entries generalizing i p with
  | nil => exact ⟨p, rfl⟩
  | cons e entries ih =>
      have hrest : ∀ e' ∈ entries, e' ∈ e :: entries := fun e' he => List.mem_cons_of_mem e he
      cases hpayload : payload e with
      | none =>
          obtain ⟨q, hdispatch⟩ :=
            hinert e List.mem_cons_self hpayload i p hrebuilding rfl
          obtain ⟨p', hfeed⟩ := ih hrebuilding (hnumbers.of_none hpayload) holder
            (fun e' he => hsupported e' (hrest e' he)) (fun e' he => hinert e' (hrest e' he)) q
          refine ⟨p', ?_⟩
          rw [Handler.feed_cons_of_ok _ hdispatch, hfeed, additions_of_none hpayload]
      | some a =>
          obtain ⟨hmax, hnumbers⟩ := hnumbers.of_some hpayload
          obtain ⟨q, hdispatch⟩ := dispatch_payload ho commit hrebuilding hmax holder
            (hsupported e List.mem_cons_self) hpayload p
          obtain ⟨p', hfeed⟩ := ih
            (i := inserted o i [(a.1, ⟨i.sequence, a.2.1, a.2.2.1, a.2.2.2⟩)]) hrebuilding
            hnumbers (holder.insertOne rfl)
            (fun e' he => (schema_insertOne _).symm ▸ hsupported e' (hrest e' he))
            (fun e' he => hinert e' (hrest e' he)) q
          refine ⟨p', ?_⟩
          rw [Handler.feed_cons_of_ok _ hdispatch, hfeed, inserted_append,
            additions_of_some hpayload]
          rfl

theorem dispatch_noop (p : Progress) (i : Inserter) :
    (handler o commit).dispatch .noop p i = some (.ok, { p with emptyBatch := true }, i) := by
  apply Handler.dispatch_noop .ok
  show markNoop o p.emptyBatch i = some (.ok, i)
  rw [markNoop, maybeAdvanceSeq_true ho, ite_self]

/-- Outside of transactions only updates have an effect. -/
theorem inert_of_plain {e : Entry} (hplain : Plain e) (hpayload : payload e = none) (ref : ℕ) :
    Inert o commit ref e := by
  intro i p _ _
  cases e with
  | logData blob => exact ⟨_, rfl⟩
  | noop => exact ⟨_, dispatch_noop ho commit p i⟩
  | put _ _ _ | delete _ _ | singleDelete _ _ | deleteRange _ _ _ | merge _ _ _
  | putBlobIndex _ _ _ => cases hpayload
  | beginPrepare | beginPersistedPrepare | beginUnprepare | endPrepare _ | commit _
  | rollback _ => exact hplain.elim

/-- While a transaction is rebuilt, the updates go into its batch. -/
theorem feed_rebuilt {entries : List Entry} (hplain : ∀ e ∈ entries, Plain e)
    (hfits : ∀ e ∈ entries, e.Fits) {i : Inserter} {rep : Bytes} {old : List Entry}
    (hrebuilding : i.rebuildingTrx = some rep) (hrep : Represents rep old) (p : Progress) :
    ∃ p' rep', (handler o commit).feed entries p i =
        some (p', { i with rebuildingTrx := some rep' }) ∧
      Represents rep' (old ++ entries.filterMap rebuilt) := by
  induction entries generalizing i rep old p with
  | nil =>
      refine ⟨p, rep, ?_, ?_⟩
      · rw [← hrebuilding]
        rfl
      · rwa [List.filterMap_nil, List.append_nil]
  | cons e entries ih =>
      have ih := @ih (fun e' he => hplain e' (List.mem_cons_of_mem e he))
        (fun e' he => hfits e' (List.mem_cons_of_mem e he))
      cases hpayload : payload e with
      | none =>
          have hkept : rebuilt e = none := by
            cases e <;> first | rfl | cases hpayload
          have hdispatch : ∃ q, (handler o commit).dispatch e p i = some (.ok, q, i) := by
            cases e with
            | logData blob => exact ⟨_, rfl⟩
            | noop => exact ⟨_, dispatch_noop ho commit p i⟩
            | put _ _ _ | delete _ _ | singleDelete _ _ | deleteRange _ _ _ | merge _ _ _
            | putBlobIndex _ _ _ => cases hpayload
            | beginPrepare | beginPersistedPrepare | beginUnprepare | endPrepare _ | commit _
            | rollback _ => exact (hplain _ List.mem_cons_self).elim
          obtain ⟨q, hdispatch⟩ := hdispatch
          rw [Handler.feed_cons_of_ok _ hdispatch, List.filterMap_cons_none hkept]
          exact ih hrebuilding hrep q
      | some a =>
          obtain ⟨u, check, result, hdispatch, -, hresult, hrebuilt⟩ :=
            dispatch_eq_update ho commit hpayload p i
          obtain ⟨hu, e', he', hextend⟩ := hrebuilt (hfits e List.mem_cons_self)
          have hrep' := hrep.apply hu
          rw [hextend, Option.getD_some] at hrep'
          obtain ⟨q, hq⟩ := hresult (i.rebuild u)
          have hupdate : i.update o a.1 a.2.1 a.2.2.1 a.2.2.2 u check =
              some (.ok, i.rebuild u) := by
            rw [Inserter.update, if_pos ⟨writeAfterCommit_eq ho, by rw [hrebuilding]; rfl⟩]
          rw [hupdate, Option.map_some, hq] at hdispatch
          have hnext : (i.rebuild u).rebuildingTrx = some ((u.apply rep).toOption.getD rep) := by
            rw [Inserter.rebuild, hrebuilding]
            rfl
          obtain ⟨p', rep', hfeed, hall⟩ := ih hnext hrep' q
          refine ⟨p', rep', ?_, ?_⟩
          · rw [Handler.feed_cons_of_ok _ hdispatch, hfeed]
            rfl
          · rw [List.filterMap_cons_some he']
            rwa [List.append_assoc] at hall

end

end PowerLawRocksdb.WriteCommitted
