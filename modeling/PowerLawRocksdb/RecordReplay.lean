import PowerLawRocksdb.WriteCommitted

/-!
# Replaying a record of a log

A record of the log is a sequence of operations: updates, prepared transactions, and
markers that commit a transaction or roll it back. A commit marker stands for the
updates of the transaction, which come from an earlier prepare section.

What the inserter does with a record is described by the additions to the memtables and
by the transactions that are prepared afterwards.
-/
namespace PowerLawRocksdb.RecordReplay
open Numerals WriteBatch BatchEntries BatchIterate BatchContents MemTableInserter WriteCommitted

/-- A transaction that is prepared, and the log that its prepare section is in. -/
structure Prepared where
  name : Bytes
  log : ℕ
  entries : List Entry

inductive LogOp where
  | updates (entries : List Entry)
  | prepare (name : Bytes) (entries : List Entry)
  | commit (name : Bytes)
  | rollback (name : Bytes)

/-- The operation as it stands in a batch. -/
def LogOp.written : LogOp → List Entry
  | .updates entries => entries
  | .prepare name entries => .beginPrepare :: entries ++ [.endPrepare name]
  | .commit name => [.commit name]
  | .rollback name => [.rollback name]

def lookup (prepared : List Prepared) (name : Bytes) : List Entry :=
  match prepared.find? fun q => q.name = name with
  | none => []
  | some q => q.entries

def discard (prepared : List Prepared) (name : Bytes) : List Prepared :=
  prepared.filter fun q => q.name ≠ name

/-- The entries that take effect. -/
def LogOp.applied (prepared : List Prepared) : LogOp → List Entry
  | .updates entries => entries
  | .prepare _ _ | .rollback _ => []
  | .commit name => lookup prepared name

def LogOp.after (log : ℕ) (prepared : List Prepared) : LogOp → List Prepared
  | .updates _ => prepared
  | .prepare name entries => prepared ++ [⟨name, log, entries⟩]
  | .commit name | .rollback name => discard prepared name

/-- The entries that take effect in a list of operations, and what is prepared then. -/
def replay (log : ℕ) : List LogOp → List Prepared → List Entry × List Prepared
  | [], prepared => ([], prepared)
  | op :: ops, prepared =>
      let r := replay log ops (op.after log prepared)
      (op.applied prepared ++ r.1, r.2)

/-- The additions to one column family. -/
def forFamily (cf : UInt32) (as : List (UInt32 × MemEntry)) : List MemEntry :=
  (as.filter fun a => a.1 = cf).map Prod.snd

/-- The memtables have got the additions, as far as they do not skip the log. -/
structure Received (o : Options) (as : List (UInt32 × MemEntry)) (before after : ColumnFamilies) :
    Prop where
  absent : ∀ {cf}, before cf = none → after cf = none
  present : ∀ {cf family}, before cf = some family → ∃ mem, after cf = some { family with mem } ∧
    mem.entries = family.mem.entries ++ if Skips o family then [] else forFamily cf as

section Received
variable {o : Options} {as bs : List (UInt32 × MemEntry)} {before after : ColumnFamilies}

theorem forFamily_append (cf : UInt32) (as bs : List (UInt32 × MemEntry)) :
    forFamily cf (as ++ bs) = forFamily cf as ++ forFamily cf bs := by
  rw [forFamily, List.filter_append, List.map_append]
  rfl

theorem Received.refl (o : Options) (cfs : ColumnFamilies) : Received o [] cfs cfs where
  absent h := h
  present {cf family} h := by
    refine ⟨family.mem, h, ?_⟩
    rw [forFamily, List.filter_nil, List.map_nil, ite_self, List.append_nil]

theorem Received.trans {mid : ColumnFamilies} (h₁ : Received o as before mid)
    (h₂ : Received o bs mid after) : Received o (as ++ bs) before after where
  absent h := h₂.absent (h₁.absent h)
  present {cf family} h := by
    obtain ⟨mem₁, hmid, hmem₁⟩ := h₁.present h
    obtain ⟨mem₂, hafter, hmem₂⟩ := h₂.present hmid
    refine ⟨mem₂, hafter, ?_⟩
    have hskips : Skips o { family with mem := mem₁ } ↔ Skips o family := Iff.rfl
    rw [hmem₂, hmem₁, forFamily_append]
    by_cases h : Skips o family
    · rw [if_pos h, if_pos h, if_pos (hskips.mpr h), List.append_nil]
    · rw [if_neg h, if_neg h, if_neg (hskips.not.mpr h), List.append_assoc]

theorem received_insertOne (ref : ℕ) (cfs : ColumnFamilies) (a : UInt32 × MemEntry) :
    Received o [a] cfs (insertOne o ref cfs a) where
  absent {cf} h := by
    rw [insertOne]
    by_cases hcf : cf = a.1
    · subst hcf
      rw [Function.update_self, h]
      rfl
    · rw [Function.update_of_ne hcf, h]
  present {cf family} h := by
    rw [insertOne]
    by_cases hcf : cf = a.1
    · subst hcf
      rw [Function.update_self, h, Option.map_some, receive]
      by_cases hskips : Skips o family
      · refine ⟨family.mem, by rw [if_pos hskips], ?_⟩
        rw [if_pos hskips, List.append_nil]
      · refine ⟨record family.mem ref a.2, by rw [if_neg hskips], ?_⟩
        rw [if_neg hskips, record_entries]
        simp [forFamily]
    · refine ⟨family.mem, by rw [Function.update_of_ne hcf, h], ?_⟩
      have hother : ¬ a.1 = cf := fun hne => hcf hne.symm
      simp [forFamily, hother]

theorem received_insertAll (ref : ℕ) (cfs : ColumnFamilies) (as : List (UInt32 × MemEntry)) :
    Received o as cfs (insertAll o ref cfs as) := by
  induction as generalizing cfs with
  | nil => exact Received.refl o cfs
  | cons a as ih => exact (received_insertOne ref cfs a).trans (ih _)

theorem Received.schema_eq (h : Received o as before after) : schema after = schema before := by
  funext cf
  unfold schema
  cases hbefore : before cf with
  | none => rw [h.absent hbefore]
  | some family =>
      obtain ⟨mem, hafter, -⟩ := h.present hbefore
      rw [hafter]
      rfl

theorem Received.exists_before (h : Received o as before after) {cf : UInt32}
    {family : ColumnFamily} (hfamily : after cf = some family) :
    ∃ old, before cf = some old ∧ family.logNumber = old.logNumber ∧
      family.mem.entries = old.mem.entries ++ if Skips o old then [] else forFamily cf as := by
  cases hold : before cf with
  | none =>
      rw [h.absent hold] at hfamily
      cases hfamily
  | some old =>
      obtain ⟨mem, hafter, hmem⟩ := h.present hold
      rw [hafter] at hfamily
      cases hfamily
      exact ⟨old, rfl, rfl, hmem⟩

theorem sequence_of_mem_additions {sequence : ℕ} {entries : List Entry} {a : UInt32 × MemEntry}
    (ha : a ∈ additions sequence entries) : a.2.sequence < sequence + updateCount entries := by
  induction entries generalizing sequence with
  | nil => cases ha
  | cons e entries ih =>
      have hcounted := payload_isSome e
      rw [updateCount_cons]
      cases hpayload : payload e with
      | none =>
          rw [additions_of_none hpayload] at ha
          have hlt := ih ha
          omega
      | some b =>
          rw [hpayload] at hcounted
          rw [← hcounted]
          rw [additions_of_some hpayload, List.mem_cons] at ha
          rcases ha with rfl | ha
          · exact Nat.lt_add_of_pos_right (Nat.succ_pos _)
          · have hlt := ih ha
            rw [if_pos (Option.isSome_some ..)]
            omega

theorem Received.older {sequence : ℕ} {entries : List Entry}
    (h : Received o (additions sequence entries) before after) (hold : Older before sequence) :
    Older after (sequence + updateCount entries) := by
  intro cf family hfamily e he
  obtain ⟨old, hbefore, -, hmem⟩ := h.exists_before hfamily
  have hadded : ∀ e ∈ forFamily cf (additions sequence entries),
      e.sequence < sequence + updateCount entries := by
    intro e he
    obtain ⟨a, ha, rfl⟩ := List.mem_map.mp he
    exact sequence_of_mem_additions (List.mem_of_mem_filter ha)
  rw [hmem, List.mem_append] at he
  rcases he with he | he
  · exact Nat.lt_add_right _ (hold cf old hbefore e he)
  · split_ifs at he
    · cases he
    · exact hadded e he

end Received

/-- A transaction as it can be prepared and rebuilt. -/
structure Prepared.Valid (families : UInt32 → Option Bool) (q : Prepared) : Prop where
  plain : ∀ e ∈ q.entries, Plain e
  fits : ∀ e ∈ q.entries, e.Fits
  supported : ∀ e ∈ q.entries, Supported families e
  noBlobIndex : ∀ e ∈ q.entries, ∀ cf key value, e ≠ .putBlobIndex cf key value
  count : updateCount q.entries < 2 ^ 31

/-- The rebuilt transaction stands for the prepared one. -/
def Tracks (r : Bytes × RecoveredTransaction) (q : Prepared) : Prop :=
  r.1 = q.name ∧ r.2.unprepared = false ∧ ∃ sequence rep,
    r.2.batches = [(sequence, ⟨q.log, rep, 0⟩)] ∧ Represents rep (q.entries.filterMap rebuilt)

/-- The inserter is between two operations. -/
structure Replays (i : Inserter) (prepared : List Prepared) : Prop where
  idle : i.rebuildingTrx = none
  noRef : i.logNumberRef = 0
  notUnprepared : i.unpreparedBatch = false
  older : Older i.columnFamilies i.sequence
  tracks : List.Forall₂ Tracks i.recoveredTransactions prepared
  valid : ∀ q ∈ prepared, q.Valid (schema i.columnFamilies)

/-- An operation that the log can hold. A name is not used for two transactions at a time. -/
def LogOp.Valid (families : UInt32 → Option Bool) (allow2pc : Bool) (prepared : List Prepared) :
    LogOp → Prop
  | .updates entries => ∀ e ∈ entries, Plain e ∧ Supported families e
  | .prepare name entries =>
      allow2pc = true ∧ Prepared.Valid families ⟨name, 0, entries⟩ ∧ ∀ q ∈ prepared, q.name ≠ name
  | .commit _ | .rollback _ => True

/-- Each operation is valid when its turn comes. -/
def ValidOps (families : UInt32 → Option Bool) (allow2pc : Bool) (log : ℕ) :
    List LogOp → List Prepared → Prop
  | [], _ => True
  | op :: ops, prepared =>
      op.Valid families allow2pc prepared ∧
        ValidOps families allow2pc log ops (op.after log prepared)

theorem Prepared.Valid.filterMap {families : UInt32 → Option Bool} {q : Prepared}
    (h : q.Valid families) :
    q.entries.filterMap rebuilt = q.entries.filter Entry.counted := by
  rw [← List.filterMap_eq_filter]
  apply List.filterMap_congr
  intro e he
  have hblob := h.noBlobIndex e he
  cases e <;> first | rfl | exact absurd rfl (hblob _ _ _)

theorem additions_filter (sequence : ℕ) (entries : List Entry) :
    additions sequence (entries.filter Entry.counted) = additions sequence entries := by
  induction entries generalizing sequence with
  | nil => rfl
  | cons e entries ih =>
      have hcounted := payload_isSome e
      cases hpayload : payload e with
      | none =>
          rw [hpayload] at hcounted
          rw [List.filter_cons_of_neg (by rw [← hcounted]; decide), additions_of_none hpayload, ih]
      | some a =>
          rw [hpayload] at hcounted
          rw [List.filter_cons_of_pos (by rw [← hcounted]; rfl), additions_of_some hpayload,
            additions_of_some hpayload, ih]

theorem updateCount_filter (entries : List Entry) :
    updateCount (entries.filter Entry.counted) = updateCount entries := by
  rw [← length_additions 0, additions_filter, length_additions]

section Tracks
variable {recovered : List (Bytes × RecoveredTransaction)} {prepared : List Prepared}

theorem find?_tracks (h : List.Forall₂ Tracks recovered prepared) (name : Bytes) :
    Option.Rel Tracks (recovered.find? fun r => r.1 = name)
      (prepared.find? fun q => q.name = name) := by
  induction h with
  | nil => exact .none
  | cons hr _ ih =>
      rw [List.find?_cons, List.find?_cons, hr.1]
      split
      · exact .some hr
      · exact ih

theorem find?_eq_none_of_tracks (h : List.Forall₂ Tracks recovered prepared) {name : Bytes}
    (hnone : (prepared.find? fun q => q.name = name) = none) :
    (recovered.find? fun r => r.1 = name) = none := by
  have hrel := find?_tracks h name
  rw [hnone] at hrel
  generalize (recovered.find? fun r => r.1 = name) = r at hrel
  cases hrel
  rfl

theorem exists_find?_of_tracks (h : List.Forall₂ Tracks recovered prepared) {name : Bytes}
    {q : Prepared} (hsome : (prepared.find? fun q => q.name = name) = some q) :
    ∃ r, (recovered.find? fun r => r.1 = name) = some r ∧ Tracks r q := by
  have hrel := find?_tracks h name
  rw [hsome] at hrel
  generalize (recovered.find? fun r => r.1 = name) = r at hrel
  cases hrel with
  | some hr => exact ⟨_, rfl, hr⟩

theorem discard_tracks (h : List.Forall₂ Tracks recovered prepared) (name : Bytes) :
    List.Forall₂ Tracks (recovered.filter fun r => r.1 ≠ name) (discard prepared name) := by
  induction h with
  | nil => exact .nil
  | cons hr _ ih =>
      rw [discard, List.filter_cons, List.filter_cons, hr.1]
      split_ifs
      · exact .cons hr ih
      · exact ih

theorem find?_eq_none_of_forall {name : Bytes} (h : ∀ q ∈ prepared, q.name ≠ name) :
    (prepared.find? fun q => q.name = name) = none := by
  rw [List.find?_eq_none]
  intro q hq
  simpa using h q hq

theorem discard_eq_self {name : Bytes} (h : ∀ q ∈ prepared, q.name ≠ name) :
    discard prepared name = prepared := by
  rw [discard, List.filter_eq_self]
  intro q hq
  simpa using h q hq

end Tracks

section Operations
variable {o : Options} (ho : Policy o) (hrecovering : o.recovering) {i : Inserter}
  {prepared : List Prepared}

/-- The inserter accepts what is written. The `entries` take effect, and `prepared'` is
what is prepared then. -/
def Performs (o : Options) (entries written : List Entry) (prepared' : List Prepared)
    (i : Inserter) (p : Progress) : Prop :=
  ∃ p' i', (inserter o).feed written p i = some (p', i') ∧ Replays i' prepared' ∧
    i'.sequence = i.sequence + updateCount entries ∧
    Received o (additions i.sequence entries) i.columnFamilies i'.columnFamilies

theorem Replays.inserted (h : Replays i prepared) (entries : List Entry) :
    Replays (inserted o i (additions i.sequence entries)) prepared := by
  have hreceived := received_insertAll (o := o) i.logNumberRef i.columnFamilies
    (additions i.sequence entries)
  have holder := hreceived.older h.older
  refine ⟨h.idle, h.noRef, h.notUnprepared, ?_, h.tracks, ?_⟩
  · rw [WriteCommitted.inserted, length_additions]
    exact holder
  · intro q hq
    exact hreceived.schema_eq ▸ h.valid q hq

include ho

/-- Updates are added, whether a log is replayed or not. -/
theorem performs_updates (h : Replays i prepared) {entries : List Entry}
    (hnumbers : Numberable i.sequence entries)
    (hvalid : ∀ e ∈ entries, Plain e ∧ Supported (schema i.columnFamilies) e) (p : Progress) :
    Performs o entries entries prepared i p := by
  obtain ⟨p', hfeed⟩ := feed_inserted ho (markCommit o (handler o fun _ _ => none).iterate)
    h.idle hnumbers h.older (fun e he => (hvalid e he).2)
    (fun e he hpayload => inert_of_plain ho _ (hvalid e he).1 hpayload _) p
  refine ⟨p', _, hfeed, h.inserted entries, ?_, received_insertAll ..⟩
  rw [WriteCommitted.inserted, length_additions]

include hrecovering

/-- A prepare section becomes a transaction that is waiting for its commit. -/
theorem performs_prepare (h2pc : o.allow2pc = true) (h : Replays i prepared) {name : Bytes}
    {entries : List Entry} (hvalid : Prepared.Valid (schema i.columnFamilies) ⟨name, 0, entries⟩)
    (hnew : ∀ q ∈ prepared, q.name ≠ name) (p : Progress) :
    Performs o [] (LogOp.prepare name entries).written
      (prepared ++ [⟨name, o.recoveringLogNumber, entries⟩]) i p := by
  set started : Inserter := { i with
    rebuildingTrx := some empty
    rebuildingTrxSeq := i.sequence
    unpreparedBatch := false } with hstarted
  have hbegin : (inserter o).dispatch .beginPrepare p i =
      some (.ok, { p with emptyBatch := false }, started) := by
    apply Handler.dispatch_beginPrepare .ok
    · show markBeginPrepare o false i = some (.ok, started)
      rw [markBeginPrepare, if_neg (by rw [h.idle]; decide), if_pos hrecovering, h2pc,
        if_neg (by decide), if_neg (by rw [h.notUnprepared]; decide)]
    · show (!o.batchPerTxn) = false
      rw [ho.batchPerTxn]
      rfl
    · exact writeAfterCommit_eq ho
  obtain ⟨p₂, rep, hfeed, hrep⟩ := feed_rebuilt ho
    (markCommit o (handler o fun _ _ => none).iterate) hvalid.plain hvalid.fits
    (i := started) rfl represents_empty { p with emptyBatch := false }
  rw [List.nil_append] at hrep
  set trx : RecoveredTransaction :=
    ⟨[(i.sequence, ⟨o.recoveringLogNumber, rep, 0⟩)], false⟩ with htrx
  set done : Inserter := { started with
    rebuildingTrx := none
    recoveredTransactions :=
      (i.recoveredTransactions.filter fun r => r.1 ≠ name) ++ [(name, trx)] } with hdone
  have hend : (inserter o).dispatch (.endPrepare name) p₂
      { started with rebuildingTrx := some rep } =
        some (.ok, { p₂ with emptyBatch := true }, done) := by
    apply Handler.dispatch_endPrepare .ok
    show markEndPrepare o name { started with rebuildingTrx := some rep } = some (.ok, done)
    have hfind := find?_eq_none_of_tracks h.tracks (find?_eq_none_of_forall hnew)
    have hinsert : Inserter.insertRecoveredTransaction { started with rebuildingTrx := some rep }
        name ⟨o.recoveringLogNumber, rep, 0⟩ = some { done with rebuildingTrx := some rep } := by
      rw [Inserter.insertRecoveredTransaction]
      dsimp only [hstarted]
      rw [hfind]
    rw [markEndPrepare]
    dsimp only
    rw [if_pos ⟨hrecovering, h2pc⟩, writeAfterCommit_eq ho, if_pos rfl, hinsert]
    show some (Status.ok, done.maybeAdvanceSeq o true) = _
    rw [maybeAdvanceSeq_true ho]
  refine ⟨{ p₂ with emptyBatch := true }, done, ?_, ?_, rfl, Received.refl o _⟩
  · rw [LogOp.written, List.cons_append, Handler.feed_cons_of_ok _ hbegin, Handler.feed_append]
    show (((handler o _).feed entries _ started).bind _) = _
    rw [hfeed, Option.bind_some, Handler.feed_cons_of_ok _ hend]
    rfl
  · refine ⟨rfl, h.noRef, rfl, h.older, ?_, ?_⟩
    · have hrest := discard_tracks h.tracks name
      rw [discard_eq_self hnew] at hrest
      exact List.rel_append hrest (.cons ⟨rfl, rfl, i.sequence, rep, rfl, hrep⟩ .nil)
    · intro q hq
      rcases List.mem_append.mp hq with hq | hq
      · exact h.valid q hq
      · rw [List.mem_singleton.mp hq]
        exact { hvalid with }

omit hrecovering in
/-- The batch of a rebuilt transaction is applied from the inside of the handler. -/
theorem iterate_rebuilt (h : Replays i prepared) {q : Prepared}
    (hvalid : q.Valid (schema i.columnFamilies)) {rep : Bytes}
    (hrep : Represents rep (q.entries.filterMap rebuilt))
    (hnumbers : Numberable i.sequence q.entries) :
    (handler o fun _ _ => none).iterate rep { i with logNumberRef := q.log } =
      some (.ok, inserted o { i with logNumberRef := q.log } (additions i.sequence q.entries)) := by
  rw [hvalid.filterMap] at hrep
  have hupdates : ∀ e ∈ q.entries.filter Entry.counted, payload e = none →
      Inert o (fun _ _ => none) q.log e := by
    intro e he hpayload
    have hcounted := payload_isSome e
    rw [hpayload, (List.mem_filter.mp he).2] at hcounted
    cases hcounted
  have hnumbers : Numberable i.sequence (q.entries.filter Entry.counted) := by
    rwa [Numberable, updateCount_filter]
  obtain ⟨p, hfeed⟩ := feed_inserted ho (fun _ _ => none) (i := { i with logNumberRef := q.log })
    h.idle hnumbers h.older (fun e he => hvalid.supported e (List.mem_of_mem_filter he)) hupdates
    .start
  rw [additions_filter] at hfeed
  apply hrep.iterate_of_feed _ (fun _ => rfl) hfeed
  rw [updateCount_filter]
  exact hvalid.count.trans (by decide)

/-- A commit marker applies the transaction that was prepared under its name. -/
theorem performs_commit (h : Replays i prepared) (name : Bytes)
    (hnumbers : Numberable i.sequence (lookup prepared name)) (p : Progress) :
    Performs o (lookup prepared name) [.commit name] (discard prepared name) i p := by
  have hcommit : ∀ {status i'}, markCommit o (handler o fun _ _ => none).iterate name i =
      some (status, i') → (inserter o).feed [.commit name] p i =
        some ({ p with emptyBatch := true }, i') := by
    intro status i' hmark
    rw [Handler.feed_cons_of_ok _ (Handler.dispatch_commit (h := inserter o) status hmark)]
    rfl
  cases hfind : prepared.find? fun q => q.name = name with
  | none =>
      have hother : ∀ q ∈ prepared, q.name ≠ name := by
        intro q hq
        simpa using List.find?_eq_none.mp hfind q hq
      have hmark : markCommit o (handler o fun _ _ => none).iterate name i = some (.ok, i) := by
        rw [markCommit, if_pos hrecovering, find?_eq_none_of_tracks h.tracks hfind]
        dsimp only
        rw [maybeAdvanceSeq_true ho]
      rw [lookup, hfind, discard_eq_self hother]
      exact ⟨_, i, hcommit hmark, h, rfl, Received.refl o _⟩
  | some q =>
      obtain ⟨⟨_, trx⟩, hr, -, -, sequence, rep, hbatches, hrep⟩ :=
        exists_find?_of_tracks h.tracks hfind
      have hvalid := h.valid q (List.mem_of_find?_eq_some hfind)
      rw [lookup, hfind] at hnumbers
      have hiterate := iterate_rebuilt ho h hvalid hrep hnumbers
      set i' : Inserter := { i with
        sequence := i.sequence + (additions i.sequence q.entries).length
        columnFamilies := insertAll o q.log i.columnFamilies (additions i.sequence q.entries)
        recoveredTransactions := i.recoveredTransactions.filter fun r => r.1 ≠ name } with hi'
      have hmark : markCommit o (handler o fun _ _ => none).iterate name i = some (.ok, i') := by
        dsimp only at hbatches
        rw [markCommit, if_pos hrecovering, hr]
        dsimp only
        rw [if_neg (not_not.mpr h.noRef), if_pos (writeAfterCommit_eq ho), hbatches]
        dsimp only
        rw [hiterate]
        show some (Status.ok, Inserter.maybeAdvanceSeq o { i' with logNumberRef := 0 } true) = _
        rw [maybeAdvanceSeq_true ho, hi', h.noRef]
      have hreceived := received_insertAll (o := o) q.log i.columnFamilies
        (additions i.sequence q.entries)
      rw [lookup, hfind]
      refine ⟨_, i', hcommit hmark, ?_, ?_, hreceived⟩
      · refine ⟨h.idle, h.noRef, h.notUnprepared, ?_, discard_tracks h.tracks name, ?_⟩
        · rw [hi', length_additions]
          exact hreceived.older h.older
        · intro q' hq'
          exact hreceived.schema_eq ▸ h.valid q' (List.mem_of_mem_filter hq')
      · rw [hi', length_additions]

/-- A transaction that is rolled back is forgotten. -/
theorem performs_rollback (h : Replays i prepared) (name : Bytes) (p : Progress) :
    Performs o [] [.rollback name] (discard prepared name) i p := by
  have hmark : markRollback o name i = some (.ok, i.deleteRecoveredTransaction name) := by
    rw [markRollback, if_pos hrecovering, maybeAdvanceSeq_true ho]
  refine ⟨{ p with emptyBatch := true }, i.deleteRecoveredTransaction name, ?_, ?_, rfl,
    Received.refl o _⟩
  · rw [Handler.feed_cons_of_ok _ (Handler.dispatch_rollback (h := inserter o) .ok hmark)]
    rfl
  · refine ⟨h.idle, h.noRef, h.notUnprepared, h.older, discard_tracks h.tracks name, ?_⟩
    intro q hq
    exact h.valid q (List.mem_of_mem_filter hq)

/-- Every operation does what it stands for. -/
theorem performs (h : Replays i prepared) {op : LogOp}
    (hvalid : op.Valid (schema i.columnFamilies) o.allow2pc prepared)
    (hnumbers : Numberable i.sequence (op.applied prepared)) (p : Progress) :
    Performs o (op.applied prepared) op.written (op.after o.recoveringLogNumber prepared) i p := by
  cases op with
  | updates entries => exact performs_updates ho h hnumbers hvalid p
  | prepare name entries => exact performs_prepare ho hrecovering hvalid.1 h hvalid.2.1 hvalid.2.2 p
  | commit name => exact performs_commit ho hrecovering h name hnumbers p
  | rollback name => exact performs_rollback ho hrecovering h name p

theorem performs_all (h : Replays i prepared) {ops : List LogOp}
    (hvalid : ValidOps (schema i.columnFamilies) o.allow2pc o.recoveringLogNumber ops prepared)
    (hnumbers : Numberable i.sequence (replay o.recoveringLogNumber ops prepared).1)
    (p : Progress) :
    Performs o (replay o.recoveringLogNumber ops prepared).1 (ops.flatMap LogOp.written)
      (replay o.recoveringLogNumber ops prepared).2 i p := by
  induction ops generalizing i prepared p with
  | nil => exact ⟨p, i, rfl, h, rfl, Received.refl o _⟩
  | cons op ops ih =>
      obtain ⟨hfirst, hnumbers⟩ := hnumbers.of_append
      obtain ⟨q, j, hfeed, hj, hsequence, hreceived⟩ :=
        performs ho hrecovering h hvalid.1 hfirst p
      obtain ⟨p', k, hrest, hk, hsequence', hreceived'⟩ :=
        ih hj (hreceived.schema_eq.symm ▸ hvalid.2) (hsequence.symm ▸ hnumbers) q
      rw [replay]
      refine ⟨p', k, ?_, hk, ?_, ?_⟩
      · rw [List.flatMap_cons, Handler.feed_append, hfeed, Option.bind_some, hrest]
      · rw [hsequence', hsequence, updateCount_append, Nat.add_assoc]
      · rw [additions_append, ← hsequence]
        exact hreceived.trans hreceived'

end Operations

/-- The record of a write group: its sequence number and its operations. -/
structure Records (record : Bytes) (sequence : ℕ) (ops : List LogOp) : Prop where
  represents : Represents record (ops.flatMap LogOp.written)
  sequence_eq : sequenceOf record = sequence
  count : updateCount (ops.flatMap LogOp.written) < 2 ^ 31

/-- A record is accepted when it is replayed, and its operations are performed. -/
theorem insertIntoBatch_records {o : Options} (ho : Policy o) (hrecovering : o.recovering)
    {record : Bytes} {sequence : ℕ} {ops : List LogOp} (hrecord : Records record sequence ops)
    {cfs : ColumnFamilies} {recovered : List (Bytes × RecoveredTransaction)}
    {prepared : List Prepared} (h : Replays (.start sequence cfs recovered) prepared)
    (hvalid : ValidOps (schema cfs) o.allow2pc o.recoveringLogNumber ops prepared)
    (hnumbers : Numberable sequence (replay o.recoveringLogNumber ops prepared).1) :
    ∃ i, insertIntoBatch o record cfs recovered = some (.ok, i) ∧
      Replays i (replay o.recoveringLogNumber ops prepared).2 ∧
      i.sequence = sequence + updateCount (replay o.recoveringLogNumber ops prepared).1 ∧
      Received o (additions sequence (replay o.recoveringLogNumber ops prepared).1) cfs
        i.columnFamilies := by
  obtain ⟨p, i, hfeed, hi, hsequence, hreceived⟩ :=
    performs_all ho hrecovering h hvalid hnumbers .start
  refine ⟨i, ?_, hi, hsequence, hreceived⟩
  rw [insertIntoBatch, hrecord.sequence_eq]
  exact hrecord.represents.iterate_of_feed (hrecord.count.trans (by decide)) (fun _ => rfl) hfeed

end PowerLawRocksdb.RecordReplay
