import PowerLawRocksdb.LogRelease

/-!
# Nothing is lost when the database is reopened

The logs on disk are replayed when the database is opened. Every column family gets back
what was in its memtables, and every transaction that is prepared is there again. If the
last records of the current log are lost, all column families lose the same groups.

With two-phase commit this holds as long as no flush lets go of a prepare section whose
commit is in a log that is kept. The rule of the source does not look at the memtables of
the column family that is flushed, so a transaction that has been committed to one of them
can lose its prepare section.
-/
namespace PowerLawRocksdb.CrashRecovery
open Numerals WriteBatch BatchEntries BatchIterate BatchContents MemTableInserter WriteCommitted
open RecordReplay LogLifeCycle LogHistory WriteRequests Transitions Durability

/-- The transaction was recovered from its prepare section. -/
structure Restores (r : Bytes × RecoveredTransaction) (t : Transaction) : Prop where
  name_eq : r.1 = t.name
  batches : ∃ sequence rep, r.2.batches = [(sequence, ⟨t.logNumber, rep, 0⟩)] ∧
    Represents rep ((entriesOf (body t.batch)).filter Entry.counted)

theorem restores_of_tracks {families : UInt32 → Option Bool} {r : Bytes × RecoveredTransaction}
    {t : Transaction} {q : Prepared} (hq : q.Valid families) (hr : Tracks r q)
    (ht : Tracked t q) : Restores r t := by
  obtain ⟨hname, -, sequence, rep, hbatches, hrep⟩ := hr
  refine ⟨hname.trans ht.name_eq.symm, sequence, rep, ?_, ?_⟩
  · rw [hbatches, ht.log_eq]
  · have hentries : (Entry.beginPrepare :: q.entries ++ [Entry.endPrepare q.name]).filter
        Entry.counted = q.entries.filter Entry.counted := by
      simp [Entry.counted]
    rw [entriesOf_body ht.represents, hentries, ← hq.filterMap]
    exact hrep

theorem forall₂_restores {families : UInt32 → Option Bool}
    {recovered : List (Bytes × RecoveredTransaction)} {transactions : List Transaction}
    {prepared : List Prepared} (hvalid : ∀ q ∈ prepared, q.Valid families)
    (hrecovered : List.Forall₂ Tracks recovered prepared)
    (htracked : List.Forall₂ Tracked transactions prepared) :
    List.Forall₂ Restores recovered transactions := by
  induction htracked generalizing recovered with
  | nil =>
      cases hrecovered
      exact .nil
  | @cons t q _ _ ht _ ih =>
      cases hrecovered with
      | cons hr hrest =>
          exact .cons (restores_of_tracks (hvalid q List.mem_cons_self) hr ht)
            (ih (fun q' hq' => hvalid q' (List.mem_cons_of_mem q hq')) hrest)

/-- A transaction is prepared in a group with another write. The memtable is then flushed. -/
def sampleActions : List Action :=
  [.write [.write [.put 0 [1] [2]], .prepare [7] [.put 0 [3] [4]]], .switchMemtable 0 5,
    .flush 0 0]

def sampleFamilies : List (UInt32 × ColumnFamily) :=
  [(0, ⟨"default", "BlockBasedTable", true, 0, ⟨[], 0⟩⟩)]

theorem accepted_put {families : UInt32 → Option Bool} (hdefault : families 0 = some true)
    (key value : UInt8) : Accepted families [.put 0 [key] [value]] := by
  refine ⟨List.forall_mem_singleton.mpr trivial, List.forall_mem_singleton.mpr trivial,
    List.forall_mem_singleton.mpr ?_⟩
  intro cf type key' value' hpayload
  cases hpayload
  exact ⟨true, hdefault, fun _ => rfl⟩

theorem accepted_nil (families : UInt32 → Option Bool) : Accepted families [] :=
  ⟨fun _ hu => absurd hu List.not_mem_nil, fun _ hu => absurd hu List.not_mem_nil,
    fun _ he => absurd he List.not_mem_nil⟩

theorem along_sample : Along step Admissible (.init true sampleFamilies 3) sampleActions := by
  refine ⟨⟨by decide, ?_, by decide, by decide⟩, ?_⟩
  · refine List.forall_mem_cons.mpr ⟨accepted_put rfl 1 2, List.forall_mem_singleton.mpr
      ⟨accepted_put rfl 3 4, rfl, by decide, ?_, fun _ hq => absurd hq List.not_mem_nil⟩⟩
    refine List.forall_mem_singleton.mpr ?_
    intro cf key value heq
    cases heq
  · intro db₁ h₁
    cases h₁
    refine ⟨trivial, ?_⟩
    intro db₂ h₂
    cases h₂
    refine ⟨?_, fun _ _ => trivial⟩
    intro db₃ h₃
    cases h₃
    decide

theorem exists_run_sample :
    ∃ db, run step (.init true sampleFamilies 3) sampleActions = some db ∧
      db.transactions.length = 1 ∧ (db.families 0).isSome = true :=
  ⟨_, rfl, rfl, rfl⟩

/-- The transaction commits before the flush, in a group with another write. The flush then
lets go of the log with the prepare section. -/
def lostActions : List Action :=
  [.write [.write [.put 0 [1] [2]], .prepare [7] [.put 0 [3] [4]]], .switchMemtable 0 5,
    .write [.commit [7] [], .write [.put 0 [5] [6]]], .flush 0 0]

example : ((run step (.init true sampleFamilies 3) (lostActions.take 3)).bind fun db =>
      (db.flush 0 0).map fun db' => decide (Apart db db'.minLogNumberToKeep2pc)) =
    some false := by decide

-- the recovery finds no updates for the commit, and the next one gets their number
example : ((run step (.init true sampleFamilies 3) lostActions).bind fun db =>
      (db.families 0).map fun f => f.mem.entries) =
    some [⟨2, .value, [3], [4]⟩, ⟨3, .value, [5], [6]⟩] := by decide

example : ((run step (.init true sampleFamilies 3) lostActions).bind fun db =>
      db.recoverLogFiles.bind fun r => (r.2.columnFamilies 0).map fun f => f.mem.entries) =
    some [⟨2, .value, [5], [6]⟩] := by decide

/-- The database with only the first `k` records of the current log. -/
def Database.cut (db : Database) (k : ℕ) : Database :=
  { db with current := { db.current with records := db.current.records.take k } }

/-- The number of records that the recovery reads from the closed logs. -/
def closedCount (db : Database) : ℕ :=
  ((db.closed.flatMap LogFile.numbered).filter fun record =>
    db.minLogNumberToKeep2pc ≤ record.1).length

theorem replayed_eq {db : Database} (hneeded : db.minLogNumberToKeep2pc ≤ db.current.number) :
    db.replayed = ((db.closed.flatMap LogFile.numbered).filter fun record =>
      db.minLogNumberToKeep2pc ≤ record.1) ++ db.current.numbered := by
  have hall : db.current.numbered.filter (fun record => db.minLogNumberToKeep2pc ≤ record.1) =
      db.current.numbered := by
    apply List.filter_eq_self.mpr
    intro record hrecord
    obtain ⟨r, -, rfl⟩ := List.mem_map.mp hrecord
    exact decide_eq_true hneeded
  rw [Database.replayed, Database.numbered, List.flatMap_append, List.flatMap_singleton,
    List.filter_append, hall]

theorem replayed_cut {db : Database} (hneeded : db.minLogNumberToKeep2pc ≤ db.current.number)
    (k : ℕ) : (Database.cut db k).replayed = db.replayed.take (closedCount db + k) := by
  have hcut : (Database.cut db k).current.numbered = db.current.numbered.take k := List.map_take
  have hneeded' : (Database.cut db k).minLogNumberToKeep2pc ≤
      (Database.cut db k).current.number := hneeded
  rw [replayed_eq hneeded', hcut, replayed_eq hneeded, closedCount,
    List.take_length_add_append]
  rfl

theorem drop_replayed {db : Database} (hneeded : db.minLogNumberToKeep2pc ≤ db.current.number)
    (k : ℕ) : db.replayed.drop (closedCount db + k) =
      (db.current.records.drop k).map fun record => (db.current.number, record) := by
  rw [replayed_eq hneeded, closedCount, List.drop_length_add_append, LogFile.numbered,
    List.map_drop]

section Cut
variable {db : Database} {groups : List Group}

/-- The groups whose records the cut log still has. -/
def keptGroups (db : Database) (groups : List Group) (k : ℕ) : List Group :=
  groups.take (closedCount db + k)

/-- What is lost holds the record at `k` first. -/
theorem exists_lost_group (h : Inv db groups) {k : ℕ} {record : Bytes}
    (hrecord : db.current.records[k]? = some record) :
    ∃ g later, groups = keptGroups db groups k ++ g :: later ∧ sequenceOf record = g.sequence := by
  have hlost := List.forall₂_drop (closedCount db + k) h.disk
  obtain ⟨hk, hget⟩ := List.getElem?_eq_some_iff.mp hrecord
  rw [drop_replayed h.needed_current, List.drop_eq_getElem_cons hk, hget, List.map_cons,
    List.forall₂_cons_left_iff] at hlost
  obtain ⟨g, later, hholds, -, heq⟩ := hlost
  refine ⟨g, later, ?_, hholds.2.sequence_eq⟩
  rw [← heq]
  exact (List.take_append_drop ..).symm

theorem keptGroups_eq_self (h : Inv db groups) {k : ℕ} (hrecord : db.current.records[k]? = none) :
    keptGroups db groups k = groups := by
  have hlost := List.forall₂_drop (closedCount db + k) h.disk
  rw [drop_replayed h.needed_current, List.drop_eq_nil_of_le (List.getElem?_eq_none_iff.mp hrecord),
    List.map_nil, List.forall₂_nil_left_iff, List.drop_eq_nil_iff] at hlost
  exact List.take_of_length_le hlost

/-- The recovery accepts the cut log and knows the groups that are kept. -/
theorem exists_recovered_cut (h : Inv db groups) (k : ℕ) :
    ∃ r, (Database.cut db k).recoverLogFiles = some (.ok, r) ∧
      Recovered db.reopened (effect (keptGroups db groups k)) r := by
  have hdisk : List.Forall₂ Holds (Database.cut db k).replayed (keptGroups db groups k) := by
    rw [replayed_cut h.needed_current]
    exact List.forall₂_take _ h.disk
  have hchronicle := h.chronicle
  rw [← List.take_append_drop (closedCount db + k) groups]
    at hchronicle
  exact exists_recovered hdisk hchronicle.of_append.1

/-- The sequence number of the first record that is lost separates what is kept from what
is lost. -/
theorem exists_lost (h : Inv db groups) {k : ℕ} {record : Bytes}
    (hrecord : db.current.records[k]? = some record) :
    ∃ later, (effect groups).history = (effect (keptGroups db groups k)).history ++ later ∧
      (∀ a ∈ (effect (keptGroups db groups k)).history, a.2.2.sequence < sequenceOf record) ∧
      ∀ a ∈ later, sequenceOf record ≤ a.2.2.sequence := by
  obtain ⟨g, lost, hgroups, hsequence⟩ := exists_lost_group h hrecord
  have hchronicle := h.chronicle
  have hascending := (List.pairwise_append.mp h.ascending).1
  rw [hgroups] at hchronicle
  rw [hgroups, List.map_append, List.pairwise_append, List.map_cons, List.pairwise_cons]
    at hascending
  obtain ⟨later, heq, hlater⟩ := exists_later (g :: lost) (effect (keptGroups db groups k))
  refine ⟨later, ?_, ?_, ?_⟩
  · rw [← heq, effect, effect, ← List.foldl_append, ← hgroups]
  · rw [hsequence]
    exact hchronicle.of_append.2.1.newer
  · intro a ha
    obtain ⟨g', hg', -, hle⟩ := hlater a ha
    rw [hsequence]
    rcases List.mem_cons.mp hg' with rfl | hg'
    · exact hle
    · exact (hascending.2.1.1 _ (List.mem_map_of_mem hg')).trans hle

theorem fromLog_filter_sequence {kept later : List (ℕ × UInt32 × MemEntry)} {bound : ℕ}
    (hkept : ∀ a ∈ kept, a.2.2.sequence < bound) (hlater : ∀ b ∈ later, bound ≤ b.2.2.sequence)
    (number : ℕ) (cf : UInt32) :
    (fromLog number cf (kept ++ later)).filter (fun e => e.sequence < bound) =
      fromLog number cf kept := by
  have hfirst : ∀ e ∈ fromLog number cf kept, e.sequence < bound := by
    intro e he
    obtain ⟨a, ha, -, heq⟩ := mem_of_mem_fromLog he
    have hlt := hkept a ha
    rwa [heq] at hlt
  have hrest : ∀ e ∈ fromLog number cf later, ¬ e.sequence < bound := by
    intro e he
    obtain ⟨a, ha, -, heq⟩ := mem_of_mem_fromLog he
    have hle := hlater a ha
    rw [heq] at hle
    exact Nat.not_lt.mpr hle
  rw [fromLog_append, List.filter_append,
    List.filter_eq_self.mpr (fun e he => decide_eq_true (hfirst e he)),
    List.filter_eq_nil_iff.mpr (fun e he => by simpa using hrest e he), List.append_nil]

/-- The second of two records in the current log is lost, and the sealed memtable is not
flushed. -/
def cutActions : List Action :=
  [.write [.write [.put 0 [1] [2]]], .switchMemtable 0 5, .write [.write [.put 0 [3] [4]]],
    .write [.write [.put 0 [5] [6]]]]

theorem admissible_put {db : Database} (hdefault : schema db.columnFamilies 0 = some true)
    (hlast : db.lastSequence < maxSequenceNumber) (key value : UInt8) :
    Admissible db (.write [.write [.put 0 [key] [value]]]) :=
  ⟨Nat.succ_le_succ hlast, List.forall_mem_singleton.mpr (accepted_put hdefault key value),
    List.nodup_nil, (by decide : 1 < 2 ^ 31)⟩

theorem along_cut : Along step Admissible (.init false sampleFamilies 3) cutActions := by
  refine ⟨admissible_put rfl (by decide) 1 2, ?_⟩
  intro db₁ h₁
  cases h₁
  refine ⟨trivial, ?_⟩
  intro db₂ h₂
  cases h₂
  refine ⟨admissible_put rfl (by decide) 3 4, ?_⟩
  intro db₃ h₃
  cases h₃
  exact ⟨admissible_put rfl (by decide) 5 6, fun _ _ => trivial⟩

end Cut

theorem exists_beginLog {db : Database} {number : ℕ} (hlt : db.current.number < number) :
    ∃ db', db.beginLog number = some db' := by
  unfold Database.beginLog
  split_ifs
  · exact ⟨_, rfl⟩
  · exact ⟨_, rfl⟩

theorem switchMemtable_isSome {db : Database} {cf : UInt32} {f : Family} {number : ℕ}
    (hf : db.families cf = some f) (hlt : db.current.number < number) :
    (db.switchMemtable cf number).isSome = true := by
  obtain ⟨begun, hbegin⟩ := exists_beginLog hlt
  obtain ⟨-, -, hfamilies⟩ := beginLog_frame hbegin
  unfold Database.switchMemtable
  rw [hbegin]
  simp only [Option.bind_eq_bind, Option.bind_some, hfamilies]
  split_ifs <;> simp [hf]

/-- Every valid group can be written, every memtable can be switched, and sealed memtables
can be flushed. The current log is never obsolete. -/
theorem steps_defined (allow2pc : Bool) (families : List (UInt32 × ColumnFamily)) (number : ℕ)
    (hnumber : 0 < number) (actions : List Action) (db : Database)
    (hvalid : Along step Admissible (.init allow2pc families number) actions)
    (hrun : run step (.init allow2pc families number) actions = some db) :
    (∀ group, Admissible db (.write group) → (step db (.write group)).isSome = true) ∧
      ∀ cf f, db.families cf = some f →
        (∀ next, db.current.number < next →
          (step db (.switchMemtable cf next)).isSome = true) ∧
        (f.imm ≠ [] → ∀ n, (step db (.flush cf n)).isSome = true) ∧
        db.minLogNumberToKeep ≤ db.current.number := by
  obtain ⟨groups, h⟩ := exists_inv hnumber hvalid hrun
  refine ⟨?_, ?_⟩
  · intro group hgroup
    obtain ⟨db', hwrite, -⟩ := h.exists_written hgroup
    exact Option.isSome_iff_exists.mpr ⟨db', hwrite⟩
  · intro cf f hf
    refine ⟨fun next hnext => switchMemtable_isSome hf hnext, ?_, ?_⟩
    · intro himm n
      obtain ⟨f', hflush⟩ := Option.isSome_iff_exists.mp ((h.families hf).flush_isSome himm n)
      show (db.flush cf n).isSome = true
      rw [Database.flush, hf]
      simp only [Option.bind_eq_bind, Option.bind_some, hflush]
      rfl
    · unfold Database.minLogNumberToKeep
      split_ifs
      · exact h.needed_current
      · exact (h.minLogNumber_le hf).trans (h.families hf).chain.le_current

/-- The transaction can commit, and the log with its prepare section is still needed. -/
theorem steps_defined_sample :
    ∃ db, run step (.init true sampleFamilies 3) sampleActions = some db ∧
      (step db (.write [.commit [7] []])).isSome = true ∧
      (step db (.switchMemtable 0 9)).isSome = true ∧
      db.minLogNumberToKeep = 3 ∧ db.minLogNumberToKeep ≤ db.current.number := by
  obtain ⟨db, f, hrun, hf, hcommit, hcurrent, hkeep⟩ : ∃ db f,
      run step (.init true sampleFamilies 3) sampleActions = some db ∧ db.families 0 = some f ∧
        Admissible db (.write [.commit [7] []]) ∧ db.current.number < 9 ∧
        db.minLogNumberToKeep = 3 := by
    refine ⟨_, _, rfl, rfl, ⟨by decide, ?_, by decide, by decide⟩, by decide, by decide⟩
    exact List.forall_mem_singleton.mpr
      ⟨accepted_nil _, by decide, _, List.mem_singleton_self _, rfl⟩
  obtain ⟨hwrite, hfamily⟩ :=
    steps_defined true sampleFamilies 3 (by decide) sampleActions db along_sample hrun
  obtain ⟨hswitch, -, hle⟩ := hfamily 0 f hf
  exact ⟨db, hrun, hwrite _ hcommit, hswitch 9 hcurrent, hkeep, hle⟩

end PowerLawRocksdb.CrashRecovery
