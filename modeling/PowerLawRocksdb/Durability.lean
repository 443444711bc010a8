import PowerLawRocksdb.KeptLogs
import PowerLawRocksdb.WriteRequests

/-!
# What the logs on disk account for

In every state that the database can reach, the logs that are still needed and the log
numbers in the manifest are enough to rebuild the memtables, sealed or not, and the
transactions that are prepared. Writing a group and switching a memtable keep it so.
-/
namespace PowerLawRocksdb.Durability
open Numerals WriteBatch Readers BatchEntries BatchIterate BatchContents WriteGroups
open MemTableInserter WriteCommitted RecordReplay LiveInsertion LogLifeCycle LogHistory KeptLogs
open WriteRequests

/-- The prepare section without its markers. -/
def sectionOf (t : Transaction) : Prepared :=
  ⟨t.name, t.logNumber, (entriesOf (body t.batch)).tail.dropLast⟩

def preparedIn (record : Bytes) : List Bytes :=
  (entriesOf (body record)).filterMap fun
    | .endPrepare xid => some xid
    | _ => none

def committedIn (record : Bytes) : List Bytes :=
  (entriesOf (body record)).filterMap fun
    | .commit xid => some xid
    | _ => none

/-- No name is prepared in a log before `number` and committed in a later one. -/
def Apart (db : Database) (number : ℕ) : Prop :=
  ∀ r ∈ db.replayed, r.1 < number → ∀ r' ∈ db.replayed, number ≤ r'.1 →
    ∀ name ∈ preparedIn r.2, name ∉ committedIn r'.2

instance (db : Database) (number : ℕ) : Decidable (Apart db number) :=
  inferInstanceAs (Decidable (∀ r ∈ db.replayed, r.1 < number → ∀ r' ∈ db.replayed,
    number ≤ r'.1 → ∀ name ∈ preparedIn r.2, name ∉ committedIn r'.2))

/-- The users of the database see to it that the updates are for column families that there
are, that transactions are named as they should be, and that the counts and the sequence
numbers fit. With two-phase commit, no flush lets go of a prepare section whose commit is in
a log that is kept, which the rule for `min_log_number_to_keep` does not ensure. -/
def Admissible (db : Database) : Action → Prop
  | .write group =>
      Numberable (db.lastSequence + 1)
          (group.flatMap (Request.applied (db.transactions.map sectionOf))) ∧
        ValidGroup (schema db.columnFamilies) db.allow2pc (db.transactions.map sectionOf)
          group
  | .flush cf n => ∀ db', db.flush cf n = some db' → Apart db db'.minLogNumberToKeep2pc
  | .switchMemtable _ _ | .deleteLog _ => True

/-- The groups that are in the logs from `min_log_number_to_keep` on account for the state. -/
structure Inv (db : Database) (groups : List Group) : Prop where
  disk : List.Forall₂ Holds db.replayed groups
  closed : ∀ l ∈ db.closed, l.number < db.current.number
  positive : 0 < db.current.number
  chronicle : Chronicle (schema db.columnFamilies) db.allow2pc ⟨[], []⟩ groups
  sequences : ∀ a ∈ (effect groups).history, a.2.2.sequence ≤ db.lastSequence
  ascending : (groups.map Group.sequence ++ [db.lastSequence + 1]).Pairwise (· ≤ ·)
  logs : (groups.map Group.log ++ [db.current.number]).Pairwise (· ≤ ·)
  needed_current : db.minLogNumberToKeep2pc ≤ db.current.number
  families : ∀ {cf f}, db.families cf = some f →
    Kept (effect groups).history db.current.number cf f
  transactions : List.Forall₂ Tracked db.transactions (effect groups).prepared
  updates : db.allow2pc = false → ∀ g ∈ groups, ∀ op ∈ g.ops, ∃ entries, op = .updates entries
  ids : ∀ {cf f}, db.families cf = some f → cf ∈ db.ids

section Facts
variable {db : Database} {groups : List Group}

theorem entriesOf_body {rep : Bytes} {entries : List Entry} (h : Represents rep entries) :
    entriesOf (body rep) = entries := by
  rw [entriesOf, h.body_eq]
  exact congrArg Prod.fst (many_flatten (Entry.spelling h.fits))

/-- What is prepared can be read off the transactions. -/
theorem map_prepared {transactions : List Transaction} {prepared : List Prepared}
    (h : List.Forall₂ Tracked transactions prepared) :
    transactions.map sectionOf = prepared := by
  induction h with
  | nil => rfl
  | @cons t q _ _ ht _ ih =>
      have hentries : (entriesOf (body t.batch)).tail.dropLast = q.entries := by
        rw [entriesOf_body ht.represents, List.cons_append, List.tail_cons, List.dropLast_concat]
      rw [List.map_cons, ih, sectionOf, hentries, ht.name_eq, ht.log_eq]

theorem Inv.valid (h : Inv db groups) :
    ∀ q ∈ (effect groups).prepared, q.Valid (schema db.columnFamilies) :=
  valid_of_chronicle (fun _ hq => absurd hq List.not_mem_nil) h.chronicle

theorem exists_left {α β : Type*} {R : α → β → Prop} {xs : List α} {ys : List β}
    (h : List.Forall₂ R xs ys) {y : β} (hy : y ∈ ys) : ∃ x ∈ xs, R x y := by
  induction h with
  | nil => cases hy
  | @cons x _ _ _ hx _ ih =>
      rcases List.mem_cons.mp hy with rfl | hy
      · exact ⟨x, List.mem_cons_self, hx⟩
      · obtain ⟨x', hmem, hx'⟩ := ih hy
        exact ⟨x', List.mem_cons_of_mem x hmem, hx'⟩

theorem mem_numbered {record : ℕ × Bytes} (h : record ∈ db.numbered) :
    (∃ l ∈ db.closed, record.1 = l.number) ∨
      (record.1 = db.current.number ∧ db.current.records ≠ []) := by
  rw [Database.numbered, List.flatMap_append, List.mem_append, List.flatMap_singleton] at h
  rcases h with h | h
  · obtain ⟨l, hl, hrecord⟩ := List.mem_flatMap.mp h
    obtain ⟨r, -, rfl⟩ := List.mem_map.mp hrecord
    exact .inl ⟨l, hl, rfl⟩
  · obtain ⟨r, hr, rfl⟩ := List.mem_map.mp h
    exact .inr ⟨rfl, List.ne_nil_of_mem hr⟩

/-- Everything is in a log that has been begun. -/
theorem Inv.history_log (h : Inv db groups) {a : ℕ × UInt32 × MemEntry}
    (ha : a ∈ (effect groups).history) :
    a.1 < db.current.number ∨ (a.1 = db.current.number ∧ db.current.records ≠ []) := by
  obtain ⟨later, heq, hlater⟩ := exists_later groups ⟨[], []⟩
  rw [effect, heq, List.nil_append] at ha
  obtain ⟨g, hg, hlog, -⟩ := hlater a ha
  obtain ⟨record, hrecord, hholds⟩ := exists_left h.disk hg
  rw [hlog, ← hholds.1]
  rcases mem_numbered (List.mem_of_mem_filter hrecord) with ⟨l, hl, hnumber⟩ | hcurrent
  · rw [hnumber]
    exact .inl (h.closed l hl)
  · exact .inr hcurrent

/-- A list that grows can be continued from its last number. -/
theorem pairwise_append_last {numbers : List ℕ} {last next : ℕ}
    (h : (numbers ++ [last]).Pairwise (· ≤ ·)) (hle : last ≤ next) :
    (numbers ++ [last] ++ [next]).Pairwise (· ≤ ·) := by
  refine List.pairwise_append.mpr ⟨h, List.pairwise_singleton _ _, ?_⟩
  intro n hn m hm
  rw [List.mem_singleton.mp hm]
  rcases List.mem_append.mp hn with hn | hn
  · exact ((List.pairwise_append.mp h).2.2 n hn last List.mem_cons_self).trans hle
  · exact (List.mem_singleton.mp hn).le.trans hle

theorem Inv.older (h : Inv db groups) : Older db.columnFamilies (db.lastSequence + 1) := by
  intro cf family hfamily e he
  obtain ⟨f, hf, rfl⟩ := Option.map_eq_some_iff.mp hfamily
  obtain ⟨a, ha, rfl⟩ := (h.families hf).mem_history he
  exact Nat.lt_succ_of_le (h.sequences a ha)

theorem Inv.prepared_eq_nil (h : Inv db groups) (h2pc : db.allow2pc = false) :
    (effect groups).prepared = [] := by
  rw [effect, foldl_updates (h.updates h2pc)]

end Facts

section Write
variable {families : UInt32 → Option Bool}

theorem exists_mapM {α β : Type} {f : α → Option β} {Q : β → α → Prop} {xs : List α}
    (h : ∀ x ∈ xs, ∃ y, f x = some y ∧ Q y x) :
    ∃ ys, xs.mapM f = some ys ∧ List.Forall₂ Q ys xs := by
  induction xs with
  | nil => exact ⟨[], rfl, .nil⟩
  | cons x xs ih =>
      obtain ⟨y, hy, hQ⟩ := h x List.mem_cons_self
      obtain ⟨ys, hys, hall⟩ := ih fun x' hx' => h x' (List.mem_cons_of_mem x hx')
      exact ⟨y :: ys, by rw [List.mapM_cons, hy, hys]; rfl, .cons hQ hall⟩

theorem sequenceOf_setSequence {n : ℕ} (hn : n < 2 ^ 64) (rep : Bytes) :
    sequenceOf (setSequence rep n) = n := by
  have hlen : (littleEndian 8 n).length = 8 := length_littleEndian ..
  rw [sequenceOf, setSequence, List.take_left' hlen, ofLittleEndian_littleEndian]
  exact Nat.mod_eq_of_lt hn

theorem updateCount_written_le (prepared : List Prepared) (r : Request) :
    updateCount (r.ops.flatMap LogOp.written) ≤ Request.size prepared r := by
  cases r with
  | write updates | prepare name updates | commit name updates | rollback name =>
      simp [Request.ops, LogOp.written, Request.size, updateCount, Entry.counted]

theorem updateCount_group_le (prepared : List Prepared) (group : List Request) :
    updateCount ((group.flatMap Request.ops).flatMap LogOp.written) ≤
      (group.map (Request.size prepared)).sum := by
  induction group with
  | nil => exact le_rfl
  | cons r group ih =>
      rw [List.flatMap_cons, List.flatMap_append, updateCount_append, List.map_cons, List.sum_cons]
      exact Nat.add_le_add (updateCount_written_le prepared r) ih

theorem sum_counts {writers : List Writer} {parts : List (List Entry)}
    (h : List.Forall₂ (Inserts families) writers parts) :
    ((writers.filter Writer.shouldWriteToMemtable).map fun w : Writer =>
      (count w.batch : ℤ).bmod (2 ^ 32)).sum = updateCount parts.flatten := by
  induction h with
  | nil => rfl
  | @cons w entries writers parts hw _ ih =>
      rw [List.flatten_cons, updateCount_append, List.filter_cons, Writer.shouldWriteToMemtable,
        hw.callback]
      cases hmem : w.disableMemtable with
      | true =>
          rw [hw.skipped hmem, Nat.zero_add, ← ih, if_neg (by decide)]
      | false =>
          obtain ⟨all, hrep, hcount, -, hsame⟩ := hw.batch hmem
          have hsize : updateCount all = updateCount entries := by
            rw [← updateCount_filter, hsame, updateCount_filter]
          have hbatch : (count w.batch : ℤ).bmod (2 ^ 32) = updateCount entries := by
            rw [hrep.count_eq, Nat.mod_eq_of_lt (hcount.trans (by decide)), ← hsize]
            apply Int.bmod_eq_of_le <;> omega
          rw [Nat.cast_add, ← hbatch, ← ih, if_pos (by decide), List.map_cons, List.sum_cons]

/-- The sequence numbers that a group takes are those of the updates that it inserts. -/
theorem totalCount_eq {writers : List Writer} {parts : List (List Entry)}
    (h : List.Forall₂ (Inserts families) writers parts)
    (hlt : updateCount parts.flatten < 2 ^ 64) :
    totalCount writers = updateCount parts.flatten := by
  rw [totalCount, sum_counts h, Int.emod_eq_of_lt (Int.natCast_nonneg _) (by exact_mod_cast hlt),
    Int.toNat_natCast]

theorem columnFamilies_of_some {db : Database} {cf : UInt32} {f : Family}
    (hf : db.families cf = some f) : db.columnFamilies cf = some f.toColumnFamily := by
  rw [Database.columnFamilies, hf]
  rfl

/-- Where the inserter leaves the column families of the database. -/
theorem columnFamilies_set {db : Database} {o : Options} {as : List (UInt32 × MemEntry)}
    {cfs : ColumnFamilies} (h : Received o as db.columnFamilies cfs) :
    (fun cf => ((db.families cf).map fun f => f.setColumnFamily (cfs cf)).map
      Family.toColumnFamily) = cfs := by
  funext cf
  cases hf : db.families cf with
  | none =>
      have hnone : db.columnFamilies cf = none := by rw [Database.columnFamilies, hf]; rfl
      rw [h.absent hnone]
      rfl
  | some f =>
      obtain ⟨mem, hmem, -⟩ := h.present (columnFamilies_of_some hf)
      rw [hmem]
      rfl

variable {db : Database} {groups : List Group}

/-- What a group does to the database. -/
structure Written (db : Database) (prepared : List Prepared) (group : List Request)
    (db' : Database) : Prop where
  record : ∃ record, db'.numbered = db.numbered ++ [(db.current.number, record)] ∧
    Records record (db.lastSequence + 1) (group.flatMap Request.ops)
  closed : db'.closed = db.closed
  number : db'.current.number = db.current.number
  allow2pc : db'.allow2pc = db.allow2pc
  ids : db'.ids = db.ids
  schema : schema db'.columnFamilies = schema db.columnFamilies
  keep : db'.minLogNumberToKeep2pc = db.minLogNumberToKeep2pc
  sequence : db'.lastSequence =
    db.lastSequence + updateCount (group.flatMap (Request.applied prepared))
  transactions : db'.transactions =
    group.foldl (Request.complete db.current.number) db.transactions
  families : ∀ {cf f'}, db'.families cf = some f' → ∃ f family, db.families cf = some f ∧
    f' = f.setColumnFamily (some family) ∧ family.logNumber = f.logNumber ∧
    family.mem.entries = f.mem.entries ++
      forFamily cf (additions (db.lastSequence + 1) (group.flatMap (Request.applied prepared)))

/-- A valid group is written. -/
theorem Inv.exists_written (h : Inv db groups) {group : List Request}
    (hvalid : Admissible db (.write group)) :
    ∃ db', db.write group = some db' ∧ Written db (effect groups).prepared group db' := by
  obtain ⟨hnumbers, hgroup⟩ := hvalid
  rw [map_prepared h.transactions] at hnumbers hgroup
  set prepared := (effect groups).prepared with hprepared
  obtain ⟨writers, hmapM, hwriters⟩ := exists_mapM fun r hr =>
    exists_writer h.transactions h.valid (hgroup.valid r hr) (hgroup.size_lt hr)
  have hparts : List.Forall₂ (Inserts (schema db.columnFamilies)) writers
      (group.map (Request.applied prepared)) :=
    List.forall₂_map_right_iff.mpr (hwriters.imp fun _ _ hw => hw.2)
  have hlogged : List.Forall₂ Adds (writers.map Writer.toGroupWriter)
      (group.map fun r => r.ops.flatMap LogOp.written) := by
    refine List.forall₂_map_left_iff.mpr (List.forall₂_map_right_iff.mpr
      (hwriters.imp fun w r hw => ?_))
    rw [Adds, if_neg (Bool.eq_false_iff.mp hw.2.callback)]
    exact hw.1
  have hroom : db.lastSequence + 1 + updateCount (group.flatMap (Request.applied prepared)) ≤
      2 ^ 56 := hnumbers
  -- the record
  set record := setSequence (mergeBatch (writers.map Writer.toGroupWriter)) (db.lastSequence + 1)
    with hrecord
  have hrecords : Records record (db.lastSequence + 1) (group.flatMap Request.ops) := by
    refine ⟨?_, sequenceOf_setSequence (by omega) _, ?_⟩
    · rw [List.flatMap_assoc, List.flatMap_def]
      exact (represents_mergeBatch hlogged).setSequence _
    · exact (updateCount_group_le prepared group).trans_lt hgroup.size
  -- the memtables
  obtain ⟨i, hinsert, -, hreceived⟩ := insertIntoGroup_inserts (policy_options db false 0)
    (fun hrecovering => hrecovering rfl)
    (i := .start (db.lastSequence + 1) db.columnFamilies []) hparts rfl
    (List.flatMap_def .. ▸ hnumbers) h.older
  have hcount := totalCount_eq hparts (by rw [← List.flatMap_def]; omega)
  rw [← List.flatMap_def] at hcount hreceived
  have hfamilies := columnFamilies_set hreceived
  set db' : Database := { db with
    families := fun cf => (db.families cf).map fun f => f.setColumnFamily (i.columnFamilies cf)
    current := { db.current with records := db.current.records ++ [record] }
    lastSequence := db.lastSequence + updateCount (group.flatMap (Request.applied prepared))
    transactions := group.foldl (Request.complete db.current.number) db.transactions } with hdb'
  have hwrite : db.write group = some db' := by
    rw [Database.write, hmapM]
    have hlast : (db.lastSequence + updateCount (group.flatMap (Request.applied prepared))) %
        2 ^ 64 = db.lastSequence + updateCount (group.flatMap (Request.applied prepared)) :=
      Nat.mod_eq_of_lt (by omega)
    simp only [Option.bind_eq_bind, Option.bind_some, Database.writeImpl, hinsert, hcount, hlast,
      if_neg (Nat.not_lt.mpr (Nat.le_add_right ..))]
    rfl
  refine ⟨db', hwrite, ⟨record, ?_, hrecords⟩, rfl, rfl, rfl, rfl, ?_, rfl, rfl, rfl, ?_⟩
  · simp [hdb', Database.numbered, LogFile.numbered]
  · rw [show db'.columnFamilies = i.columnFamilies from hfamilies]
    exact hreceived.schema_eq
  · intro cf f' hf'
    obtain ⟨f, hf, rfl⟩ := Option.map_eq_some_iff.mp hf'
    obtain ⟨mem, hmem, hentries⟩ := hreceived.present (columnFamilies_of_some hf)
    rw [if_neg fun hskips => hskips.1 rfl] at hentries
    exact ⟨f, _, hf, congrArg f.setColumnFamily hmem, rfl, hentries⟩

/-- Without two-phase commit a valid group holds updates only. -/
theorem Inv.ops_updates (h : Inv db groups) {group : List Request}
    (hgroup : ValidGroup (schema db.columnFamilies) db.allow2pc (effect groups).prepared group)
    (h2pc : db.allow2pc = false) :
    ∀ op ∈ group.flatMap Request.ops, ∃ entries, op = .updates entries := by
  intro op hop
  obtain ⟨r, hr, hop⟩ := List.mem_flatMap.mp hop
  have hr := hgroup.valid r hr
  have hnone : ∀ name, ¬ ∃ q ∈ (effect groups).prepared, q.name = name := by
    rw [h.prepared_eq_nil h2pc]
    simp
  cases r with
  | write updates => exact ⟨_, List.mem_singleton.mp hop⟩
  | prepare name updates => exact absurd (h2pc.symm.trans hr.2.1) Bool.false_ne_true
  | commit name updates => exact absurd hr.2.2 (hnone name)
  | rollback name => exact absurd hr.2 (hnone name)

/-- The group is then in the log. -/
theorem Inv.written (h : Inv db groups) {group : List Request}
    (hvalid : Admissible db (.write group)) {db' : Database}
    (hw : Written db (effect groups).prepared group db') : Inv db' (groups ++
      [⟨db.current.number, db.lastSequence + 1, group.flatMap Request.ops⟩]) := by
  obtain ⟨hnumbers, hgroup⟩ := hvalid
  rw [map_prepared h.transactions] at hnumbers hgroup
  obtain ⟨hops, hreplay⟩ := hgroup.replay db.current.number
  obtain ⟨record, hnumbered, hrecords⟩ := hw.record
  set added := additions (db.lastSequence + 1)
    (group.flatMap (Request.applied (effect groups).prepared)) with hadded
  have heffect : effect (groups ++
      [⟨db.current.number, db.lastSequence + 1, group.flatMap Request.ops⟩]) =
        ⟨(effect groups).history ++ added.map (Prod.mk db.current.number),
          group.foldl (Request.after db.current.number) (effect groups).prepared⟩ := by
    rw [effect_append, Effect.group]
    dsimp only
    rw [hreplay]
  refine ⟨?_, ?_, ?_, ?_, ?_, ?_, ?_, ?_, ?_, ?_, ?_, ?_⟩
  · have hreplayed : db'.replayed = db.replayed ++ [(db.current.number, record)] := by
      rw [Database.replayed, hnumbered, hw.keep, List.filter_append, List.filter_singleton,
        decide_eq_true h.needed_current]
      rfl
    rw [hreplayed]
    exact List.rel_append h.disk (.cons ⟨rfl, hrecords⟩ .nil)
  · rw [hw.closed, hw.number]
    exact h.closed
  · rw [hw.number]
    exact h.positive
  · rw [hw.schema, hw.allow2pc]
    refine h.chronicle.append
      ⟨h.positive, fun a ha => Nat.lt_succ_of_le (h.sequences a ha), hops, ?_⟩
    rw [← effect]
    dsimp only
    rwa [hreplay]
  · intro a ha
    rw [hw.sequence]
    rw [heffect, List.mem_append, List.mem_map] at ha
    rcases ha with ha | ⟨b, hb, rfl⟩
    · exact Nat.le_add_right_of_le (h.sequences a ha)
    · have hlt := sequence_of_mem_additions hb
      dsimp only
      omega
  · rw [List.map_append, List.map_singleton, hw.sequence]
    dsimp only
    exact pairwise_append_last h.ascending (by omega)
  · rw [List.map_append, List.map_singleton, hw.number]
    exact pairwise_append_last h.logs le_rfl
  · rw [hw.number, hw.keep]
    exact h.needed_current
  · intro cf f' hf'
    obtain ⟨f, family, hf, rfl, hlog, hentries⟩ := hw.families hf'
    rw [heffect, hw.number]
    exact (h.families hf).extend hlog hentries
  · rw [heffect, hw.transactions]
    exact hgroup.tracked h.positive h.transactions
  · intro h2pc g hg
    rw [hw.allow2pc] at h2pc
    rcases List.mem_append.mp hg with hg | hg
    · exact h.updates h2pc g hg
    · rw [List.mem_singleton.mp hg]
      exact h.ops_updates hgroup h2pc
  · intro cf f' hf'
    obtain ⟨f, family, hf, -⟩ := hw.families hf'
    rw [hw.ids]
    exact h.ids hf

end Write

section Steps
variable {db db' : Database} {groups : List Group}

/-- The parts of the state that a step without a write can change. -/
theorem Inv.congr (h : Inv db groups) (hdisk : db'.replayed = db.replayed)
    (hclosed : ∀ l ∈ db'.closed, l.number < db'.current.number)
    (hcurrent : db.current.number ≤ db'.current.number)
    (hneeded : db'.minLogNumberToKeep2pc ≤ db'.current.number)
    (hschema : schema db'.columnFamilies = schema db.columnFamilies)
    (hfamilies : ∀ {cf f}, db'.families cf = some f →
      Kept (effect groups).history db'.current.number cf f ∧ cf ∈ db'.ids)
    (hrest : db'.allow2pc = db.allow2pc ∧ db'.lastSequence = db.lastSequence ∧
      db'.transactions = db.transactions) : Inv db' groups := by
  obtain ⟨h2pc, hsequence, htransactions⟩ := hrest
  refine ⟨?_, hclosed, h.positive.trans_le hcurrent, ?_, ?_, ?_, ?_, hneeded,
    fun hf => (hfamilies hf).1, ?_, ?_, fun hf => (hfamilies hf).2⟩
  · rw [hdisk]
    exact h.disk
  · rw [hschema, h2pc]
    exact h.chronicle
  · rw [hsequence]
    exact h.sequences
  · rw [hsequence]
    exact h.ascending
  · have hsublist : (groups.map Group.log ++ [db'.current.number]).Sublist
        (groups.map Group.log ++ [db.current.number] ++ [db'.current.number]) :=
      (List.sublist_append_left _ _).append_right _
    exact (pairwise_append_last h.logs hcurrent).sublist hsublist
  · rw [htransactions]
    exact h.transactions
  · rw [h2pc]
    exact h.updates

theorem beginLog_frame {number : ℕ} (hbegin : db.beginLog number = some db') :
    db'.lastSequence = db.lastSequence ∧ db'.transactions = db.transactions ∧
      db'.families = db.families := by
  unfold Database.beginLog at hbegin
  split_ifs at hbegin
  · cases hbegin
    exact ⟨rfl, rfl, rfl⟩
  · cases hbegin
    exact ⟨rfl, rfl, rfl⟩

/-- A new log is begun, or nothing is in the current one. Both ways everything is in
older logs. -/
theorem Inv.beginLog (h : Inv db groups) {number : ℕ} (hbegin : db.beginLog number = some db') :
    Inv db' groups ∧ ∀ a ∈ (effect groups).history, a.1 < db'.current.number := by
  unfold Database.beginLog at hbegin
  split_ifs at hbegin with hempty hlt
  · cases hbegin
    refine ⟨h, ?_⟩
    intro a ha
    rcases h.history_log ha with hlog | hlog
    · exact hlog
    · exact absurd (List.isEmpty_iff.mp hempty) hlog.2
  · cases hbegin
    refine ⟨?_, ?_⟩
    · refine h.congr ?_ ?_ hlt.le (h.needed_current.trans hlt.le) rfl ?_ ⟨rfl, rfl, rfl⟩
      · simp [Database.replayed, Database.numbered, LogFile.numbered]
      · intro l hl
        rcases List.mem_append.mp hl with hl | hl
        · exact (h.closed l hl).trans hlt
        · rw [List.mem_singleton.mp hl]
          exact hlt
      · intro cf f hf
        exact ⟨(h.families hf).mono hlt.le, h.ids hf⟩
    · intro a ha
      rcases h.history_log ha with hlog | hlog
      · exact hlog.trans hlt
      · exact hlog.1.trans_lt hlt

theorem schema_update {families : UInt32 → Option Family} {cf : UInt32} {f f' : Family}
    (hf : families cf = some f) (hrange : f'.deleteRangeSupported = f.deleteRangeSupported) :
    schema (fun id => (Function.update families cf (some f') id).map Family.toColumnFamily) =
      schema fun id => (families id).map Family.toColumnFamily := by
  funext id
  unfold schema
  dsimp only
  by_cases hid : id = cf
  · subst hid
    rw [Function.update_self, hf]
    exact congrArg some hrange
  · rw [Function.update_of_ne hid]

theorem advance_deleteRangeSupported (log : ℕ) (f : Family) :
    (f.advance log).deleteRangeSupported = f.deleteRangeSupported := by
  unfold Family.advance
  split_ifs <;> rfl

theorem Inv.advance (h : Inv db groups)
    (hnew : ∀ a ∈ (effect groups).history, a.1 < db.current.number) :
    Inv { db with families := fun id => (db.families id).map (Family.advance db.current.number) }
      groups := by
  refine h.congr rfl h.closed le_rfl h.needed_current ?_ ?_ ⟨rfl, rfl, rfl⟩
  · funext id
    show Option.map _ (Option.map _ (Option.map _ _)) = Option.map _ (Option.map _ _)
    cases db.families id with
    | none => rfl
    | some f => exact congrArg some (advance_deleteRangeSupported _ f)
  · intro cf f' hf'
    obtain ⟨f, hf, rfl⟩ := Option.map_eq_some_iff.mp hf'
    exact ⟨(h.families hf).advance le_rfl hnew, h.ids hf⟩

/-- One column family is replaced. -/
theorem Inv.update (h : Inv db groups) {cf : UInt32} {f f' : Family} (hf : db.families cf = some f)
    (hkept : Kept (effect groups).history db.current.number cf f')
    (hrange : f'.deleteRangeSupported = f.deleteRangeSupported) :
    Inv { db with families := Function.update db.families cf (some f') } groups := by
  refine h.congr rfl h.closed le_rfl h.needed_current (schema_update hf hrange) ?_ ⟨rfl, rfl, rfl⟩
  intro id g hg
  dsimp only at hg
  by_cases hid : id = cf
  · subst hid
    rw [Function.update_self] at hg
    cases hg
    exact ⟨hkept, h.ids hf⟩
  · rw [Function.update_of_ne hid] at hg
    exact ⟨h.families hg, h.ids hg⟩

theorem Inv.seal (h : Inv db groups)
    (hnew : ∀ a ∈ (effect groups).history, a.1 < db.current.number) {cf : UInt32} {f : Family}
    (hf : db.families cf = some f) :
    Inv { db with families :=
      Function.update db.families cf (some (f.seal db.current.number)) } groups :=
  h.update hf ((h.families hf).seal h.positive le_rfl hnew) rfl

theorem Inv.switchMemtable (h : Inv db groups) {cf : UInt32} {number : ℕ}
    (hswitch : db.switchMemtable cf number = some db') : Inv db' groups := by
  obtain ⟨db₁, hbegin, hrest⟩ := Option.bind_eq_some_iff.mp hswitch
  obtain ⟨h₁, hnew⟩ := h.beginLog hbegin
  obtain ⟨f, hf, hdb'⟩ := Option.bind_eq_some_iff.mp hrest
  cases hdb'
  by_cases hcreating : (!db.current.records.isEmpty) = true
  · rw [if_pos hcreating] at hf ⊢
    exact (h₁.advance hnew).seal hnew hf
  · rw [if_neg hcreating] at hf ⊢
    exact h₁.seal hnew hf

end Steps

end PowerLawRocksdb.Durability
