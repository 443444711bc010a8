import PowerLawRocksdb.LogHistory

/-!
# The requests of a write group

A request stands for operations in the log, and for entries that the memtables receive.
Within a group no transaction is named twice, so that all members can look at the
transactions that were prepared before the group.
-/
namespace PowerLawRocksdb.LogLifeCycle
open Numerals WriteBatch BatchEntries BatchGrammar BatchContents WriteCommitted RecordReplay

/-- A call that a user can make. The markers are made by the database. -/
def IsData : Update → Prop
  | .insertNoop | .markEndPrepare _ _ _ | .markCommit _ | .markRollback _ => False
  | _ => True

/-- Calls whose column families are there. -/
structure Accepted (families : UInt32 → Option Bool) (updates : List Update) : Prop where
  data : ∀ u ∈ updates, IsData u
  fits : ∀ u ∈ updates, u.Fits
  supported : ∀ e ∈ contents updates, Supported families e

def Request.name : Request → Option Bytes
  | .write _ => none
  | .prepare name _ | .commit name _ | .rollback name => some name

/-- The operations in the log. -/
def Request.ops : Request → List LogOp
  | .write updates => [.updates (contents updates)]
  | .prepare name updates => [.prepare name (contents updates)]
  | .commit name updates => [.updates (contents updates), .commit name]
  | .rollback name => [.rollback name]

def Request.applied (prepared : List Prepared) : Request → List Entry
  | .write updates => contents updates
  | .prepare _ _ | .rollback _ => []
  | .commit name updates => contents updates ++ lookup prepared name

def Request.after (log : ℕ) (prepared : List Prepared) : Request → List Prepared
  | .write _ => prepared
  | .prepare name updates => prepared ++ [⟨name, log, contents updates⟩]
  | .commit name _ | .rollback name => RecordReplay.discard prepared name

/-- The number of updates that a request brings into a batch. -/
def Request.size (prepared : List Prepared) : Request → ℕ
  | .write updates | .prepare _ updates => updateCount (contents updates)
  | .commit name updates => updateCount (contents updates) + updateCount (lookup prepared name)
  | .rollback _ => 0

/-- A request that the database can be given. -/
def Request.Valid (families : UInt32 → Option Bool) (allow2pc : Bool) (prepared : List Prepared) :
    Request → Prop
  | .write updates => Accepted families updates
  | .prepare name updates =>
      Accepted families updates ∧ allow2pc = true ∧ name.length ≤ maxUint32 ∧
        (∀ e ∈ contents updates, ∀ cf key value, e ≠ .putBlobIndex cf key value) ∧
        ∀ q ∈ prepared, q.name ≠ name
  | .commit name updates =>
      Accepted families updates ∧ name.length ≤ maxUint32 ∧ ∃ q ∈ prepared, q.name = name
  | .rollback name => name.length ≤ maxUint32 ∧ ∃ q ∈ prepared, q.name = name

end PowerLawRocksdb.LogLifeCycle

namespace PowerLawRocksdb.WriteRequests
open Numerals WriteBatch BatchEntries BatchGrammar BatchIterate BatchContents WriteGroups
open MemTableInserter WriteCommitted RecordReplay LiveInsertion LogLifeCycle

section Contents

theorem extend_data {u : Update} (hu : IsData u) (entries : List Entry) :
    (u.extend entries).getD entries = entries ++ (u.extend []).getD [] := by
  cases u with
  | put cf key value | merge cf key value =>
      rw [Update.extend, Update.extend]
      split_ifs
      · exact (List.append_nil entries).symm
      · rfl
  | delete cf key | singleDelete cf key | deleteRange cf key value | putBlobIndex cf key value
  | putLogData blob => rfl
  | insertNoop | markEndPrepare _ _ _ | markCommit _ | markRollback _ => exact hu.elim

theorem foldl_extend {updates : List Update} (h : ∀ u ∈ updates, IsData u) (entries : List Entry) :
    updates.foldl (fun entries u => (u.extend entries).getD entries) entries =
      entries ++ contents updates := by
  induction updates generalizing entries with
  | nil => exact (List.append_nil entries).symm
  | cons u updates ih =>
      have ih := ih fun v hv => h v (List.mem_cons_of_mem u hv)
      have hcons : contents (u :: updates) = (u.extend []).getD [] ++ contents updates := ih _
      rw [List.foldl_cons, ih, extend_data (h u List.mem_cons_self), hcons, List.append_assoc]

theorem plain_contents {updates : List Update} (h : ∀ u ∈ updates, IsData u) :
    ∀ e ∈ contents updates, Plain e := by
  induction updates with
  | nil => exact fun _ he => absurd he List.not_mem_nil
  | cons u updates ih =>
      have hrest : ∀ v ∈ updates, IsData v := fun v hv => h v (List.mem_cons_of_mem u hv)
      have hcons : contents (u :: updates) = (u.extend []).getD [] ++ contents updates :=
        foldl_extend hrest _
      intro e he
      rw [hcons, List.mem_append] at he
      rcases he with he | he
      · have hu := h u List.mem_cons_self
        cases u with
        | put cf key value | merge cf key value =>
            rw [Update.extend] at he
            split_ifs at he
            · cases he
            · rw [Option.getD_some, List.nil_append, List.mem_singleton] at he
              rw [he]
              trivial
        | delete cf key | singleDelete cf key | deleteRange cf key value
        | putBlobIndex cf key value | putLogData blob =>
            rw [List.mem_singleton.mp he]
            trivial
        | insertNoop | markEndPrepare _ _ _ | markCommit _ | markRollback _ => exact hu.elim
      · exact ih hrest e he

theorem contents_markCommit (updates : List Update) (name : Bytes) :
    contents (updates ++ [.markCommit name]) = contents updates ++ [.commit name] := by
  rw [contents, List.foldl_append]
  rfl

/-- The batch of a transaction is one prepare section. -/
theorem contents_prepared {updates : List Update} (h : ∀ u ∈ updates, IsData u) (name : Bytes) :
    contents (.insertNoop :: updates ++ [.markEndPrepare name true false]) =
      .beginPrepare :: contents updates ++ [.endPrepare name] := by
  have hfront : (Update.insertNoop :: updates).foldl
      (fun entries u => (u.extend entries).getD entries) [] = .noop :: contents updates :=
    foldl_extend h [.noop]
  rw [contents, List.foldl_append, hfront]
  rfl

variable {families : UInt32 → Option Bool} {updates : List Update}

theorem represents_preparedBatch (h : Accepted families updates) {name : Bytes}
    (hname : name.length ≤ maxUint32) :
    Represents (preparedBatch name updates)
      (.beginPrepare :: contents updates ++ [.endPrepare name]) := by
  rw [← contents_prepared h.data]
  apply represents_build
  intro u hu
  rw [List.cons_append, List.mem_cons, List.mem_append, List.mem_singleton] at hu
  rcases hu with rfl | hu | rfl
  · trivial
  · exact h.fits u hu
  · exact hname

theorem represents_working (h : Accepted families updates) {name : Bytes}
    (hname : name.length ≤ maxUint32) :
    Represents (build (updates ++ [.markCommit name])) (contents updates ++ [.commit name]) := by
  rw [← contents_markCommit]
  apply represents_build
  intro u hu
  rw [List.mem_append, List.mem_singleton] at hu
  rcases hu with hu | rfl
  · exact h.fits u hu
  · exact hname

theorem length_of_represents {rep : Bytes} {entries : List Entry} (h : Represents rep entries) :
    rep.length = headerSize + (bytesOf entries).length := by
  rw [← h.body_eq, body, List.length_drop, Nat.add_sub_of_le h.header]

theorem supported_of_none {e : Entry} (h : payload e = none) : Supported families e := by
  intro cf type key value hpayload
  rw [h] at hpayload
  cases hpayload

theorem insertable_of_plain {e : Entry} (h : Plain e) (ref : ℕ) : Insertable ref e := by
  cases e <;> trivial

end Contents

/-- A transaction of the database and the prepare section in the log. -/
structure Tracked (t : Transaction) (q : Prepared) : Prop where
  name_eq : t.name = q.name
  log_eq : t.logNumber = q.log
  log_pos : 0 < q.log
  represents : Represents t.batch (.beginPrepare :: q.entries ++ [.endPrepare q.name])

section Writer
variable {families : UInt32 → Option Bool} {allow2pc : Bool} {transactions : List Transaction}
  {prepared : List Prepared}

theorem find?_tracked (h : List.Forall₂ Tracked transactions prepared) {name : Bytes}
    (hname : ∃ q ∈ prepared, q.name = name) :
    ∃ t q, (transactions.find? fun t => t.name = name) = some t ∧
      (prepared.find? fun q => q.name = name) = some q ∧ Tracked t q := by
  induction h with
  | nil =>
      obtain ⟨q, hq, -⟩ := hname
      cases hq
  | @cons t q transactions prepared htracked _ ih =>
      by_cases hfirst : q.name = name
      · refine ⟨t, q, ?_, ?_, htracked⟩
        · rw [List.find?_cons, htracked.name_eq, decide_eq_true hfirst]
        · rw [List.find?_cons, decide_eq_true hfirst]
      · have hrest : ∃ q ∈ prepared, q.name = name := by
          obtain ⟨q', hq', hname'⟩ := hname
          rcases List.mem_cons.mp hq' with rfl | hq'
          · exact absurd hname' hfirst
          · exact ⟨q', hq', hname'⟩
        obtain ⟨t', q', ht', hq', htracked'⟩ := ih hrest
        refine ⟨t', q', ?_, ?_, htracked'⟩
        · rw [List.find?_cons, htracked.name_eq, decide_eq_false hfirst, ht']
        · rw [List.find?_cons, decide_eq_false hfirst, hq']

/-- The writer of a request logs its operations and inserts its entries. -/
def Writes (families : UInt32 → Option Bool) (prepared : List Prepared) (r : Request) (w : Writer) :
    Prop :=
  Logged w.toGroupWriter (r.ops.flatMap LogOp.written) ∧ Inserts families w (r.applied prepared)

theorem inserts_plain {rep : Bytes} {all entries : List Entry} (hrep : Represents rep all)
    (hcount : updateCount all < 2 ^ 31)
    (hall : ∀ e ∈ all, Insertable 0 e ∧ Supported families e)
    (hsame : all.filter Entry.counted = entries.filter Entry.counted) :
    Inserts families ⟨plain rep, false, 0⟩ entries :=
  ⟨rfl, fun h => absurd h Bool.false_ne_true, fun _ => ⟨all, hrep, hcount, hall, hsame⟩⟩

theorem logged_plain {rep : Bytes} {entries : List Entry} (h : Represents rep entries) :
    Logged (plain rep) entries := ⟨[], by rwa [List.append_nil], rfl⟩

theorem exists_writer (htracked : List.Forall₂ Tracked transactions prepared)
    (hprepared : ∀ q ∈ prepared, q.Valid families) {r : Request}
    (hr : r.Valid families allow2pc prepared) (hsize : Request.size prepared r < 2 ^ 31) :
    ∃ w, r.writer transactions = some w ∧ Writes families prepared r w := by
  cases r with
  | write updates =>
      have hrep := represents_build hr.fits
      refine ⟨_, rfl, ?_, ?_⟩
      · rw [Request.ops, List.flatMap_singleton]
        exact logged_plain hrep
      · apply inserts_plain hrep hsize _ rfl
        exact fun e he => ⟨insertable_of_plain (plain_contents hr.data e he) 0, hr.supported e he⟩
  | prepare name updates =>
      obtain ⟨haccepted, -, hname, -, -⟩ := hr
      refine ⟨_, rfl, ?_, ?_⟩
      · rw [Request.ops, List.flatMap_singleton]
        exact logged_plain (represents_preparedBatch haccepted hname)
      · exact ⟨rfl, fun _ => rfl, fun h => absurd h.symm Bool.false_ne_true⟩
  | rollback name =>
      have hrep : Represents (build [.markRollback name]) [.rollback name] :=
        represents_build (List.forall_mem_singleton.mpr hr.1)
      refine ⟨_, rfl, logged_plain hrep, ?_⟩
      have hall : ∀ e ∈ [Entry.rollback name], Insertable 0 e ∧ Supported families e :=
        List.forall_mem_singleton.mpr ⟨trivial, supported_of_none rfl⟩
      exact inserts_plain hrep (by decide : 0 < 2 ^ 31) hall (by rfl)
  | commit name updates =>
      obtain ⟨haccepted, hname, hexists⟩ := hr
      obtain ⟨t, q, ht, hq, htq⟩ := find?_tracked htracked hexists
      have hqvalid := hprepared q (List.mem_of_find?_eq_some hq)
      have hlookup : lookup prepared name = q.entries := by rw [lookup, hq]
      have hworking := represents_working haccepted hname
      have hall := hworking.append (logged_plain htq.represents)
      refine ⟨_, by rw [Request.writer, ht]; rfl, ?_, ?_⟩
      · -- the log ends at the termination point
        refine ⟨_, by simpa [Request.ops, LogOp.written] using hall, ?_⟩
        have hops : Request.ops (.commit name updates) =
            [.updates (contents updates), .commit name] := rfl
        simp only [hops, List.flatMap_cons, List.flatMap_nil, List.append_nil, LogOp.written]
        refine ⟨length_of_represents hworking, ?_⟩
        rw [hworking.count_eq, Nat.mod_mod]
      · refine ⟨rfl, fun h => absurd h Bool.false_ne_true, fun _ => ⟨_, hall, ?_, ?_, ?_⟩⟩
        · rw [Request.size, hlookup] at hsize
          simpa [updateCount, Entry.counted] using hsize
        · intro e he
          simp only [List.mem_append, List.mem_cons, List.not_mem_nil, or_false] at he
          rcases he with (he | rfl) | (rfl | he) | rfl
          · exact ⟨insertable_of_plain (plain_contents haccepted.data e he) _,
              haccepted.supported e he⟩
          · refine ⟨?_, supported_of_none rfl⟩
            show t.logNumber ≠ 0
            rw [htq.log_eq]
            exact Nat.pos_iff_ne_zero.mp htq.log_pos
          · exact ⟨trivial, supported_of_none rfl⟩
          · exact ⟨insertable_of_plain (hqvalid.plain e he) _, hqvalid.supported e he⟩
          · exact ⟨trivial, supported_of_none rfl⟩
        · rw [Request.applied, hlookup]
          simp [Entry.counted]

end Writer

section Group
variable {families : UInt32 → Option Bool} {allow2pc : Bool} {log : ℕ}

theorem replay_append (log : ℕ) (as bs : List LogOp) (prepared : List Prepared) :
    replay log (as ++ bs) prepared =
      ((replay log as prepared).1 ++ (replay log bs (replay log as prepared).2).1,
        (replay log bs (replay log as prepared).2).2) := by
  induction as generalizing prepared with
  | nil => rfl
  | cons op as ih =>
      rw [List.cons_append, replay, ih, replay, List.append_assoc]

theorem replay_ops (log : ℕ) (prepared : List Prepared) (r : Request) :
    replay log r.ops prepared = (r.applied prepared, r.after log prepared) := by
  cases r with
  | write updates | commit name updates =>
      simp [Request.ops, replay, LogOp.applied, LogOp.after, Request.applied, Request.after]
  | prepare name updates | rollback name => rfl

theorem validOps_append {as bs : List LogOp} {prepared : List Prepared}
    (has : ValidOps families allow2pc log as prepared)
    (hbs : ValidOps families allow2pc log bs (replay log as prepared).2) :
    ValidOps families allow2pc log (as ++ bs) prepared := by
  induction as generalizing prepared with
  | nil => exact hbs
  | cons op as ih => exact ⟨has.1, ih has.2 hbs⟩

/-- Requests about other transactions do not matter for a name. -/
theorem filter_after {r : Request} {name : Bytes} (hname : r.name ≠ some name)
    (prepared : List Prepared) :
    (r.after log prepared).filter (fun q => q.name = name) =
      prepared.filter (fun q => q.name = name) := by
  have hdiscard : ∀ other : Bytes, other ≠ name →
      (RecordReplay.discard prepared other).filter (fun q => q.name = name) =
        prepared.filter (fun q => q.name = name) := by
    intro other hother
    rw [RecordReplay.discard, List.filter_filter]
    apply List.filter_congr
    intro q _
    by_cases hq : q.name = name
    · have hne : ¬ q.name = other := fun h => hother (h.symm.trans hq)
      simp [hq, Ne.symm hother]
    · simp [hq]
  cases r with
  | write updates => rfl
  | prepare other updates =>
      have hother : ¬ other = name := fun h => hname (congrArg some h)
      rw [Request.after, List.filter_append]
      simp [hother]
  | commit other updates => exact hdiscard other fun h => hname (congrArg some h)
  | rollback other => exact hdiscard other fun h => hname (congrArg some h)

theorem lookup_eq_filter (prepared : List Prepared) (name : Bytes) :
    lookup prepared name =
      match (prepared.filter fun q => q.name = name).head? with
      | none => []
      | some q => q.entries := by
  rw [List.head?_filter]
  rfl

theorem mem_filter_iff (prepared : List Prepared) (name : Bytes) :
    (∃ q ∈ prepared, q.name = name) ↔ (prepared.filter fun q => q.name = name) ≠ [] := by
  rw [Ne, List.filter_eq_nil_iff]
  simp

section Other
variable {r r' : Request} (hne : ∀ name, r.name = some name → r'.name ≠ some name)
  (log : ℕ) (prepared : List Prepared)
include hne

/-- A request means the same before and after one about another transaction. -/
theorem lookup_after {name : Bytes} (hname : r.name = some name) :
    lookup (r'.after log prepared) name = lookup prepared name := by
  rw [lookup_eq_filter, lookup_eq_filter, filter_after (hne name hname)]

theorem exists_after {name : Bytes} (hname : r.name = some name) :
    (∃ q ∈ r'.after log prepared, q.name = name) ↔ ∃ q ∈ prepared, q.name = name := by
  rw [mem_filter_iff, mem_filter_iff, filter_after (hne name hname)]

theorem applied_after : r.applied (r'.after log prepared) = r.applied prepared := by
  cases r with
  | write updates | prepare name updates | rollback name => rfl
  | commit name updates => rw [Request.applied, Request.applied, lookup_after hne log prepared rfl]

theorem size_after :
    Request.size (r'.after log prepared) r = Request.size prepared r := by
  cases r with
  | write updates | prepare name updates | rollback name => rfl
  | commit name updates => rw [Request.size, Request.size, lookup_after hne log prepared rfl]

theorem valid_after (h : r.Valid families allow2pc prepared) :
    r.Valid families allow2pc (r'.after log prepared) := by
  cases r with
  | write updates => exact h
  | prepare name updates =>
      obtain ⟨haccepted, h2pc, hname, hblob, hnew⟩ := h
      refine ⟨haccepted, h2pc, hname, hblob, ?_⟩
      intro q hq heq
      obtain ⟨q', hq', heq'⟩ := (exists_after hne log prepared rfl).mp ⟨q, hq, heq⟩
      exact hnew q' hq' heq'
  | commit name updates => exact ⟨h.1, h.2.1, (exists_after hne log prepared rfl).mpr h.2.2⟩
  | rollback name => exact ⟨h.1, (exists_after hne log prepared rfl).mpr h.2⟩

end Other

theorem validOps_request (log : ℕ) {prepared : List Prepared} {r : Request}
    (hr : r.Valid families allow2pc prepared) (hsize : Request.size prepared r < 2 ^ 31) :
    ValidOps families allow2pc log r.ops prepared := by
  have hupdates : ∀ {updates}, Accepted families updates →
      ∀ e ∈ contents updates, Plain e ∧ Supported families e := fun h e he =>
    ⟨plain_contents h.data e he, h.supported e he⟩
  cases r with
  | write updates => exact ⟨hupdates hr, trivial⟩
  | prepare name updates =>
      obtain ⟨haccepted, h2pc, -, hblob, hnew⟩ := hr
      have hrep := represents_build haccepted.fits
      refine ⟨⟨h2pc, ⟨?_, ?_, ?_, hblob, hsize⟩, hnew⟩, trivial⟩
      · exact plain_contents haccepted.data
      · exact hrep.fits
      · exact haccepted.supported
  | commit name updates => exact ⟨hupdates hr.1, trivial, trivial⟩
  | rollback name => exact ⟨trivial, trivial⟩

/-- The requests of a group, each of them valid before the group. -/
structure ValidGroup (families : UInt32 → Option Bool) (allow2pc : Bool) (prepared : List Prepared)
    (group : List Request) : Prop where
  valid : ∀ r ∈ group, r.Valid families allow2pc prepared
  names : (group.filterMap Request.name).Nodup
  size : (group.map (Request.size prepared)).sum < 2 ^ 31

theorem ValidGroup.size_lt {prepared : List Prepared} {group : List Request}
    (h : ValidGroup families allow2pc prepared group) {r : Request} (hr : r ∈ group) :
    Request.size prepared r < 2 ^ 31 := by
  have hsize := h.size
  obtain ⟨front, back, rfl⟩ := List.append_of_mem hr
  rw [List.map_append, List.map_cons, List.sum_append, List.sum_cons] at hsize
  omega

theorem ValidGroup.other {prepared : List Prepared} {r : Request} {group : List Request}
    (h : ValidGroup families allow2pc prepared (r :: group)) {r' : Request} (hr' : r' ∈ group) :
    ∀ name, r'.name = some name → r.name ≠ some name := by
  intro name hname hr
  have hnodup := h.names
  rw [List.filterMap_cons_some hr, List.nodup_cons] at hnodup
  exact hnodup.1 (List.mem_filterMap.mpr ⟨r', hr', hname⟩)

/-- The rest of a group is valid after its first request. -/
theorem ValidGroup.tail (log : ℕ) {prepared : List Prepared} {r : Request} {group : List Request}
    (h : ValidGroup families allow2pc prepared (r :: group)) :
    ValidGroup families allow2pc (r.after log prepared) group := by
  refine ⟨?_, ?_, ?_⟩
  · intro r' hr'
    exact valid_after (h.other hr') log prepared (h.valid r' (List.mem_cons_of_mem r hr'))
  · have hnodup := h.names
    rw [List.filterMap_cons] at hnodup
    split at hnodup
    · exact hnodup
    · exact hnodup.of_cons
  · have hsame : group.map (Request.size (r.after log prepared)) =
        group.map (Request.size prepared) :=
      List.map_congr_left fun r' hr' => size_after (h.other hr') log prepared
    have hsize := h.size
    rw [List.map_cons, List.sum_cons] at hsize
    rw [hsame]
    omega

/-- What the first request leaves behind does not matter to the others. -/
theorem ValidGroup.flatMap_applied (log : ℕ) {prepared : List Prepared} {r : Request}
    {group : List Request} (h : ValidGroup families allow2pc prepared (r :: group)) :
    group.flatMap (Request.applied (r.after log prepared)) =
      group.flatMap (Request.applied prepared) :=
  List.flatMap_congr fun _ hr' => applied_after (h.other hr') log prepared

/-- The operations of a group are valid one after another, and apply what the requests
bring. -/
theorem ValidGroup.replay (log : ℕ) {prepared : List Prepared} {group : List Request}
    (h : ValidGroup families allow2pc prepared group) :
    ValidOps families allow2pc log (group.flatMap Request.ops) prepared ∧
      RecordReplay.replay log (group.flatMap Request.ops) prepared =
        (group.flatMap (Request.applied prepared), group.foldl (Request.after log) prepared) := by
  induction group generalizing prepared with
  | nil => exact ⟨trivial, rfl⟩
  | cons r group ih =>
      obtain ⟨hvalid, hreplay⟩ := ih (h.tail log)
      have hr := validOps_request log (h.valid r List.mem_cons_self)
        (h.size_lt List.mem_cons_self)
      constructor
      · rw [List.flatMap_cons]
        apply validOps_append hr
        rwa [replay_ops]
      · rw [List.flatMap_cons, replay_append, replay_ops]
        dsimp only
        rw [hreplay, List.flatMap_cons, List.foldl_cons, h.flatMap_applied]

theorem discard_tracked {transactions : List Transaction} {prepared : List Prepared}
    (h : List.Forall₂ Tracked transactions prepared) (name : Bytes) :
    List.Forall₂ Tracked (transactions.filter fun t => t.name ≠ name)
      (RecordReplay.discard prepared name) := by
  induction h with
  | nil => exact .nil
  | cons ht _ ih =>
      rw [RecordReplay.discard, List.filter_cons, List.filter_cons, ht.name_eq]
      split_ifs
      · exact .cons ht ih
      · exact ih

/-- The database keeps track of the transactions. -/
theorem ValidGroup.tracked (hlog : 0 < log) {transactions : List Transaction}
    {prepared : List Prepared} {group : List Request}
    (hgroup : ValidGroup families allow2pc prepared group)
    (h : List.Forall₂ Tracked transactions prepared) :
    List.Forall₂ Tracked (group.foldl (Request.complete log) transactions)
      (group.foldl (Request.after log) prepared) := by
  induction group generalizing transactions prepared with
  | nil => exact h
  | cons r group ih =>
      rw [List.foldl_cons, List.foldl_cons]
      apply ih (hgroup.tail log)
      have hr := hgroup.valid r List.mem_cons_self
      cases r with
      | write updates => exact h
      | prepare name updates =>
          exact List.rel_append h
            (.cons ⟨rfl, rfl, hlog, represents_preparedBatch hr.1 hr.2.2.1⟩ .nil)
      | commit name updates => exact discard_tracked h name
      | rollback name => exact discard_tracked h name

end Group

end PowerLawRocksdb.WriteRequests
