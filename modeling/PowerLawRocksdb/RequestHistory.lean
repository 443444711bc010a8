import PowerLawRocksdb.CrashRecovery

/-!
# The database as a list of requests

To its users a database is what its requests leave behind, one after the other: each update
with the next sequence number, and for each prepared transaction the updates that wait for
its commit. Groups, logs, memtables and flushes do not show. Whatever was flushed, together
with what the recovery brings back, is that history.
-/
namespace PowerLawRocksdb.RequestHistory
open Numerals WriteBatch BatchEntries BatchGrammar BatchContents MemTableInserter WriteCommitted
open RecordReplay LogLifeCycle LogHistory KeptLogs WriteRequests Transitions Durability
open CrashRecovery (sampleActions sampleFamilies along_sample accepted_nil accepted_put
  admissible_put)

/-- The updates of a column family so far, and those that wait for a commit. -/
structure Store where
  sequence : ℕ
  prepared : Bytes → List Entry
  history : UInt32 → List MemEntry

def Store.empty : Store := ⟨0, fun _ => [], fun _ => []⟩

/-- The entries that take effect with a request. -/
def Store.applied (s : Store) : Request → List Entry
  | .write updates => contents updates
  | .prepare _ _ | .rollback _ => []
  | .commit name updates => contents updates ++ s.prepared name

def Store.request (s : Store) (r : Request) : Store where
  sequence := s.sequence + updateCount (s.applied r)
  prepared := match r with
    | .write _ => s.prepared
    | .prepare name updates => Function.update s.prepared name (contents updates)
    | .commit name _ | .rollback name => Function.update s.prepared name []
  history cf := s.history cf ++ forFamily cf (additions (s.sequence + 1) (s.applied r))

/-- Only writes change what a database means. -/
def Store.next (s : Store) : Action → Store
  | .write group => group.foldl Store.request s
  | .switchMemtable _ _ | .flush _ _ | .deleteLog _ => s

section Requests
variable {s : Store} {prepared : List Prepared}

theorem lookup_append_new {name : Bytes} (hnew : ∀ q ∈ prepared, q.name ≠ name) (log : ℕ)
    (entries : List Entry) :
    lookup (prepared ++ [⟨name, log, entries⟩]) =
      Function.update (lookup prepared) name entries := by
  funext other
  by_cases hother : other = name
  · subst hother
    have hnone : prepared.find? (fun q => q.name = other) = none := by
      rw [List.find?_eq_none]
      intro q hq
      simpa using hnew q hq
    rw [Function.update_self, lookup, List.find?_append, hnone]
    simp
  · have hlast : [Prepared.mk name log entries].find? (fun q => q.name = other) = none := by
      simpa using Ne.symm hother
    rw [Function.update_of_ne hother, lookup, List.find?_append, hlast, Option.or_none]
    rfl

theorem lookup_discard (prepared : List Prepared) (name : Bytes) :
    lookup (RecordReplay.discard prepared name) = Function.update (lookup prepared) name [] := by
  funext other
  by_cases hother : other = name
  · subst hother
    have hnone : (RecordReplay.discard prepared other).find? (fun q => q.name = other) = none := by
      rw [List.find?_eq_none]
      intro q hq
      simpa using (List.mem_filter.mp hq).2
    rw [Function.update_self, lookup, hnone]
  · have hsame : (RecordReplay.discard prepared name).find? (fun q => q.name = other) =
        prepared.find? fun q => q.name = other := by
      rw [RecordReplay.discard, List.find?_filter]
      congr 1
      funext q
      by_cases hq : q.name = other
      · simp [hq, hother]
      · simp [hq]
    rw [Function.update_of_ne hother, lookup, hsame]
    rfl

theorem applied_eq (hs : s.prepared = lookup prepared) (r : Request) :
    s.applied r = r.applied prepared := by
  cases r with
  | write updates | prepare name updates | rollback name => rfl
  | commit name updates => rw [Store.applied, Request.applied, hs]

theorem prepared_request {families : UInt32 → Option Bool} {allow2pc : Bool} {r : Request}
    (hr : r.Valid families allow2pc prepared) (hs : s.prepared = lookup prepared) (log : ℕ) :
    (s.request r).prepared = lookup (r.after log prepared) := by
  cases r with
  | write updates => exact hs
  | prepare name updates =>
      obtain ⟨-, -, -, -, hnew⟩ := hr
      rw [Request.after, lookup_append_new hnew, ← hs]
      rfl
  | commit name updates | rollback name =>
      rw [Request.after, lookup_discard, ← hs]
      rfl

/-- A group does what its requests do one after the other. -/
theorem foldl_request {families : UInt32 → Option Bool} {allow2pc : Bool} {group : List Request}
    (hgroup : ValidGroup families allow2pc prepared group) (hs : s.prepared = lookup prepared)
    (log : ℕ) :
    group.foldl Store.request s =
      { sequence := s.sequence + updateCount (group.flatMap (Request.applied prepared))
        prepared := lookup (group.foldl (Request.after log) prepared)
        history := fun cf => s.history cf ++ forFamily cf
          (additions (s.sequence + 1) (group.flatMap (Request.applied prepared))) } := by
  induction group generalizing s prepared with
  | nil =>
      rw [List.foldl_nil, List.foldl_nil, ← hs]
      simp [additions, forFamily, updateCount]
  | cons r group ih =>
      have hprepared := prepared_request (hgroup.valid r List.mem_cons_self) hs log
      rw [List.foldl_cons, ih (hgroup.tail log) hprepared, hgroup.flatMap_applied]
      simp only [Store.request, applied_eq hs, List.flatMap_cons, List.foldl_cons,
        updateCount_append, additions_append, forFamily_append, List.append_assoc, Nat.add_assoc,
        Nat.add_comm 1]

end Requests

/-- All updates of a column family, flushed or not. -/
def updatesOf (f : Family) : List MemEntry :=
  f.tables ++ (f.imm.flatMap Sealed.entries ++ f.mem.entries)

/-- The database stands for the store. -/
structure Stands (db : Database) (s : Store) : Prop where
  sequence : s.sequence = db.lastSequence
  prepared : s.prepared = lookup (db.transactions.map sectionOf)
  history : ∀ {cf f}, db.families cf = some f → updatesOf f = s.history cf

section Steps
variable {db db' : Database} {s : Store}

theorem Stands.congr (h : Stands db s) (hsequence : db'.lastSequence = db.lastSequence)
    (htransactions : db'.transactions = db.transactions)
    (hfamilies : ∀ {cf f'}, db'.families cf = some f' →
      ∃ f, db.families cf = some f ∧ updatesOf f' = updatesOf f) : Stands db' s := by
  refine ⟨h.sequence.trans hsequence.symm, ?_, ?_⟩
  · rw [htransactions]
    exact h.prepared
  · intro cf f' hf'
    obtain ⟨f, hf, hsame⟩ := hfamilies hf'
    exact hsame.trans (h.history hf)

theorem updatesOf_advance (log : ℕ) (f : Family) : updatesOf (f.advance log) = updatesOf f := by
  unfold Family.advance
  split_ifs <;> rfl

theorem updatesOf_seal (log : ℕ) (f : Family) : updatesOf (f.seal log) = updatesOf f := by
  simp [updatesOf, Family.seal]

theorem updatesOf_flush {f f' : Family} {n : ℕ} (h : f.flush n = some f') :
    updatesOf f' = updatesOf f := by
  obtain ⟨last, -, rfl⟩ := flush_eq_some h
  have himm : f.imm.flatMap Sealed.entries = (f.imm.take (n + 1)).flatMap Sealed.entries ++
      (f.imm.drop (n + 1)).flatMap Sealed.entries := by
    rw [← List.flatMap_append, List.take_append_drop]
  simp only [updatesOf, himm, List.append_assoc]

theorem exists_update {families : UInt32 → Option Family} {cf : UInt32} {f f' : Family}
    (hf : families cf = some f) (hsame : updatesOf f' = updatesOf f) {id : UInt32} {g' : Family}
    (hg' : Function.update families cf (some f') id = some g') :
    ∃ g, families id = some g ∧ updatesOf g' = updatesOf g := by
  by_cases hid : id = cf
  · subst hid
    rw [Function.update_self] at hg'
    cases hg'
    exact ⟨f, hf, hsame⟩
  · rw [Function.update_of_ne hid] at hg'
    exact ⟨g', hg', rfl⟩

theorem Stands.switchMemtable (h : Stands db s) {cf : UInt32} {number : ℕ}
    (hswitch : db.switchMemtable cf number = some db') : Stands db' s := by
  obtain ⟨db₁, hbegin, hrest⟩ := Option.bind_eq_some_iff.mp hswitch
  obtain ⟨f, hf, hdb'⟩ := Option.bind_eq_some_iff.mp hrest
  cases hdb'
  obtain ⟨hsequence, htransactions, hfamilies⟩ := beginLog_frame hbegin
  refine h.congr hsequence htransactions ?_
  intro id g' hg'
  obtain ⟨g, hg, hsame⟩ := exists_update hf (updatesOf_seal _ f) hg'
  split_ifs at hg
  · obtain ⟨g₀, hg₀, rfl⟩ := Option.map_eq_some_iff.mp hg
    exact ⟨g₀, hfamilies ▸ hg₀, hsame.trans (updatesOf_advance _ g₀)⟩
  · exact ⟨g, hfamilies ▸ hg, hsame⟩

theorem Stands.flush (h : Stands db s) {cf : UInt32} {n : ℕ}
    (hflush : db.flush cf n = some db') : Stands db' s := by
  obtain ⟨f, f', hf, hf', rfl⟩ := flush_inv hflush
  exact h.congr rfl rfl fun hg' => exists_update hf (updatesOf_flush hf') hg'

theorem Stands.deleteLog (h : Stands db s) {number : ℕ}
    (hdelete : db.deleteLog number = some db') : Stands db' s := by
  obtain ⟨-, rfl⟩ := deleteLog_inv hdelete
  exact h.congr rfl rfl fun hf => ⟨_, hf, rfl⟩

theorem Stands.written (h : Stands db s) {groups : List Group} (hinv : Inv db groups)
    {group : List Request} (hvalid : Admissible db (.write group))
    (hw : Written db (effect groups).prepared group db') :
    Stands db' (group.foldl Store.request s) := by
  have hgroup := hvalid.2
  have hprepared := h.prepared
  rw [map_prepared hinv.transactions] at hgroup hprepared
  rw [foldl_request hgroup hprepared db.current.number]
  refine ⟨?_, ?_, ?_⟩
  · rw [hw.sequence, h.sequence]
  · rw [hw.transactions, map_prepared (hgroup.tracked hinv.positive hinv.transactions)]
  · intro cf f' hf'
    obtain ⟨f, family, hf, rfl, -, hentries⟩ := hw.families hf'
    dsimp only
    rw [← h.history hf, h.sequence]
    show f.tables ++ (f.imm.flatMap Sealed.entries ++ family.mem.entries) = _
    rw [hentries, updatesOf, List.append_assoc, List.append_assoc]

/-- Every step is matched by what its requests mean. -/
theorem stands_step {a : Action} (h : (∃ groups, Inv db groups) ∧ Stands db s)
    (hvalid : Admissible db a) (hstep : step db a = some db') :
    (∃ groups, Inv db' groups) ∧ Stands db' (s.next a) := by
  obtain ⟨⟨groups, hinv⟩, hs⟩ := h
  refine ⟨hinv.step hvalid hstep, ?_⟩
  cases a with
  | write group =>
      obtain ⟨db₁, hwrite, hw⟩ := hinv.exists_written hvalid
      cases hwrite.symm.trans hstep
      exact hs.written hinv hvalid hw
  | switchMemtable cf number => exact hs.switchMemtable hstep
  | flush cf n => exact hs.flush hstep
  | deleteLog number => exact hs.deleteLog hstep

end Steps

theorem stands_init (allow2pc : Bool) (families : List (UInt32 × ColumnFamily)) (number : ℕ) :
    Stands (.init allow2pc families number) .empty := by
  refine ⟨rfl, rfl, ?_⟩
  intro cf f hf
  obtain ⟨family, -, rfl⟩ := Option.map_eq_some_iff.mp hf
  rfl

theorem stands_run {allow2pc : Bool} {families : List (UInt32 × ColumnFamily)} {number : ℕ}
    (hnumber : 0 < number) {actions : List Action} {db : Database}
    (hvalid : Along step Admissible (.init allow2pc families number) actions)
    (hrun : run step (.init allow2pc families number) actions = some db) :
    (∃ groups, Inv db groups) ∧ Stands db (actions.foldl Store.next .empty) := by
  have hinit := And.intro (Exists.intro [] (inv_init allow2pc families hnumber))
    (stands_init allow2pc families number)
  refine run_simulates (R := fun db s => (∃ groups, Inv db groups) ∧ Stands db s) ?_ hinit
    hvalid hrun
  exact fun _ _ _ _ h ha hstep => stands_step h ha hstep

/-- The prepared transaction of the sample commits in a group with another write. After a
second flush neither its prepare section nor its commit is needed any more. -/
def committedActions : List Action :=
  sampleActions ++ [.write [.commit [7] [], .write [.put 0 [5] [6]]], .switchMemtable 0 9,
    .flush 0 0, .deleteLog 3, .deleteLog 5, .write [.write [.put 0 [8] [9]]]]

theorem along_committed :
    Along step Admissible (.init true sampleFamilies 3) committedActions := by
  apply along_sample.append
  intro db hrun
  cases hrun
  refine ⟨⟨by decide, ?_, by decide, by decide⟩, ?_⟩
  · exact List.forall_mem_cons.mpr
      ⟨⟨accepted_nil _, by decide, _, List.mem_singleton_self _, rfl⟩,
        List.forall_mem_singleton.mpr (accepted_put rfl 5 6)⟩
  intro db₁ h₁
  cases h₁
  refine ⟨trivial, ?_⟩
  intro db₂ h₂
  cases h₂
  refine ⟨?_, ?_⟩
  · intro db₃ h₃
    cases h₃
    decide
  intro db₃ h₃
  cases h₃
  refine ⟨trivial, ?_⟩
  intro db₄ h₄
  cases h₄
  refine ⟨trivial, ?_⟩
  intro db₅ h₅
  cases h₅
  exact ⟨admissible_put rfl (by decide) 8 9, fun _ _ => trivial⟩

end PowerLawRocksdb.RequestHistory
