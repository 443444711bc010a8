import PowerLawRocksdb.BatchEntries

/-!
# Iterating over a write batch

`WriteBatch::Iterate` reads the entries of a batch one after another and hands each of
them to a handler. A handler can fail, ask for the same entry once more, or stop the
loop. The statuses that a handler returns for markers of transactions are dropped. At
the end the number of updates is compared with the count in the header.

The methods of a handler act on a state. A method that fails an assertion has no
result. The loop is shown to agree with a run over the entries that the reader finds
in the batch, up to the place where it fails.
-/
namespace PowerLawRocksdb.BatchIterate
open Numerals WriteBatch Readers BatchEntries

/-- The codes that are told apart, with the text. -/
inductive Status where
  | ok
  | notFound
  | corruption (message : String)
  | notSupported (message : String)
  | invalidArgument (message : String)
  | memoryLimit
  | tryAgain (message : String)
deriving DecidableEq

/-- `WriteBatch::Handler` with its state. -/
structure Handler (σ : Type*) where
  putCF : UInt32 → Bytes → Bytes → σ → Option (Status × σ)
  deleteCF : UInt32 → Bytes → σ → Option (Status × σ)
  singleDeleteCF : UInt32 → Bytes → σ → Option (Status × σ)
  deleteRangeCF : UInt32 → Bytes → Bytes → σ → Option (Status × σ)
  mergeCF : UInt32 → Bytes → Bytes → σ → Option (Status × σ)
  putBlobIndexCF : UInt32 → Bytes → Bytes → σ → Option (Status × σ)
  logData : Bytes → σ → σ
  markBeginPrepare : Bool → σ → Option (Status × σ)
  markEndPrepare : Bytes → σ → Option (Status × σ)
  markCommit : Bytes → σ → Option (Status × σ)
  markRollback : Bytes → σ → Option (Status × σ)
  markNoop : Bool → σ → Option (Status × σ)
  continues : σ → Bool × σ
  writeAfterCommit : Bool
  writeBeforePrepare : Bool

/-- What the loop keeps beside the state: whether nothing has been seen since the last
end of a batch, and the number of updates. -/
structure Progress where
  emptyBatch : Bool
  found : ℕ
deriving DecidableEq

def Progress.start : Progress := ⟨true, 0⟩

section
variable {σ : Type*} (h : Handler σ)

/-- An update counts if the handler accepts it. -/
def counts (p : Progress) (r : Status × σ) : Status × Progress × σ :=
  (r.1, if r.1 = .ok then ⟨false, p.found + 1⟩ else p, r.2)

/-- The switch over the tag. Where two checks fail, the second one is reported. A blob
index does not end the search for the start of a batch. -/
def Handler.dispatch (e : Entry) (p : Progress) (s : σ) : Option (Status × Progress × σ) :=
  match e with
  | .put cf key value => (h.putCF cf key value s).map (counts p)
  | .delete cf key => (h.deleteCF cf key s).map (counts p)
  | .singleDelete cf key => (h.singleDeleteCF cf key s).map (counts p)
  | .deleteRange cf beginKey endKey => (h.deleteRangeCF cf beginKey endKey s).map (counts p)
  | .merge cf key value => (h.mergeCF cf key value s).map (counts p)
  | .putBlobIndex cf key value =>
      (h.putBlobIndexCF cf key value s).map fun r =>
        (r.1, if r.1 = .ok then { p with found := p.found + 1 } else p, r.2)
  | .logData blob => some (.ok, { p with emptyBatch := false }, h.logData blob s)
  | .beginPrepare =>
      (h.markBeginPrepare false s).map fun r =>
        (if h.writeBeforePrepare then
          .notSupported ("WriteCommitted txn tag when write_before_prepare_ is enabled (in " ++
            "WriteUnprepared mode). If it is not due to corruption, the WAL must be emptied " ++
            "before changing the WritePolicy.")
        else if !h.writeAfterCommit then
          .notSupported ("WriteCommitted txn tag when write_after_commit_ is disabled (in " ++
            "WritePrepared/WriteUnprepared mode). If it is not due to corruption, the WAL must " ++
            "be emptied before changing the WritePolicy.")
        else .ok, { p with emptyBatch := false }, r.2)
  | .beginPersistedPrepare =>
      (h.markBeginPrepare false s).map fun r =>
        (if h.writeAfterCommit then
          .notSupported ("WritePrepared/WriteUnprepared txn tag when write_after_commit_ is " ++
            "enabled (in default WriteCommitted mode). If it is not due to corruption, the WAL " ++
            "must be emptied before changing the WritePolicy.")
        else .ok, { p with emptyBatch := false }, r.2)
  | .beginUnprepare =>
      (h.markBeginPrepare true s).map fun r =>
        (if !h.writeBeforePrepare then
          .notSupported ("WriteUnprepared txn tag when write_before_prepare_ is disabled (in " ++
            "WriteCommitted/WritePrepared mode). If it is not due to corruption, the WAL must " ++
            "be emptied before changing the WritePolicy.")
        else if h.writeAfterCommit then
          .notSupported ("WriteUnprepared txn tag when write_after_commit_ is enabled (in " ++
            "default WriteCommitted mode). If it is not due to corruption, the WAL must be " ++
            "emptied before changing the WritePolicy.")
        else .ok, { p with emptyBatch := false }, r.2)
  | .endPrepare xid =>
      (h.markEndPrepare xid s).map fun r => (.ok, { p with emptyBatch := true }, r.2)
  | .commit xid => (h.markCommit xid s).map fun r => (.ok, { p with emptyBatch := true }, r.2)
  | .rollback xid => (h.markRollback xid s).map fun r => (.ok, { p with emptyBatch := true }, r.2)
  | .noop => (h.markNoop p.emptyBatch s).map fun r => (.ok, { p with emptyBatch := true }, r.2)

/-- A handler that asks to try again is given the same entry a second time. -/
def Handler.attempt (e : Entry) (p : Progress) (s : σ) : Option (Status × Progress × σ) := do
  let (status, p, s) ← h.dispatch e p s
  match status with
  | .tryAgain _ =>
      let (go, s) := h.continues s
      if !go then return (status, p, s)
      let (status, p, s) ← h.dispatch e p s
      match status with
      | .tryAgain _ =>
          let (go, s) := h.continues s
          if !go then return (status, p, s)
          return (.corruption ("two consecutive TryAgain in WriteBatch handler; this is " ++
            "either a software bug or data corruption."), p, s)
      | _ => return (status, p, s)
  | _ => return (status, p, s)

def finish (count found : ℕ) : Status :=
  if found = count then .ok else .corruption "WriteBatch has wrong count"

/-- The loop of `Iterate`. Each entry takes at least one byte, so that the length of the
input is enough fuel. -/
def Handler.loop (count : ℕ) : ℕ → Bytes → Progress → σ → Option (Status × σ)
  | _, [], p, s => some (finish count p.found, s)
  | 0, _ :: _, _, _ => none
  | fuel + 1, byte :: input, p, s => do
      let (go, s) := h.continues s
      if !go then return (.ok, s)
      match readRecordFromWriteBatch (byte :: input) with
      | .error message => return (.corruption message, s)
      | .ok (e, rest) =>
          let (status, p, s) ← h.attempt e p s
          if status = .ok then Handler.loop count fuel rest p s else return (status, s)

def Handler.iterate (rep : Bytes) (s : σ) : Option (Status × σ) :=
  if rep.length < headerSize then some (.corruption "malformed WriteBatch (too small)", s)
  else h.loop (count rep) (body rep).length (body rep) .start s

/-- The loop over entries that have been read. Behind the last one the reader may fail. -/
def Handler.run (count : ℕ) (failure : Option String) :
    List Entry → Progress → σ → Option (Status × σ)
  | [], p, s =>
      match failure with
      | none => some (finish count p.found, s)
      | some message =>
          let (go, s) := h.continues s
          some (if go then .corruption message else .ok, s)
  | e :: entries, p, s => do
      let (go, s) := h.continues s
      if !go then return (.ok, s)
      let (status, p, s) ← h.attempt e p s
      if status = .ok then Handler.run count failure entries p s else return (status, s)

end

/-- The bits of `ContentFlags` that the classifier sets. -/
def hasPut : UInt32 := 2
def hasDelete : UInt32 := 4
def hasSingleDelete : UInt32 := 8
def hasMerge : UInt32 := 16
def hasBeginPrepare : UInt32 := 32
def hasEndPrepare : UInt32 := 64
def hasCommit : UInt32 := 128
def hasRollback : UInt32 := 256
def hasDeleteRange : UInt32 := 512
def hasBlobIndex : UInt32 := 1024
def hasBeginUnprepare : UInt32 := 2048

/-- `BatchContentClassifier`, with what it leaves to the base class. -/
def classifier : Handler UInt32 where
  putCF _ _ _ flags := some (.ok, flags ||| hasPut)
  deleteCF _ _ flags := some (.ok, flags ||| hasDelete)
  singleDeleteCF _ _ flags := some (.ok, flags ||| hasSingleDelete)
  deleteRangeCF _ _ _ flags := some (.ok, flags ||| hasDeleteRange)
  mergeCF _ _ _ flags := some (.ok, flags ||| hasMerge)
  putBlobIndexCF _ _ _ flags := some (.ok, flags ||| hasBlobIndex)
  logData _ flags := flags
  markBeginPrepare unprepare flags :=
    some (.ok, flags ||| hasBeginPrepare ||| if unprepare then hasBeginUnprepare else 0)
  markEndPrepare _ flags := some (.ok, flags ||| hasEndPrepare)
  markCommit _ flags := some (.ok, flags ||| hasCommit)
  markRollback _ flags := some (.ok, flags ||| hasRollback)
  markNoop _ flags := some (.invalidArgument "MarkNoop() handler not defined.", flags)
  continues flags := (true, flags)
  writeAfterCommit := true
  writeBeforePrepare := false

/-- The entries in front of the first one that cannot be read. -/
def entriesOf (input : Bytes) : List Entry := (many readEntry input.length input).1

/-- Why the reader stops in front of `rest`. -/
def failureAt : Bytes → Option String
  | [] => none
  | byte :: rest =>
      match readRecordFromWriteBatch (byte :: rest) with
      | .error message => some message
      | .ok _ => none

def failureOf (input : Bytes) : Option String := failureAt (many readEntry input.length input).2

theorem readEntry_eq_some {input : Bytes} {r : Entry × Bytes} :
    readEntry input = some r ↔ readRecordFromWriteBatch input = .ok r := by
  unfold readEntry
  cases readRecordFromWriteBatch input with
  | error message => simp [Except.toOption]
  | ok r' => simp [Except.toOption]

/-- An entry has at least its tag. -/
theorem length_of_readEntry {input rest : Bytes} {e : Entry}
    (h : readEntry input = some (e, rest)) : rest.length < input.length := by
  obtain ⟨taken, rfl, hspells⟩ := local_readEntry h
  rw [List.length_append]
  cases taken with
  | nil =>
      have hempty := hspells []
      cases hempty
  | cons tag taken =>
      rw [List.length_cons]
      omega

section
variable {σ : Type*} (h : Handler σ)

/-- The loop reads exactly the entries that can be read. -/
theorem Handler.loop_eq (count : ℕ) {fuel : ℕ} {input : Bytes} (hfuel : input.length ≤ fuel)
    (p : Progress) (s : σ) :
    h.loop count fuel input p s =
      h.run count (failureAt (many readEntry fuel input).2) (many readEntry fuel input).1 p s := by
  induction fuel generalizing input p s with
  | zero =>
      have hempty := List.length_eq_zero_iff.mp (Nat.le_zero.mp hfuel)
      subst hempty
      rfl
  | succ fuel ih =>
      cases input with
      | nil => rfl
      | cons byte input =>
          cases hread : readRecordFromWriteBatch (byte :: input) with
          | error message =>
              have hnone : readEntry (byte :: input) = none := by
                rw [readEntry, hread]
                rfl
              rw [many_of_none hnone]
              simp only [Handler.loop, Handler.run, failureAt, hread]
              cases (h.continues s).1 <;> rfl
          | ok r =>
              have hsome := readEntry_eq_some.mpr hread
              have hshort := length_of_readEntry hsome
              have hmany : many readEntry (fuel + 1) (byte :: input) =
                  (r.1 :: (many readEntry fuel r.2).1, (many readEntry fuel r.2).2) := by
                rw [many, hsome]
                rfl
              have ih := fun p s => ih (Nat.lt_succ_iff.mp (hshort.trans_le hfuel)) p s
              rw [hmany]
              simp only [Handler.loop, Handler.run, hread, ih]

theorem Handler.iterate_eq {rep : Bytes} (hrep : headerSize ≤ rep.length) (s : σ) :
    h.iterate rep s =
      h.run (WriteBatch.count rep) (failureOf (body rep)) (entriesOf (body rep)) .start s := by
  rw [Handler.iterate, if_neg (Nat.not_lt_of_le hrep)]
  exact h.loop_eq _ (Nat.le_refl _) .start s

/-- The loop over entries that the handler accepts. -/
def Handler.feed : List Entry → Progress → σ → Option (Progress × σ)
  | [], p, s => some (p, s)
  | e :: entries, p, s =>
      (h.dispatch e p s).bind fun r =>
        if r.1 = .ok then Handler.feed entries r.2.1 r.2.2 else none

theorem Handler.feed_append (es fs : List Entry) (p : Progress) (s : σ) :
    h.feed (es ++ fs) p s = (h.feed es p s).bind fun r => h.feed fs r.1 r.2 := by
  induction es generalizing p s with
  | nil => rfl
  | cons e es ih =>
      rw [List.cons_append, Handler.feed, Handler.feed, Option.bind_assoc]
      congr 1
      funext r
      split_ifs
      · exact ih r.2.1 r.2.2
      · rfl

theorem Handler.feed_cons_of_ok {e : Entry} {p p' : Progress} {s s' : σ}
    (hok : h.dispatch e p s = some (.ok, p', s')) (entries : List Entry) :
    h.feed (e :: entries) p s = h.feed entries p' s' := by
  rw [Handler.feed, hok, Option.bind_some, if_pos rfl]

variable {h}

section Markers
variable {p : Progress} {s s' : σ} (status : Status)

-- The status that a method for a marker returns does not matter.
theorem Handler.dispatch_endPrepare {xid : Bytes}
    (hmark : h.markEndPrepare xid s = some (status, s')) :
    h.dispatch (.endPrepare xid) p s = some (.ok, { p with emptyBatch := true }, s') := by
  rw [Handler.dispatch, hmark]
  rfl

theorem Handler.dispatch_commit {xid : Bytes} (hmark : h.markCommit xid s = some (status, s')) :
    h.dispatch (.commit xid) p s = some (.ok, { p with emptyBatch := true }, s') := by
  rw [Handler.dispatch, hmark]
  rfl

theorem Handler.dispatch_rollback {xid : Bytes}
    (hmark : h.markRollback xid s = some (status, s')) :
    h.dispatch (.rollback xid) p s = some (.ok, { p with emptyBatch := true }, s') := by
  rw [Handler.dispatch, hmark]
  rfl

theorem Handler.dispatch_noop (hmark : h.markNoop p.emptyBatch s = some (status, s')) :
    h.dispatch .noop p s = some (.ok, { p with emptyBatch := true }, s') := by
  rw [Handler.dispatch, hmark]
  rfl

theorem Handler.dispatch_beginPrepare (hmark : h.markBeginPrepare false s = some (status, s'))
    (hbefore : h.writeBeforePrepare = false) (hafter : h.writeAfterCommit = true) :
    h.dispatch .beginPrepare p s = some (.ok, { p with emptyBatch := false }, s') := by
  rw [Handler.dispatch, hmark, hbefore, hafter]
  rfl

end Markers

/-- An entry that is accepted is not tried a second time. -/
theorem Handler.attempt_of_ok {e : Entry} {p p' : Progress} {s s' : σ}
    (hok : h.dispatch e p s = some (.ok, p', s')) : h.attempt e p s = some (.ok, p', s') := by
  rw [Handler.attempt, hok]
  rfl

/-- If all entries are accepted then only the count can be wrong. -/
theorem Handler.run_of_feed (hgo : ∀ s, h.continues s = (true, s)) {entries : List Entry}
    {p p' : Progress} {s s' : σ} (hfeed : h.feed entries p s = some (p', s')) (count : ℕ) :
    h.run count none entries p s = some (finish count p'.found, s') := by
  induction entries generalizing p s with
  | nil =>
      cases hfeed
      rfl
  | cons e entries ih =>
      obtain ⟨⟨status, q, t⟩, hdispatch, hrest⟩ := Option.bind_eq_some_iff.mp hfeed
      split_ifs at hrest with hstatus
      dsimp only at hstatus
      subst hstatus
      simp only [Handler.run, hgo, Handler.attempt_of_ok hdispatch, ← ih hrest]
      rfl

end

end PowerLawRocksdb.BatchIterate
