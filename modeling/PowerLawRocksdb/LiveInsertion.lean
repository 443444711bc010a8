import PowerLawRocksdb.RecordReplay

/-!
# Inserting a write group

While the database is open, a write group is inserted writer by writer. The batch of a
transaction that commits holds the prepared updates as well. They are not logged again,
and the markers around them have no effect here.
-/
namespace PowerLawRocksdb.LiveInsertion
open Numerals WriteBatch BatchEntries BatchIterate BatchContents MemTableInserter WriteCommitted
open RecordReplay

/-- An entry that can be inserted while the database is open. A commit marker needs the
log of the prepare section. -/
def Insertable (ref : ℕ) : Entry → Prop
  | .beginPersistedPrepare | .beginUnprepare => False
  | .commit _ => ref ≠ 0
  | _ => True

structure Inserts (families : UInt32 → Option Bool) (w : Writer) (entries : List Entry) :
    Prop where
  callback : w.callbackFailed = false
  skipped : w.disableMemtable = true → updateCount entries = 0
  batch : w.disableMemtable = false → ∃ all, Represents w.batch all ∧ updateCount all < 2 ^ 31 ∧
    (∀ e ∈ all, Insertable w.logRef e ∧ Supported families e) ∧
    all.filter Entry.counted = entries.filter Entry.counted

section
variable {o : Options} (ho : Policy o) (hlive : ¬ o.recovering)
include ho hlive

theorem inert_of_insertable {ref : ℕ} {e : Entry} (he : Insertable ref e)
    (hpayload : payload e = none) :
    Inert o (markCommit o (handler o fun _ _ => none).iterate) ref e := by
  intro i p hidle href
  cases e with
  | logData blob =>
      exact inert_of_plain ho _ (e := .logData blob) trivial rfl ref i p hidle href
  | noop => exact inert_of_plain ho _ (e := .noop) trivial rfl ref i p hidle href
  | beginPrepare =>
      refine ⟨_, Handler.dispatch_beginPrepare .ok ?_ ?_ (writeAfterCommit_eq ho)⟩
      · show markBeginPrepare o false i = some (.ok, i)
        rw [markBeginPrepare, if_neg (by rw [hidle]; decide), if_neg hlive]
      · show (!o.batchPerTxn) = false
        rw [ho.batchPerTxn]
        rfl
  | endPrepare xid =>
      refine ⟨_, Handler.dispatch_endPrepare .ok ?_⟩
      show markEndPrepare o xid i = some (.ok, i)
      rw [markEndPrepare, hidle]
      dsimp only
      rw [if_neg hlive, maybeAdvanceSeq_true ho]
  | commit xid =>
      refine ⟨_, Handler.dispatch_commit .ok ?_⟩
      show markCommit o _ xid i = some (.ok, i)
      rw [markCommit, if_neg hlive, if_neg (fun h => he (href ▸ h.2)), maybeAdvanceSeq_true ho]
  | rollback xid =>
      refine ⟨_, Handler.dispatch_rollback .ok ?_⟩
      show markRollback o xid i = some (.ok, i)
      rw [markRollback, if_neg hlive, maybeAdvanceSeq_true ho]
  | put _ _ _ | delete _ _ | singleDelete _ _ | deleteRange _ _ _ | merge _ _ _
  | putBlobIndex _ _ _ => cases hpayload
  | beginPersistedPrepare | beginUnprepare => exact he.elim

theorem iterate_inserts {i : Inserter} (hidle : i.rebuildingTrx = none)
    (holder : Older i.columnFamilies i.sequence) {w : Writer} {entries : List Entry}
    (hw : Inserts (schema i.columnFamilies) w entries)
    (hnumbers : Numberable i.sequence entries) (hmem : w.disableMemtable = false) :
    (inserter o).iterate (setSequence w.batch i.sequence) { i with logNumberRef := w.logRef } =
      some (.ok, inserted o { i with logNumberRef := w.logRef }
        (additions i.sequence entries)) := by
  obtain ⟨all, hrep, hcount, hall, hsame⟩ := hw.batch hmem
  have hnumbers : Numberable i.sequence all := by
    rwa [Numberable, ← updateCount_filter, hsame, updateCount_filter]
  obtain ⟨p, hfeed⟩ := feed_inserted ho (markCommit o (handler o fun _ _ => none).iterate)
    (i := { i with logNumberRef := w.logRef }) hidle hnumbers holder (fun e he => (hall e he).2)
    (fun e he hpayload => inert_of_insertable ho hlive (hall e he).1 hpayload) .start
  have hadditions : additions i.sequence all = additions i.sequence entries := by
    rw [← additions_filter, hsame, additions_filter]
  rw [← hadditions]
  exact (hrep.setSequence _).iterate_of_feed (hcount.trans (by decide)) (fun _ => rfl) hfeed

/-- A group is inserted as the entries of its writers, one after another. -/
theorem insertIntoGroup_inserts {group : List Writer} {parts : List (List Entry)} {i : Inserter}
    (hgroup : List.Forall₂ (Inserts (schema i.columnFamilies)) group parts)
    (hidle : i.rebuildingTrx = none) (hnumbers : Numberable i.sequence parts.flatten)
    (holder : Older i.columnFamilies i.sequence) :
    ∃ i', insertIntoGroup o group i = some (.ok, i') ∧
      i'.sequence = i.sequence + updateCount parts.flatten ∧
      Received o (additions i.sequence parts.flatten) i.columnFamilies i'.columnFamilies := by
  generalize hfamilies : schema i.columnFamilies = families at hgroup
  induction hgroup generalizing i with
  | nil => exact ⟨i, rfl, rfl, Received.refl o _⟩
  | @cons w entries group parts hw _ ih =>
      obtain ⟨hfirst, hnumbers⟩ := hnumbers.of_append
      rw [insertIntoGroup, if_neg (by rw [hw.callback]; decide), List.flatten_cons,
        Writer.shouldWriteToMemtable, hw.callback]
      cases hmem : w.disableMemtable with
      | true =>
          -- the writer is logged only
          have hnone : updateCount entries = 0 := hw.skipped hmem
          have hempty : additions i.sequence entries = [] := by
            rw [← List.length_eq_zero_iff, length_additions, hnone]
          rw [if_pos (show (!(!false && !true)) = true from rfl), maybeAdvanceSeq_true ho,
            updateCount_append, additions_append, hnone,
            hempty, Nat.zero_add]
          rw [hnone] at hnumbers
          exact ih hidle hnumbers holder hfamilies
      | false =>
          have hiterate := iterate_inserts ho hlive hidle holder (hfamilies ▸ hw) hfirst hmem
          have hreceived := received_insertAll (o := o) w.logRef i.columnFamilies
            (additions i.sequence entries)
          have hsequence : (inserted o { i with logNumberRef := w.logRef }
              (additions i.sequence entries)).sequence = i.sequence + updateCount entries := by
            rw [inserted, length_additions]
          obtain ⟨i', hrest, hnext, hreceived'⟩ :=
            ih (i := inserted o { i with logNumberRef := w.logRef } (additions i.sequence entries))
              hidle (hsequence.symm ▸ hnumbers) (hsequence.symm ▸ hreceived.older holder)
              (hreceived.schema_eq.trans hfamilies)
          refine ⟨i', ?_, ?_, ?_⟩
          · rw [if_neg (show ¬ (!(!false && !false)) = true by decide), hiterate]
            exact hrest
          · rw [hnext, hsequence, updateCount_append, Nat.add_assoc]
          · rw [additions_append, ← hsequence]
            exact hreceived.trans hreceived'

end

end PowerLawRocksdb.LiveInsertion
