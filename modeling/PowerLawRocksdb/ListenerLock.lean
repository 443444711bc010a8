import PowerLawRocksdb.WalFeeding

/-!
# Listeners and the database mutex

`DeleteObsoleteFileImpl` reports the deletion of a table file to the listeners,
which must not be called by a thread that holds the database mutex.
`BackgroundCallPurge` gives the mutex up around the call. `PurgeObsoleteFiles` takes
it around the call. Throughout every run, a thread inside the call holds the mutex
exactly if it has a purge job of its own, so a listener is called under the mutex
exactly when a direct purge deletes a table file.
-/
namespace PowerLawRocksdb.ListenerLock
open StandardSort ObsoleteFiles WalFeeding

variable {less : CandidateFileInfo → CandidateFileInfo → Bool}
  {sort : StdSort CandidateFileInfo less} {o : DBOptions} {s t : DB} {thread : ℕ}

/-- No listener has been called by a thread that held the mutex. -/
def CalledUnlocked (s : DB) : Prop := ∀ n ∈ s.notified, n.2 = false

instance (s : DB) : Decidable (CalledUnlocked s) :=
  inferInstanceAs (Decidable (∀ n ∈ s.notified, n.2 = false))

/-- If the step ends the deletion of a table file, it belongs to no purge job. -/
def DeletesInBackground (s : DB) : Action → Prop
  | .delete thread _ => ∀ call ∈ s.calls thread, call.scanned = true →
      call.file.name.type = .tableFile → s.jobs thread = none
  | _ => True

instance (s : DB) : (a : Action) → Decidable (DeletesInBackground s a)
  | .delete thread _ => inferInstanceAs (Decidable (∀ call ∈ s.calls thread,
      call.scanned = true → call.file.name.type = .tableFile → s.jobs thread = none))
  | .createLog _ | .createFile _ | .findObsoleteFiles .. | .purgeObsoleteFile _ | .finishPurge _
  | .backgroundCallPurge _ | .scan _ => isTrue trivial

/-- A thread inside `DeleteObsoleteFileImpl` holds the mutex exactly if it has a job. -/
def HeldByJobs (s : DB) : Prop :=
  ∀ thread, s.calls thread ≠ none → (s.mutex = some thread ↔ s.jobs thread ≠ none)

theorem HeldByJobs.purgeObsoleteFile (h : HeldByJobs s)
    (hstep : s.purgeObsoleteFile o thread = some t) : HeldByJobs t := by
  obtain ⟨job, c, rest, hjob, hcall, -, hcase⟩ := purgeObsoleteFile_eq_some hstep
  have hjobs : ∀ i, Function.update s.jobs thread (some (job.advance c rest)) i ≠ none ↔
      s.jobs i ≠ none := by
    intro i
    rcases eq_or_ne i thread with rfl | hne
    · rw [Function.update_self, hjob]
      simp
    · rw [Function.update_of_ne hne]
  have hkept : ∀ i, s.calls i ≠ none → (s.mutex = some i ↔
      Function.update s.jobs thread (some (job.advance c rest)) i ≠ none) :=
    fun i hi => (h i hi).trans (hjobs i).symm
  rcases hcase with ⟨-, rfl⟩ | ⟨-, -, rfl⟩ | ⟨-, -, rfl⟩ | ⟨-, -, hfree, rfl⟩
  · exact hkept
  · exact hkept
  · exact hkept
  · intro i hi
    dsimp only at hi
    rcases eq_or_ne i thread with rfl | hne
    · exact iff_of_true rfl ((hjobs i).mpr (hjob ▸ Option.some_ne_none job))
    · -- another thread inside the call does not hold the free mutex
      rw [Function.update_of_ne hne] at hi
      have hother := (h i hi).not.mp (hfree ▸ (Option.some_ne_none i).symm)
      exact iff_of_false (fun heq => hne (Option.some.inj heq).symm) ((hjobs i).not.mpr hother)

theorem HeldByJobs.delete {ok : Bool} (h : HeldByJobs s) (hstep : s.delete thread ok = some t) :
    HeldByJobs t := by
  obtain ⟨file, hcall, rfl⟩ := delete_eq_some hstep
  intro i hi
  dsimp only at hi ⊢
  have hne : i ≠ thread := by
    rintro rfl
    exact hi (Function.update_self ..)
  rw [Function.update_of_ne hne] at hi
  have hiff := h i hi
  by_cases hmine : s.mutex = some thread
  · have hother : s.mutex ≠ some i := fun heq => hne (Option.some.inj (heq.symm.trans hmine))
    rw [if_pos hmine]
    exact iff_of_false (Option.some_ne_none i).symm (hiff.not.mp hother)
  · rw [if_neg hmine]
    exact hiff

theorem HeldByJobs.step {a : Action} (h : HeldByJobs s) (hstep : s.step o sort a = some t) :
    HeldByJobs t := by
  cases a with
  | createLog number =>
      obtain ⟨-, files, recycle, -, -, rfl⟩ := createLog_eq_some hstep
      exact h
  | createFile file =>
      obtain ⟨-, rfl⟩ := createFile_eq_some hstep
      exact h
  | findObsoleteFiles i v scheduleOnly =>
      obtain ⟨-, -, hcall, grabbed, scan, alive, recycle, del, -, -, rfl⟩ :=
        findObsoleteFiles_eq_some hstep
      intro j hj
      have hne : j ≠ i := fun heq => hj (heq ▸ hcall)
      dsimp only
      rw [Function.update_of_ne hne]
      exact h j hj
  | purgeObsoleteFile i => exact h.purgeObsoleteFile hstep
  | finishPurge i =>
      obtain ⟨job, -, hcall, -, grabbed, rfl⟩ := finishPurge_eq_some hstep
      intro j hj
      have hne : j ≠ i := fun heq => hj (heq ▸ hcall)
      dsimp only
      rw [Function.update_of_ne hne]
      exact h j hj
  | backgroundCallPurge i =>
      obtain ⟨hfree, file, queue, -, hjob, -, rfl⟩ := backgroundCallPurge_eq_some hstep
      intro j hj
      dsimp only at hj ⊢
      rcases eq_or_ne j i with rfl | hne
      · exact iff_of_false (hfree ▸ (Option.some_ne_none j).symm) (not_not.mpr hjob)
      · rw [Function.update_of_ne hne] at hj
        exact h j hj
  | scan i =>
      obtain ⟨file, hcall, rfl⟩ := scan_eq_some hstep
      intro j hj
      rcases eq_or_ne j i with rfl | hne
      · exact h j (hcall ▸ Option.some_ne_none _)
      · dsimp only at hj
        rw [Function.update_of_ne hne] at hj
        exact h j hj
  | delete i ok => exact h.delete hstep

theorem step_notified {a : Action} (hstep : s.step o sort a = some t)
    (hne : ∀ thread ok, a ≠ .delete thread ok) : t.notified = s.notified := by
  cases a with
  | createLog number =>
      obtain ⟨-, files, recycle, -, -, rfl⟩ := createLog_eq_some hstep
      rfl
  | createFile file =>
      obtain ⟨-, rfl⟩ := createFile_eq_some hstep
      rfl
  | findObsoleteFiles i v scheduleOnly =>
      obtain ⟨-, -, -, grabbed, scan, alive, recycle, del, -, -, rfl⟩ :=
        findObsoleteFiles_eq_some hstep
      rfl
  | purgeObsoleteFile i =>
      obtain ⟨job, c, rest, -, -, -, hcase⟩ := purgeObsoleteFile_eq_some hstep
      rcases hcase with ⟨-, rfl⟩ | ⟨-, -, rfl⟩ | ⟨-, -, rfl⟩ | ⟨-, -, -, rfl⟩
      · rfl
      · rfl
      · rfl
      · rfl
  | finishPurge i =>
      obtain ⟨job, -, -, -, grabbed, rfl⟩ := finishPurge_eq_some hstep
      rfl
  | backgroundCallPurge i =>
      obtain ⟨-, file, queue, -, -, -, rfl⟩ := backgroundCallPurge_eq_some hstep
      rfl
  | scan i =>
      obtain ⟨file, -, rfl⟩ := scan_eq_some hstep
      rfl
  | delete i ok => exact absurd rfl (hne i ok)

theorem delete_calledUnlocked_iff {ok : Bool} (h : HeldByJobs s) (hs : CalledUnlocked s)
    (hstep : s.delete thread ok = some t) :
    CalledUnlocked t ↔ DeletesInBackground s (.delete thread ok) := by
  obtain ⟨file, hcall, rfl⟩ := delete_eq_some hstep
  have hheld := h thread (hcall ▸ Option.some_ne_none _)
  unfold CalledUnlocked DeletesInBackground
  dsimp only
  rw [hcall]
  split_ifs with htable
  · rw [List.forall_mem_append, List.forall_mem_singleton, decide_eq_false_iff_not, hheld, not_not]
    constructor
    · intro hjob call _ _ _
      exact hjob.2
    · intro hjob
      exact ⟨hs, hjob _ rfl rfl htable⟩
  · refine iff_of_true hs ?_
    rintro call ⟨⟩ _ hfile
    exact absurd hfile htable

theorem step_calledUnlocked_iff {a : Action} (h : HeldByJobs s) (hs : CalledUnlocked s)
    (hstep : s.step o sort a = some t) : CalledUnlocked t ↔ DeletesInBackground s a := by
  cases a with
  | delete thread ok => exact delete_calledUnlocked_iff h hs hstep
  | _ =>
      refine iff_of_true ?_ trivial
      unfold CalledUnlocked
      rw [step_notified hstep fun thread ok he => by cases he]
      exact hs

/-- Over any run of any number of purge jobs and background purges, no listener is called
under the mutex exactly when table files are only deleted in the background. -/
theorem calledUnlocked_throughout_iff {acts : List Action} (h : Opened o s)
    (hnotified : s.notified = []) (hrun : Transitions.run (DB.step o sort) s acts = some t) :
    Transitions.Throughout (DB.step o sort) CalledUnlocked s acts ↔
      Transitions.Along (DB.step o sort) DeletesInBackground s acts := by
  have hheld : HeldByJobs s := fun thread hcall => absurd (h.calls thread) hcall
  have hnone : CalledUnlocked s := by
    unfold CalledUnlocked
    rw [hnotified]
    exact List.forall_mem_nil _
  exact Transitions.throughout_iff_along (I := HeldByJobs) (fun _ _ _ hi hstep => hi.step hstep)
    (fun _ _ _ hi hs hstep => step_calledUnlocked_iff hi hs hstep) hheld hnone hrun

def tableGivenUp : Versions := ⟨false, false, 6, 1, 0, 1, 0, [], [(5, 0)], []⟩

/-- Thread 0 schedules the table file, and thread 3 deletes it in the background. -/
theorem calledUnlocked_throughout_scheduled :
    Transitions.Throughout (DB.step plainOptions newestFirst) CalledUnlocked
      (withLogs plainOptions [1] 6)
      [.createFile ⟨0, .numbered .tableFile 5⟩, .findObsoleteFiles 0 tableGivenUp true,
        .purgeObsoleteFile 0, .finishPurge 0, .backgroundCallPurge 3, .scan 3, .delete 3 true] := by
  obtain ⟨t, ht⟩ : ∃ t, Transitions.run (DB.step plainOptions newestFirst)
      (withLogs plainOptions [1] 6)
      [.createFile ⟨0, .numbered .tableFile 5⟩, .findObsoleteFiles 0 tableGivenUp true,
        .purgeObsoleteFile 0, .finishPurge 0, .backgroundCallPurge 3, .scan 3, .delete 3 true] =
      some t := ⟨_, rfl⟩
  refine (calledUnlocked_throughout_iff (opened_withLogs (by decide) (by decide)) rfl ht).mpr ?_
  decide

/-- Thread 0 deletes the table file itself, and calls the listeners under the mutex. -/
theorem called_under_mutex :
    ∃ t, Transitions.run (DB.step plainOptions newestFirst) (withLogs plainOptions [1] 6)
        [.createFile ⟨0, .numbered .tableFile 5⟩, .findObsoleteFiles 0 tableGivenUp false,
          .purgeObsoleteFile 0, .scan 0, .delete 0 true] = some t ∧ t.notified = [(5, true)] ∧
      ¬ CalledUnlocked t :=
  ⟨_, rfl, rfl, by decide⟩

end PowerLawRocksdb.ListenerLock
