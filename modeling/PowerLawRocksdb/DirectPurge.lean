import PowerLawRocksdb.WalFeeding

/-!
# Direct purges count each log exactly once

Without archiving and recycling, with every job deleting its files itself and every
deletion succeeding, each log is fed to the tracker at most once, and a log that a
job has taken off `alive_log_files_` has been fed when the job ends. The same log may
be a candidate of several jobs, and of one job under two names. What decides is that
the thread which reads a log holds the mutex until the file is gone.
-/
namespace PowerLawRocksdb.DirectPurge
open StandardSort ObsoleteFiles WalFeeding

variable {less : CandidateFileInfo → CandidateFileInfo → Bool}
  {sort : StdSort CandidateFileInfo less} {o : DBOptions} {s t : DB}

/-- Logs are neither archived nor recycled. -/
def Plain (o : DBOptions) : Prop :=
  o.walTtlSeconds = 0 ∧ o.walSizeLimitMb = 0 ∧ o.recycleLogFileNum = 0

theorem Plain.archives (h : Plain o) : o.archives = false := by
  unfold DBOptions.archives
  rw [h.1, h.2.1]
  rfl

/-- The job deletes its files itself, there is no previous log, and deletions succeed. -/
def IsDirect : Action → Prop
  | .findObsoleteFiles _ v scheduleOnly => v.prevLogNumber = 0 ∧ scheduleOnly = false
  | .delete _ ok => ok = true
  | _ => True

def Kept (o : DBOptions) (s : DB) (n : ℕ) : Prop := o.logFileName n ∈ s.files ∨ n ∈ s.fed

/-- The job has still to feed the log, is about to do so, or need not do so. -/
def Due (o : DBOptions) (s : DB) (thread : ℕ) (job : Job) (n : ℕ) : Prop :=
  n ∈ s.fed ∨ (∃ c ∈ job.candidates, c.name = .numbered .logFile n ∧ job.keep c = false) ∨
    s.calls thread = some ⟨o.logFileName n, false⟩

structure Direct (o : DBOptions) (s : DB) : Prop where
  next : 0 < s.nextFileNumber
  recycle : s.logRecycleFiles = []
  queue : s.purgeQueue = []
  undeleted : s.undeleted = []
  holder : ∀ thread call, s.calls thread = some call → s.mutex = some thread
  alive : ∀ n ∈ s.aliveLogFiles, 0 < n ∧ Kept o s n
  direct : ∀ thread job, s.jobs thread = some job → job.scheduleOnly = false
  taken : ∀ thread job, s.jobs thread = some job →
    ∀ n ∈ job.context.logDeleteFiles, Kept o s n ∧ Due o s thread job n

theorem direct_opened (h : Opened o s) : Direct o s where
  next := h.next
  recycle := h.recycle
  queue := h.queue
  undeleted := h.undeleted
  holder thread call hcall := by simp [h.calls thread] at hcall
  alive n hn := ⟨(h.alive n hn).1, Or.inl (h.alive n hn).2⟩
  direct thread job hjob := by simp [h.jobs thread] at hjob
  taken thread job hjob := by simp [h.jobs thread] at hjob

theorem Direct.eq_of_calls (h : Direct o s) {i j : ℕ} {call call' : Call}
    (hi : s.calls i = some call) (hj : s.calls j = some call') : i = j :=
  Option.some.inj ((h.holder i call hi).symm.trans (h.holder j call' hj))

theorem Direct.feedsAlone (h : Direct o s) (a : Action) : FeedsAlone o s a := by
  cases a with
  | scan thread =>
      intro n hcall hfile
      constructor
      · rw [h.undeleted]
        exact List.not_mem_nil
      · intro other hother
        cases h.eq_of_calls hcall hother
        rw [hcall] at hother
        cases hother
  | _ => trivial

theorem target_of_name {c : CandidateFileInfo} {n : ℕ} (h : c.name = .numbered .logFile n) :
    c.target o = o.logFileName n := by
  unfold CandidateFileInfo.target
  rw [h]
  rfl

theorem keep_eq_false {job : Job} {c : CandidateFileInfo} {n : ℕ}
    (hname : c.name = .numbered .logFile n) (hlt : n < job.context.logNumber)
    (hprev : n ≠ job.context.prevLogNumber) (hrecycle : n ∉ job.context.logRecycleFiles) :
    job.keep c = false := by
  unfold Job.keep
  rw [hname]
  apply decide_eq_false
  rintro (h | h | h)
  · exact absurd h (Nat.not_le_of_lt hlt)
  · exact hprev h
  · exact hrecycle h

theorem fed_subset {a : Action} (hstep : s.step o sort a = some t) : s.fed ⊆ t.fed := by
  cases a with
  | scan thread =>
      obtain ⟨file, -, rfl⟩ := scan_eq_some hstep
      dsimp only
      split_ifs
      · exact List.subset_append_left ..
      · exact List.Subset.refl _
  | _ =>
      rw [(step_frame hstep).fed fun thread he => by cases he]
      exact List.Subset.refl _

theorem Kept.step (hp : Plain o) (hd : Direct o s) (ha : Accounted o s) {a : Action}
    (hstep : s.step o sort a = some t) {n : ℕ} (h : Kept o s n) : Kept o t n := by
  rcases h with h | h
  · rcases (step_frame hstep).files hp.archives hd.recycle _ h with hfile | ⟨thread, hcall⟩
    · exact Or.inl hfile
    · exact Or.inr (fed_subset hstep (ha.scanned thread n hcall h))
  · exact Or.inr (fed_subset hstep h)

/-- Between two states with the same job, only its call has to be followed. -/
theorem Due.mono {thread : ℕ} {job : Job} {n : ℕ} (h : Due o s thread job n)
    (hfed : s.fed ⊆ t.fed)
    (hcall : s.calls thread = some ⟨o.logFileName n, false⟩ → Due o t thread job n) :
    Due o t thread job n := by
  rcases h with h | h | h
  · exact Or.inl (hfed h)
  · exact Or.inr (Or.inl h)
  · exact hcall h

/-- A candidate that the job keeps is none of the logs that are due. -/
theorem Due.advance {thread : ℕ} {job : Job} {n : ℕ} {c : CandidateFileInfo}
    {rest : List CandidateFileInfo} (h : Due o s thread job n) (hidle : s.calls thread = none)
    (hcandidates : job.candidates = c :: rest) :
    n ∈ s.fed ∨ (∃ d ∈ rest, d.name = .numbered .logFile n ∧ job.keep d = false) ∨
      (c.target o = o.logFileName n ∧ job.keep c = false) := by
  rcases h with h | ⟨d, hd, hname, hkeep⟩ | h
  · exact Or.inl h
  · rw [hcandidates] at hd
    rcases List.mem_cons.mp hd with rfl | hd
    · exact Or.inr (Or.inr ⟨target_of_name hname, hkeep⟩)
    · exact Or.inr (Or.inl ⟨d, hd, hname, hkeep⟩)
  · rw [hidle] at h
    cases h

theorem Direct.findObsoleteFiles (hd : Direct o s) (hp : Plain o) {thread : ℕ} {v : Versions}
    (hprev : v.prevLogNumber = 0) (hstep : s.findObsoleteFiles o sort thread v false = some t) :
    Direct o t := by
  obtain ⟨-, -, -, grabbed, scan, alive, recycle, del, -, hlogs, rfl⟩ :=
    findObsoleteFiles_eq_some hstep
  obtain ⟨halive, hdel, hzero⟩ := findLogs_spec hlogs
  have hrecycle : recycle = [] := (hzero hp.2.2).1.trans hd.recycle
  refine ⟨hd.next, hrecycle, hd.queue, hd.undeleted, hd.holder,
    fun n hn => hd.alive n (halive n hn), forall_update hd.direct ?_, forall_update hd.taken ?_⟩
  · intro job he
    cases he
    rfl
  · intro job he n hn
    cases he
    replace hn : n ∈ del := hn
    obtain ⟨hmem, hlt⟩ := hdel n hn
    obtain ⟨hpos, hkept⟩ := hd.alive n hmem
    refine ⟨hkept, Or.inr (Or.inl ⟨⟨true, .numbered .logFile n, o.walDir⟩,
      mem_candidates.mpr ?_, rfl, keep_eq_false rfl hlt ?_ ?_⟩)⟩
    · unfold JobContext.candidateFiles
      simp [hn, hpos]
    · exact fun h0 => hpos.ne' (h0.trans hprev)
    · change n ∉ recycle
      rw [hrecycle]
      exact List.not_mem_nil

theorem Direct.purgeObsoleteFile (hd : Direct o s) (hp : Plain o) {thread : ℕ}
    (hstep : s.purgeObsoleteFile o thread = some t) : Direct o t := by
  obtain ⟨job, c, rest, hjob, hidle, hcandidates, hcase⟩ := purgeObsoleteFile_eq_some hstep
  have hadvance := fun n hn => (hd.taken thread job hjob n hn).2.advance hidle hcandidates
  have hdirect : ∀ i job', Function.update s.jobs thread (some (job.advance c rest)) i = some job' →
      job'.scheduleOnly = false := by
    apply forall_update hd.direct
    intro job' he
    cases he
    exact hd.direct thread job hjob
  rcases hcase with ⟨hkeep, rfl⟩ | ⟨-, harchive, -⟩ | ⟨-, hschedule, -⟩ | ⟨-, -, hmutex, rfl⟩
  · refine ⟨hd.next, hd.recycle, hd.queue, hd.undeleted, hd.holder, hd.alive, hdirect,
      forall_update hd.taken ?_⟩
    intro job' he n hn
    cases he
    refine ⟨(hd.taken thread job hjob n hn).1, ?_⟩
    rcases hadvance n hn with h | h | ⟨-, hkeep'⟩
    · exact Or.inl h
    · exact Or.inr (Or.inl h)
    · rw [hkeep] at hkeep'
      cases hkeep'
  · rw [hp.archives] at harchive
    cases harchive
  · rw [hd.direct thread job hjob] at hschedule
    cases hschedule
  · refine ⟨hd.next, hd.recycle, hd.queue, hd.undeleted, ?_, hd.alive, hdirect,
      forall_update (fun i job' hi n hn => ?_) ?_⟩
    · apply forall_update
      · intro i call hcall
        rw [hd.holder i call hcall] at hmutex
        cases hmutex
      · exact fun _ _ => rfl
    · obtain ⟨hkept, hdue⟩ := hd.taken i job' hi n hn
      refine ⟨hkept, hdue.mono (List.Subset.refl _) fun hcall => ?_⟩
      have hne : i ≠ thread := by
        intro heq
        rw [heq, hidle] at hcall
        cases hcall
      exact Or.inr (Or.inr ((Function.update_of_ne hne ..).trans hcall))
    · intro job' he n hn
      cases he
      refine ⟨(hd.taken thread job hjob n hn).1, ?_⟩
      rcases hadvance n hn with h | h | ⟨htarget, -⟩
      · exact Or.inl h
      · exact Or.inr (Or.inl h)
      · right; right
        rw [← htarget]
        exact Function.update_self ..

theorem Direct.scan (hd : Direct o s) {thread : ℕ} (hstep : s.scan o thread = some t)
    (hfed : s.fed ⊆ t.fed) (hkept : ∀ n, Kept o s n → Kept o t n) : Direct o t := by
  obtain ⟨file, hcall, rfl⟩ := scan_eq_some hstep
  refine ⟨hd.next, hd.recycle, hd.queue, hd.undeleted, forall_update hd.holder ?_,
    fun n hn => (hd.alive n hn).imp_right (hkept n), hd.direct, fun i job hi n hn => ?_⟩
  · exact fun _ _ => hd.holder thread _ hcall
  · obtain ⟨hk, hdue⟩ := hd.taken i job hi n hn
    refine ⟨hkept n hk, hdue.mono hfed fun hown => ?_⟩
    rcases eq_or_ne i thread with rfl | hne
    · -- The log is read now, unless it has been read and deleted before.
      rw [hcall] at hown
      cases hown
      left
      rcases hk with hfile | hold
      · dsimp only
        rw [if_pos ⟨rfl, hfile⟩]
        exact List.mem_append_right _ (List.mem_singleton_self n)
      · exact hfed hold
    · exact Or.inr (Or.inr ((Function.update_of_ne hne ..).trans hown))

theorem Direct.delete (hd : Direct o s) {thread : ℕ} (hstep : s.delete thread true = some t)
    (hkept : ∀ n, Kept o s n → Kept o t n) : Direct o t := by
  obtain ⟨file, hcall, rfl⟩ := delete_eq_some hstep
  have hother : ∀ i call, Function.update s.calls thread none i ≠ some call := by
    intro i call hi
    rcases eq_or_ne i thread with rfl | hne
    · rw [Function.update_self] at hi
      cases hi
    · rw [Function.update_of_ne hne] at hi
      exact hne (hd.eq_of_calls hi hcall)
  refine ⟨hd.next, hd.recycle, hd.queue, ?_, fun i call hi => absurd hi (hother i call),
    fun n hn => (hd.alive n hn).imp_right (hkept n), hd.direct, fun i job hi n hn => ?_⟩
  · dsimp only
    rw [if_neg (fun hfail => hfail.2.2 rfl)]
    exact hd.undeleted
  · obtain ⟨hk, hdue⟩ := hd.taken i job hi n hn
    refine ⟨hkept n hk, hdue.mono (List.Subset.refl _) fun hown => ?_⟩
    cases hd.eq_of_calls hown hcall
    rw [hcall] at hown
    cases hown

theorem Direct.step (hd : Direct o s) (hp : Plain o) (ha : Accounted o s) {a : Action}
    (hdirect : IsDirect a) (hstep : s.step o sort a = some t) : Direct o t := by
  have hkept : ∀ n, Kept o s n → Kept o t n := fun n => Kept.step hp hd ha hstep
  have htaken : ∀ thread job, s.jobs thread = some job → t.calls thread = s.calls thread →
      ∀ n ∈ job.context.logDeleteFiles, Kept o t n ∧ Due o t thread job n := by
    intro thread job hjob hcalls n hn
    obtain ⟨hk, hdue⟩ := hd.taken thread job hjob n hn
    exact ⟨hkept n hk, hdue.mono (fed_subset hstep) fun h => Or.inr (Or.inr (hcalls.trans h))⟩
  cases a with
  | createLog number =>
      obtain ⟨hnext, files, recycle, -, hsame, rfl⟩ := createLog_eq_some hstep
      refine ⟨Nat.succ_pos number, (hsame hd.recycle).2, hd.queue, hd.undeleted, hd.holder,
        fun n hn => ?_, hd.direct, fun thread job hjob => htaken thread job hjob rfl⟩
      rcases List.mem_append.mp hn with hn | hn
      · exact (hd.alive n hn).imp_right (hkept n)
      · rw [List.mem_singleton.mp hn]
        exact ⟨hd.next.trans_le hnext, Or.inl (List.mem_append_right _ (List.mem_singleton_self _))⟩
  | createFile file =>
      obtain ⟨-, rfl⟩ := createFile_eq_some hstep
      exact ⟨hd.next, hd.recycle, hd.queue, hd.undeleted, hd.holder,
        fun n hn => (hd.alive n hn).imp_right (hkept n), hd.direct,
        fun thread job hjob => htaken thread job hjob rfl⟩
  | findObsoleteFiles thread v scheduleOnly =>
      obtain ⟨hprev, rfl⟩ := hdirect
      exact hd.findObsoleteFiles hp hprev hstep
  | purgeObsoleteFile thread => exact hd.purgeObsoleteFile hp hstep
  | finishPurge thread =>
      obtain ⟨job, -, -, -, grabbed, rfl⟩ := finishPurge_eq_some hstep
      exact ⟨hd.next, hd.recycle, hd.queue, hd.undeleted, hd.holder, hd.alive,
        forall_update hd.direct (fun _ he => by cases he),
        forall_update hd.taken (fun _ he => by cases he)⟩
  | backgroundCallPurge thread =>
      obtain ⟨-, file, queue, hqueue, -⟩ := backgroundCallPurge_eq_some hstep
      rw [hd.queue] at hqueue
      cases hqueue
  | scan thread => exact hd.scan hstep (fed_subset hstep) hkept
  | delete thread ok =>
      cases hdirect
      exact hd.delete hstep hkept

/-- A log that the step takes off `alive_log_files_` is left to a job, a job keeps its
logs until it ends, and a job that ends has seen all of its logs fed. -/
def Settles (o : DBOptions) (sort : StdSort CandidateFileInfo less) (s : DB) (a : Action) : Prop :=
  (∀ t, s.step o sort a = some t → ∀ n ∈ s.aliveLogFiles, n ∉ t.aliveLogFiles →
    ∃ thread job, t.jobs thread = some job ∧ n ∈ job.context.logDeleteFiles) ∧
  (∀ t, s.step o sort a = some t → ∀ thread job, s.jobs thread = some job →
    a = .finishPurge thread ∨ ∃ job', t.jobs thread = some job' ∧ job'.context = job.context) ∧
  ∀ thread job, a = .finishPurge thread → s.jobs thread = some job →
    s.step o sort a ≠ none → ∀ n ∈ job.context.logDeleteFiles, n ∈ s.fed

theorem step_takes (hp : Plain o) {a : Action} (hstep : s.step o sort a = some t) {n : ℕ}
    (hn : n ∈ s.aliveLogFiles) (hnot : n ∉ t.aliveLogFiles) :
    ∃ thread job, t.jobs thread = some job ∧ n ∈ job.context.logDeleteFiles := by
  cases a with
  | findObsoleteFiles thread v scheduleOnly =>
      obtain ⟨-, -, -, grabbed, scan, alive, recycle, del, -, hlogs, rfl⟩ :=
        findObsoleteFiles_eq_some hstep
      obtain ⟨-, -, hzero⟩ := findLogs_spec hlogs
      rw [(hzero hp.2.2).2] at hn
      exact ⟨thread, _, Function.update_self .., (List.mem_append.mp hn).resolve_right hnot⟩
  | _ =>
      have hkeep := (step_frame hstep).alive fun thread v scheduleOnly he => by cases he
      exact absurd (hkeep hn) hnot

/-- When a job can end, nothing of it is due. -/
theorem Direct.fed_of_finish (hd : Direct o s) {thread : ℕ} {job : Job}
    (hjob : s.jobs thread = some job) (hstep : s.finishPurge thread ≠ none) {n : ℕ}
    (hn : n ∈ job.context.logDeleteFiles) : n ∈ s.fed := by
  obtain ⟨t, ht⟩ := Option.ne_none_iff_exists'.mp hstep
  obtain ⟨job', hjob', hidle, hcandidates, -⟩ := finishPurge_eq_some ht
  rw [hjob] at hjob'
  cases hjob'
  rcases (hd.taken thread job hjob n hn).2 with h | ⟨c, hc, -⟩ | h
  · exact h
  · rw [hcandidates] at hc
    cases hc
  · rw [hidle] at h
    cases h

/-- In every run of direct purges, no log is fed twice, and the logs of a job have been
fed when it ends. -/
theorem direct_purges_feed_once (hp : Plain o) (h : Opened o s) {acts : List Action}
    (hacts : ∀ a ∈ acts, IsDirect a)
    (hrun : Transitions.run (DB.step o sort) s acts = some t) :
    FedOnce t ∧ Transitions.Along (DB.step o sort) (Settles o sort) s acts := by
  have hdirect : Transitions.Along (DB.step o sort) (fun _ a => IsDirect a) s acts :=
    Transitions.along_of_forall hacts s
  constructor
  · have hinv := Transitions.run_invariant
      (I := fun s => Numbered o s ∧ Accounted o s ∧ Direct o s ∧ FedOnce s)
      (fun s a t ⟨hn, ha, hd, hf⟩ hC hstep => ⟨hn.step hstep, ha.step hn hstep,
        hd.step hp ha hC hstep, (step_fedOnce_iff ha hn hf hstep).mpr (hd.feedsAlone a)⟩)
      ⟨h.numbered, h.accounted, direct_opened h, h.fedOnce⟩ hdirect hrun
    exact hinv.2.2.2
  · refine hdirect.imp (I := fun s => Numbered o s ∧ Accounted o s ∧ Direct o s) ?_ ?_
      ⟨h.numbered, h.accounted, direct_opened h⟩
    · exact fun s a t ⟨hn, ha, hd⟩ hC hstep =>
        ⟨hn.step hstep, ha.step hn hstep, hd.step hp ha hC hstep⟩
    · rintro s a ⟨-, -, hd⟩ -
      refine ⟨fun t hstep n => step_takes hp hstep, fun t hstep => (step_frame hstep).jobs, ?_⟩
      rintro thread job rfl hjob hstep n hn
      exact hd.fed_of_finish hjob hstep hn

def separateWalDir : DBOptions := ⟨0, 7, [0], none, 0, 0, 0⟩

/-- Thread 0 has log 1 twice among its candidates, with and without a slash, and thread 1
finds the same log before it is deleted. -/
def sharedLog : List Action :=
  [.findObsoleteFiles 0 (versionsAt true 2) false, .findObsoleteFiles 1 (versionsAt true 2) false,
    .purgeObsoleteFile 0, .purgeObsoleteFile 1, .purgeObsoleteFile 0, .scan 0, .delete 0 true,
    .purgeObsoleteFile 1, .scan 1, .delete 1 true, .finishPurge 1,
    .purgeObsoleteFile 0, .scan 0, .delete 0 true, .finishPurge 0]

theorem direct_purges_feed_once_shared :
    ∃ t, Transitions.run (DB.step separateWalDir newestFirst) (withLogs separateWalDir [1, 2] 3)
        sharedLog = some t ∧ t.fed = [1] ∧ FedOnce t ∧
      Transitions.Along (DB.step separateWalDir newestFirst) (Settles separateWalDir newestFirst)
        (withLogs separateWalDir [1, 2] 3) sharedLog := by
  have hdirect : ∀ a ∈ sharedLog, IsDirect a := by simp [sharedLog, IsDirect, versionsAt]
  obtain ⟨t, ht, hfed⟩ : ∃ t, Transitions.run (DB.step separateWalDir newestFirst)
      (withLogs separateWalDir [1, 2] 3) sharedLog = some t ∧ t.fed = [1] := ⟨_, rfl, rfl⟩
  exact ⟨t, ht, hfed, direct_purges_feed_once ⟨rfl, rfl, rfl⟩
    (opened_withLogs (by decide) (by decide)) hdirect ht⟩

end PowerLawRocksdb.DirectPurge
