import PowerLawRocksdb.ObsoleteFiles

/-!
# How often a write-ahead log is fed to the tracker

Nothing records that a log has been counted. A log is counted again if a later
call of `DeleteObsoleteFileImpl` still finds the file. This happens after a failed
deletion, and while another call for the same log has read it but not yet deleted
it. It does not happen otherwise: a log number is never given to a second file.
-/
namespace PowerLawRocksdb.WalFeeding
open StandardSort ObsoleteFiles

variable {less : CandidateFileInfo → CandidateFileInfo → Bool}
  {sort : StdSort CandidateFileInfo less} {o : DBOptions} {s t : DB}

def Below (k : ℕ) (name : FileName) : Prop := name.type = .logFile → name.number < k

/-- If the file is a log, it is the one that is opened under its number. -/
def Located (o : DBOptions) (k : ℕ) (file : File) : Prop :=
  file.name.type = .logFile → ∃ n < k, file = o.logFileName n

theorem Below.mono {k l : ℕ} {name : FileName} (h : Below k name) (hkl : k ≤ l) : Below l name :=
  fun hlog => (h hlog).trans_le hkl

theorem Located.mono {k l : ℕ} {file : File} (h : Located o k file) (hkl : k ≤ l) :
    Located o l file := by
  intro hlog
  obtain ⟨n, hn, rfl⟩ := h hlog
  exact ⟨n, hn.trans_le hkl, rfl⟩

theorem Located.lt {k n : ℕ} (h : Located o k (o.logFileName n)) : n < k := by
  obtain ⟨m, hm, he⟩ := h rfl
  cases he
  exact hm

theorem located_target {k : ℕ} {c : CandidateFileInfo} (h : Below k c.name) :
    Located o k (c.target o) := by
  obtain ⟨slash, name, path⟩ := c
  cases name with
  | numbered type number =>
      cases type with
      | logFile => exact fun _ => ⟨number, h rfl, rfl⟩
      | _ => exact fun hlog => by cases hlog
  | tempOptions number => exact fun hlog => by cases hlog

/-- All log numbers in use have been given out before. -/
structure Numbered (o : DBOptions) (s : DB) : Prop where
  files : ∀ f ∈ s.files, Below s.nextFileNumber f.name
  alive : ∀ n ∈ s.aliveLogFiles, n < s.nextFileNumber
  candidates : ∀ thread job, s.jobs thread = some job →
    ∀ c ∈ job.candidates, Below s.nextFileNumber c.name
  queue : ∀ f ∈ s.purgeQueue, Located o s.nextFileNumber f
  calls : ∀ thread call, s.calls thread = some call → Located o s.nextFileNumber call.file
  fed : ∀ n ∈ s.fed, n < s.nextFileNumber

/-- A property of all jobs, or of all calls, that one of them is replaced in. -/
theorem forall_update {α : Type*} {P : ℕ → α → Prop} {f : ℕ → Option α} {thread : ℕ} {x : Option α}
    (h : ∀ i a, f i = some a → P i a) (hx : ∀ a, x = some a → P thread a) :
    ∀ i a, Function.update f thread x i = some a → P i a := by
  intro i a hi
  rcases eq_or_ne i thread with rfl | hne
  · rw [Function.update_self] at hi
    exact hx a hi
  · rw [Function.update_of_ne hne] at hi
    exact h i a hi

theorem below_candidateFiles {context : JobContext} {k : ℕ}
    (hscan : ∀ c ∈ context.fullScanCandidateFiles, Below k c.name)
    (hdel : ∀ n ∈ context.logDeleteFiles, n < k) :
    ∀ c ∈ context.candidateFiles o, Below k c.name := by
  intro c hc
  unfold JobContext.candidateFiles at hc
  simp only [List.mem_append, List.mem_map] at hc
  rcases hc with ((hc | ⟨file, -, rfl⟩) | ⟨n, hn, rfl⟩) | ⟨n, -, rfl⟩
  · exact hscan c hc
  · exact fun hlog => by cases hlog
  · exact fun _ => hdel n (List.mem_of_mem_filter hn)
  · exact fun hlog => by cases hlog

theorem Numbered.createLog (h : Numbered o s) {number : ℕ} (hstep : s.createLog o number = some t) :
    Numbered o t := by
  obtain ⟨hnext, files, recycle, hfiles, -, rfl⟩ := createLog_eq_some hstep
  have hle : s.nextFileNumber ≤ number + 1 := by omega
  constructor
  · intro f hf
    rcases List.mem_append.mp hf with hf | hf
    · exact (h.files f (hfiles f hf)).mono hle
    · rw [List.mem_singleton.mp hf]
      exact fun _ => Nat.lt_succ_self number
  · intro n hn
    rcases List.mem_append.mp hn with hn | hn
    · exact (h.alive n hn).trans_le hle
    · rw [List.mem_singleton.mp hn]
      exact Nat.lt_succ_self number
  · exact fun thread job hjob c hc => (h.candidates thread job hjob c hc).mono hle
  · exact fun f hf => (h.queue f hf).mono hle
  · exact fun thread call hcall => (h.calls thread call hcall).mono hle
  · exact fun n hn => (h.fed n hn).trans_le hle

theorem Numbered.findObsoleteFiles (h : Numbered o s) {thread : ℕ} {v : Versions}
    {scheduleOnly : Bool} (hstep : s.findObsoleteFiles o sort thread v scheduleOnly = some t) :
    Numbered o t := by
  obtain ⟨-, -, -, grabbed, scan, alive, recycle, del, hscan, hlogs, rfl⟩ :=
    findObsoleteFiles_eq_some hstep
  obtain ⟨halive, hdel, -⟩ := findLogs_spec hlogs
  refine ⟨h.files, fun n hn => h.alive n (halive n hn), forall_update h.candidates ?_,
    h.queue, h.calls, h.fed⟩
  intro job hjob c hc
  cases hjob
  apply below_candidateFiles _ _ c (mem_candidates.mp hc)
  · intro c hc
    obtain ⟨f, hf, hname⟩ := hscan c hc
    exact hname ▸ h.files f hf
  · exact fun n hn => h.alive n (hdel n hn).1

theorem Numbered.purgeObsoleteFile (h : Numbered o s) {thread : ℕ}
    (hstep : s.purgeObsoleteFile o thread = some t) : Numbered o t := by
  obtain ⟨job, c, rest, hjob, -, hcandidates, hcase⟩ := purgeObsoleteFile_eq_some hstep
  have hbelow : ∀ d ∈ c :: rest, Below s.nextFileNumber d.name :=
    hcandidates ▸ h.candidates thread job hjob
  have htarget : Located o s.nextFileNumber (c.target o) :=
    located_target (hbelow c List.mem_cons_self)
  have hjobs : ∀ i job', Function.update s.jobs thread (some (job.advance c rest)) i = some job' →
      ∀ d ∈ job'.candidates, Below s.nextFileNumber d.name := by
    apply forall_update h.candidates
    intro job' he d hd
    cases he
    exact hbelow d (List.mem_cons_of_mem c hd)
  rcases hcase with ⟨-, rfl⟩ | ⟨-, -, rfl⟩ | ⟨-, -, rfl⟩ | ⟨-, -, -, rfl⟩
  · exact ⟨h.files, h.alive, hjobs, h.queue, h.calls, h.fed⟩
  · exact ⟨fun f hf => h.files f (List.mem_of_mem_filter hf), h.alive, hjobs, h.queue, h.calls,
      h.fed⟩
  · refine ⟨h.files, h.alive, hjobs, fun f hf => ?_, h.calls, h.fed⟩
    rcases List.mem_append.mp hf with hf | hf
    · exact h.queue f hf
    · exact List.mem_singleton.mp hf ▸ htarget
  · refine ⟨h.files, h.alive, hjobs, h.queue, forall_update h.calls ?_, h.fed⟩
    intro call he
    cases he
    exact htarget

theorem Numbered.step (h : Numbered o s) {a : Action} (hstep : s.step o sort a = some t) :
    Numbered o t := by
  cases a with
  | createLog number => exact h.createLog hstep
  | createFile file =>
      obtain ⟨hlog, rfl⟩ := createFile_eq_some hstep
      refine ⟨fun f hf => ?_, h.alive, h.candidates, h.queue, h.calls, h.fed⟩
      rcases List.mem_append.mp hf with hf | hf
      · exact h.files f hf
      · rw [List.mem_singleton.mp hf]
        exact fun hl => absurd hl hlog
  | findObsoleteFiles thread v scheduleOnly => exact h.findObsoleteFiles hstep
  | purgeObsoleteFile thread => exact h.purgeObsoleteFile hstep
  | finishPurge thread =>
      obtain ⟨job, -, -, -, grabbed, rfl⟩ := finishPurge_eq_some hstep
      exact ⟨h.files, h.alive, forall_update h.candidates (fun _ he => by cases he), h.queue,
        h.calls, h.fed⟩
  | backgroundCallPurge thread =>
      obtain ⟨-, file, queue, hqueue, -, -, rfl⟩ := backgroundCallPurge_eq_some hstep
      have hlocated : ∀ f ∈ file :: queue, Located o s.nextFileNumber f := hqueue ▸ h.queue
      refine ⟨h.files, h.alive, h.candidates, fun f hf => hlocated f (List.mem_cons_of_mem _ hf),
        forall_update h.calls ?_, h.fed⟩
      intro call he
      cases he
      exact hlocated file List.mem_cons_self
  | scan thread =>
      obtain ⟨file, hcall, rfl⟩ := scan_eq_some hstep
      have hfile : Located o s.nextFileNumber file := h.calls thread _ hcall
      refine ⟨h.files, h.alive, h.candidates, h.queue, forall_update h.calls ?_, fun n hn => ?_⟩
      · intro call he
        cases he
        exact hfile
      · dsimp only at hn
        split_ifs at hn with hfeed
        · rcases List.mem_append.mp hn with hn | hn
          · exact h.fed n hn
          · rw [List.mem_singleton.mp hn]
            exact h.files (o.logFileName file.name.number) hfeed.2 rfl
        · exact h.fed n hn
  | delete thread ok =>
      obtain ⟨file, -, rfl⟩ := delete_eq_some hstep
      refine ⟨fun f hf => ?_, h.alive, h.candidates, h.queue,
        forall_update h.calls (fun _ he => by cases he), h.fed⟩
      cases ok with
      | true => exact h.files f (List.mem_of_mem_filter hf)
      | false => exact h.files f hf

/-- What the record of fed logs says about the files that still exist. -/
structure Accounted (o : DBOptions) (s : DB) : Prop where
  scanned : ∀ thread n, s.calls thread = some ⟨o.logFileName n, true⟩ →
    o.logFileName n ∈ s.files → n ∈ s.fed
  traced : ∀ n ∈ s.fed, o.logFileName n ∈ s.files →
    n ∈ s.undeleted ∨ ∃ thread, s.calls thread = some ⟨o.logFileName n, true⟩
  undeleted : ∀ n ∈ s.undeleted, n ∈ s.fed

/-- A step that feeds nothing and deletes nothing only has to leave the calls that
have read their log. A new file has a number that no record mentions. -/
theorem Accounted.frame (h : Accounted o s) (hn : Numbered o s)
    (hfiles : ∀ n < s.nextFileNumber, o.logFileName n ∈ t.files → o.logFileName n ∈ s.files)
    (hcalls : ∀ thread file, t.calls thread = some ⟨file, true⟩ ↔
      s.calls thread = some ⟨file, true⟩)
    (hfed : t.fed = s.fed) (hundeleted : t.undeleted = s.undeleted) : Accounted o t := by
  constructor
  · intro thread n hcall hfile
    rw [hcalls] at hcall
    rw [hfed]
    exact h.scanned thread n hcall (hfiles n (hn.calls thread _ hcall).lt hfile)
  · intro n hmem hfile
    rw [hfed] at hmem
    simp only [hundeleted, hcalls]
    exact h.traced n hmem (hfiles n (hn.fed n hmem) hfile)
  · rw [hfed, hundeleted]
    exact h.undeleted

theorem scanned_update_iff {calls : ℕ → Option Call} {thread : ℕ} (h : calls thread = none)
    (target : File) (i : ℕ) (file : File) :
    Function.update calls thread (some ⟨target, false⟩) i = some ⟨file, true⟩ ↔
      calls i = some ⟨file, true⟩ := by
  rcases eq_or_ne i thread with rfl | hne
  · simp [h]
  · rw [Function.update_of_ne hne]

theorem Accounted.scan (h : Accounted o s) (hn : Numbered o s) {thread : ℕ}
    (hstep : s.scan o thread = some t) : Accounted o t := by
  obtain ⟨file, hcall, rfl⟩ := scan_eq_some hstep
  have hother : ∀ i f, s.calls i = some ⟨f, true⟩ → i ≠ thread := by
    intro i f hi heq
    rw [heq, hcall] at hi
    cases hi
  constructor
  · intro i n hi hfile
    dsimp only at hi hfile ⊢
    rcases eq_or_ne i thread with rfl | hne
    · rw [Function.update_self] at hi
      cases hi
      rw [if_pos ⟨rfl, hfile⟩]
      exact List.mem_append_right _ (List.mem_singleton_self _)
    · rw [Function.update_of_ne hne] at hi
      have hfed := h.scanned i n hi hfile
      split_ifs
      · exact List.mem_append_left _ hfed
      · exact hfed
  · intro n hmem hfile
    have hold : n ∈ s.fed → n ∈ s.undeleted ∨ ∃ i,
        Function.update s.calls thread (some ⟨file, true⟩) i = some ⟨o.logFileName n, true⟩ := by
      intro hfed
      apply (h.traced n hfed hfile).imp_right
      rintro ⟨i, hi⟩
      exact ⟨i, by rw [Function.update_of_ne (hother i _ hi), hi]⟩
    dsimp only at hmem ⊢
    split_ifs at hmem with hfeed
    · rcases List.mem_append.mp hmem with hmem | hmem
      · exact hold hmem
      · obtain ⟨m, -, rfl⟩ := hn.calls thread _ hcall hfeed.1
        rw [List.mem_singleton.mp hmem]
        exact Or.inr ⟨thread, Function.update_self ..⟩
    · exact hold hmem
  · intro n hmem
    have hfed := h.undeleted n hmem
    dsimp only
    split_ifs
    · exact List.mem_append_left _ hfed
    · exact hfed

theorem Accounted.delete (h : Accounted o s) (hn : Numbered o s) {thread : ℕ} {ok : Bool}
    (hstep : s.delete thread ok = some t) : Accounted o t := by
  obtain ⟨file, hcall, rfl⟩ := delete_eq_some hstep
  have hold : ∀ f, (f ∈ if ok then s.files.filter fun f => f ≠ file else s.files) →
      f ∈ s.files := by
    intro f hf
    cases ok with
    | true => exact List.mem_of_mem_filter hf
    | false => exact hf
  constructor
  · intro i n hi hfile
    dsimp only at hi hfile
    rcases eq_or_ne i thread with rfl | hne
    · rw [Function.update_self] at hi
      cases hi
    · rw [Function.update_of_ne hne] at hi
      exact h.scanned i n hi (hold _ hfile)
  · intro n hmem hfile
    dsimp only at hmem hfile ⊢
    rcases h.traced n hmem (hold _ hfile) with hun | ⟨i, hi⟩
    · left
      split_ifs
      · exact List.mem_append_left _ hun
      · exact hun
    · rcases eq_or_ne i thread with rfl | hne
      · -- The call that ends here leaves the file only if its deletion failed.
        rw [hcall] at hi
        cases hi
        left
        cases ok with
        | true => simp at hfile
        | false =>
            rw [if_pos ⟨rfl, hfile, Bool.false_ne_true⟩]
            exact List.mem_append_right _ (List.mem_singleton_self _)
      · exact Or.inr ⟨i, by rw [Function.update_of_ne hne, hi]⟩
  · intro n hmem
    dsimp only at hmem ⊢
    split_ifs at hmem with hfail
    · rcases List.mem_append.mp hmem with hmem | hmem
      · exact h.undeleted n hmem
      · obtain ⟨m, -, rfl⟩ := hn.calls thread _ hcall hfail.1
        rw [List.mem_singleton.mp hmem]
        exact h.scanned thread m hcall hfail.2.1
    · exact h.undeleted n hmem

theorem Accounted.step (h : Accounted o s) (hn : Numbered o s) {a : Action}
    (hstep : s.step o sort a = some t) : Accounted o t := by
  cases a with
  | createLog number =>
      obtain ⟨hnext, files, recycle, hfiles, -, rfl⟩ := createLog_eq_some hstep
      refine h.frame hn (fun n hlt hfile => ?_) (fun _ _ => Iff.rfl) rfl rfl
      rcases List.mem_append.mp hfile with hfile | hfile
      · exact hfiles _ hfile
      · cases List.mem_singleton.mp hfile
        omega
  | createFile file =>
      obtain ⟨hlog, rfl⟩ := createFile_eq_some hstep
      refine h.frame hn (fun n _ hfile => ?_) (fun _ _ => Iff.rfl) rfl rfl
      rcases List.mem_append.mp hfile with hfile | hfile
      · exact hfile
      · cases List.mem_singleton.mp hfile
        exact absurd rfl hlog
  | findObsoleteFiles thread v scheduleOnly =>
      obtain ⟨-, -, -, grabbed, scan, alive, recycle, del, -, -, rfl⟩ :=
        findObsoleteFiles_eq_some hstep
      exact h.frame hn (fun _ _ hfile => hfile) (fun _ _ => Iff.rfl) rfl rfl
  | purgeObsoleteFile thread =>
      obtain ⟨job, c, rest, -, hidle, -, hcase⟩ := purgeObsoleteFile_eq_some hstep
      rcases hcase with ⟨-, rfl⟩ | ⟨-, -, rfl⟩ | ⟨-, -, rfl⟩ | ⟨-, -, -, rfl⟩
      · exact h.frame hn (fun _ _ hfile => hfile) (fun _ _ => Iff.rfl) rfl rfl
      · exact h.frame hn (fun _ _ hfile => List.mem_of_mem_filter hfile) (fun _ _ => Iff.rfl) rfl
          rfl
      · exact h.frame hn (fun _ _ hfile => hfile) (fun _ _ => Iff.rfl) rfl rfl
      · exact h.frame hn (fun _ _ hfile => hfile) (scanned_update_iff hidle _) rfl rfl
  | finishPurge thread =>
      obtain ⟨job, -, -, -, grabbed, rfl⟩ := finishPurge_eq_some hstep
      exact h.frame hn (fun _ _ hfile => hfile) (fun _ _ => Iff.rfl) rfl rfl
  | backgroundCallPurge thread =>
      obtain ⟨-, file, queue, -, -, hidle, rfl⟩ := backgroundCallPurge_eq_some hstep
      exact h.frame hn (fun _ _ hfile => hfile) (scanned_update_iff hidle _) rfl rfl
  | scan thread => exact h.scan hn hstep
  | delete thread ok => exact h.delete hn hstep

/-- A log that still exists has been fed exactly if its deletion failed or a call
that has read it is still to delete it. -/
theorem Accounted.mem_fed_iff (h : Accounted o s) {n : ℕ} (hfile : o.logFileName n ∈ s.files) :
    n ∈ s.fed ↔ n ∈ s.undeleted ∨ ∃ thread, s.calls thread = some ⟨o.logFileName n, true⟩ := by
  constructor
  · exact fun hfed => h.traced n hfed hfile
  · rintro (hun | ⟨thread, hcall⟩)
    · exact h.undeleted n hun
    · exact h.scanned thread n hcall hfile

def FedOnce (s : DB) : Prop := s.fed.Nodup

instance (s : DB) : Decidable (FedOnce s) := inferInstanceAs (Decidable s.fed.Nodup)

/-- A call that is about to read an existing log finds it neither left behind by a
failed deletion nor in the hands of a call that is still to delete it. -/
def FeedsAlone (o : DBOptions) (s : DB) : Action → Prop
  | .scan thread =>
      ∀ n, s.calls thread = some ⟨o.logFileName n, false⟩ → o.logFileName n ∈ s.files →
        n ∉ s.undeleted ∧ ∀ other, s.calls other ≠ some ⟨o.logFileName n, true⟩
  | _ => True

theorem scan_fedOnce_iff (h : Accounted o s) (hn : Numbered o s) (hs : FedOnce s) {thread : ℕ}
    (hstep : s.scan o thread = some t) : FedOnce t ↔ FeedsAlone o s (.scan thread) := by
  obtain ⟨file, hcall, rfl⟩ := scan_eq_some hstep
  unfold FedOnce FeedsAlone
  dsimp only
  split_ifs with hfeed
  · obtain ⟨n, -, rfl⟩ := hn.calls thread _ hcall hfeed.1
    have hfile : o.logFileName n ∈ s.files := hfeed.2
    have hfed := h.mem_fed_iff hfile
    have hnodup : (s.fed ++ [n]).Nodup ↔ n ∉ s.fed := by
      rw [← List.concat_eq_append, List.nodup_concat]
      exact and_iff_left hs
    refine hnodup.trans ⟨fun hnot m hm _ => ?_, fun halone hmem => ?_⟩
    · rw [hcall] at hm
      cases hm
      rw [hfed, not_or, not_exists] at hnot
      exact hnot
    · obtain ⟨hun, hother⟩ := halone n hcall hfile
      rcases hfed.mp hmem with hmem | ⟨other, hcall'⟩
      · exact hun hmem
      · exact hother other hcall'
  · refine ⟨fun _ n hn' hfile => ?_, fun _ => hs⟩
    rw [hcall] at hn'
    cases hn'
    exact absurd ⟨rfl, hfile⟩ hfeed

theorem step_fedOnce_iff (h : Accounted o s) (hn : Numbered o s) (hs : FedOnce s) {a : Action}
    (hstep : s.step o sort a = some t) : FedOnce t ↔ FeedsAlone o s a := by
  cases a with
  | scan thread => exact scan_fedOnce_iff h hn hs hstep
  | _ =>
      refine ⟨fun _ => trivial, fun _ => ?_⟩
      unfold FedOnce
      rw [(step_frame hstep).fed fun thread he => by cases he]
      exact hs

/-- A database that has just been opened: its logs exist, and no thread is purging. -/
structure Opened (o : DBOptions) (s : DB) : Prop where
  next : 0 < s.nextFileNumber
  files : ∀ f ∈ s.files, Below s.nextFileNumber f.name
  alive : ∀ n ∈ s.aliveLogFiles, 0 < n ∧ o.logFileName n ∈ s.files
  recycle : s.logRecycleFiles = []
  queue : s.purgeQueue = []
  mutex : s.mutex = none
  jobs : ∀ thread, s.jobs thread = none
  calls : ∀ thread, s.calls thread = none
  fed : s.fed = []
  undeleted : s.undeleted = []

theorem Opened.numbered (h : Opened o s) : Numbered o s where
  files := h.files
  alive n hn := h.files (o.logFileName n) (h.alive n hn).2 rfl
  candidates thread job hjob := by simp [h.jobs thread] at hjob
  queue f hf := by simp [h.queue] at hf
  calls thread call hcall := by simp [h.calls thread] at hcall
  fed n hn := by simp [h.fed] at hn

theorem Opened.accounted (h : Opened o s) : Accounted o s where
  scanned thread n hcall := by simp [h.calls thread] at hcall
  traced n hn := by simp [h.fed] at hn
  undeleted n hn := by simp [h.undeleted] at hn

theorem Opened.fedOnce (h : Opened o s) : FedOnce s := by
  unfold FedOnce
  rw [h.fed]
  exact List.nodup_nil

/-- Over any run of any number of purge jobs and background purges, no log is counted
twice exactly when every call reads its log alone. -/
theorem fedOnce_throughout_iff {acts : List Action} (h : Opened o s)
    (hrun : Transitions.run (DB.step o sort) s acts = some t) :
    Transitions.Throughout (DB.step o sort) FedOnce s acts ↔
      Transitions.Along (DB.step o sort) (FeedsAlone o) s acts :=
  Transitions.throughout_iff_along (I := fun s => Numbered o s ∧ Accounted o s)
    (fun _ _ _ hi hstep => ⟨hi.1.step hstep, hi.2.step hi.1 hstep⟩)
    (fun _ _ _ hi hs hstep => step_fedOnce_iff hi.2 hi.1 hs hstep)
    ⟨h.numbered, h.accounted⟩ h.fedOnce hrun

def plainOptions : DBOptions := ⟨0, 0, [0], none, 0, 0, 0⟩

/-- A database that has the given logs and no other files. -/
def withLogs (o : DBOptions) (logs : List ℕ) (next : ℕ) : DB :=
  ⟨logs.map o.logFileName, next, logs, [], [], [], none, fun _ => none, fun _ => none, [], [], []⟩

/-- The caller asks for a full scan or not, and logs before `logNumber` are obsolete. -/
def versionsAt (fullScan : Bool) (logNumber : ℕ) : Versions :=
  ⟨fullScan, false, logNumber, 1, 0, logNumber, 0, [], [], []⟩

/-- The newest file first, as among names of logs of the same length. -/
def newestFirst : StdSort CandidateFileInfo (higher fun c : CandidateFileInfo => c.name.number) :=
  .descending fun c : CandidateFileInfo => c.name.number

theorem opened_withLogs {logs : List ℕ} {next : ℕ} (hnext : 0 < next)
    (h : ∀ n ∈ logs, 0 < n ∧ n < next) : Opened o (withLogs o logs next) where
  next := hnext
  files f hf := by
    obtain ⟨n, hn, rfl⟩ := List.mem_map.mp hf
    exact fun _ => (h n hn).2
  alive n hn := ⟨(h n hn).1, List.mem_map_of_mem hn⟩
  recycle := rfl
  queue := rfl
  mutex := rfl
  jobs _ := rfl
  calls _ := rfl
  fed := rfl
  undeleted := rfl

/-- Thread 0 schedules log 1, and thread 5 deletes it in the background. A full scan by
thread 1 still lists the file, but thread 1 comes to it too late. -/
def deferred : List Action :=
  [.findObsoleteFiles 0 (versionsAt false 2) true, .purgeObsoleteFile 0, .finishPurge 0,
    .backgroundCallPurge 5, .findObsoleteFiles 1 (versionsAt true 2) false, .scan 5,
    .purgeObsoleteFile 1, .delete 5 true, .purgeObsoleteFile 1, .scan 1, .delete 1 true,
    .finishPurge 1]

theorem fedOnce_throughout_deferred :
    Transitions.Along (DB.step plainOptions newestFirst) (FeedsAlone plainOptions)
      (withLogs plainOptions [1, 2] 3) deferred := by
  obtain ⟨t, ht⟩ : ∃ t, Transitions.run (DB.step plainOptions newestFirst)
      (withLogs plainOptions [1, 2] 3) deferred = some t := ⟨_, rfl⟩
  exact (fedOnce_throughout_iff (opened_withLogs (by decide) (by decide)) ht).mp (by decide)

/-- Log 1 is counted twice after a failed deletion, and also without one, when a full
scan finds it while a background purge has read it but not deleted it. -/
theorem fed_twice :
    (∃ t, Transitions.run (DB.step plainOptions newestFirst) (withLogs plainOptions [1, 2] 3)
        [.findObsoleteFiles 0 (versionsAt false 2) false, .purgeObsoleteFile 0, .scan 0,
          .delete 0 false, .finishPurge 0,
          .findObsoleteFiles 0 (versionsAt true 2) false, .purgeObsoleteFile 0,
          .purgeObsoleteFile 0, .scan 0] = some t ∧ ¬ FedOnce t) ∧
      ∃ t, Transitions.run (DB.step plainOptions newestFirst) (withLogs plainOptions [1, 2] 3)
        [.findObsoleteFiles 0 (versionsAt false 2) true, .purgeObsoleteFile 0, .finishPurge 0,
          .backgroundCallPurge 5, .scan 5,
          .findObsoleteFiles 1 (versionsAt true 2) false, .purgeObsoleteFile 1,
          .purgeObsoleteFile 1, .scan 1] = some t ∧ ¬ FedOnce t :=
  ⟨⟨_, rfl, by decide⟩, _, rfl, by decide⟩

end PowerLawRocksdb.WalFeeding
