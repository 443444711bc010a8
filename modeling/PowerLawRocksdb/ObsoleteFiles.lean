import Mathlib.Logic.Function.Basic
import PowerLawRocksdb.StandardSort
import PowerLawRocksdb.Transitions

/-!
# Finding and purging obsolete files

Threads of the database find files that it no longer needs, decide which of them
to delete, and delete them. A job starts with `FindObsoleteFiles`, which runs
under the database mutex. `PurgeObsoleteFiles` then goes through the candidates
of the job. It deletes a file itself, under the mutex, or appends it to
`purge_queue_` for `BackgroundCallPurge`, which deletes it without the mutex.
`DeleteObsoleteFileImpl` first feeds the records of a write-ahead log to the
tracker and then deletes the file. These are two steps here, because a thread
that does not need the mutex can act between them.

File names are given by what `ParseFileName` reads off them, names that it does
not accept are absent, and directories are given by a number. The order in which
`CompareCandidateFile` sorts the candidates is a parameter. Deletion of old info
logs and of log writers is not modelled.
-/
namespace PowerLawRocksdb.ObsoleteFiles
open StandardSort

inductive FileType where
  | logFile | dbLockFile | tableFile | descriptorFile | currentFile | tempFile
  | infoLogFile | metaDatabase | identityFile | optionsFile | blobFile
deriving DecidableEq

/-- The temporary file of an options file has a form of its own. -/
inductive FileName where
  | numbered (type : FileType) (number : ℕ)
  | tempOptions (number : ℕ)
deriving DecidableEq

def FileName.type : FileName → FileType
  | .numbered type _ => type
  | .tempOptions _ => .tempFile

def FileName.number : FileName → ℕ
  | .numbered _ number => number
  | .tempOptions number => number

def FileName.hasOptionsPrefix : FileName → Bool
  | .numbered type _ => type == .optionsFile
  | .tempOptions _ => true

structure File where
  dir : ℕ
  name : FileName
deriving DecidableEq

/-- The name of a candidate may start with a slash, which makes it a different name. -/
structure CandidateFileInfo where
  slash : Bool
  name : FileName
  path : ℕ
deriving DecidableEq

/-- The directories and limits that are fixed while the database is open. `paths`
holds the `db_paths` and the `cf_paths` of all column families. -/
structure DBOptions where
  dbname : ℕ
  walDir : ℕ
  paths : List ℕ
  dbLogDir : Option ℕ
  walTtlSeconds : ℕ
  walSizeLimitMb : ℕ
  recycleLogFileNum : ℕ

def DBOptions.archives (o : DBOptions) : Bool :=
  decide (0 < o.walTtlSeconds ∨ 0 < o.walSizeLimitMb)

def DBOptions.logFileName (o : DBOptions) (number : ℕ) : File :=
  ⟨o.walDir, .numbered .logFile number⟩

/-- What `FindObsoleteFiles` is told by its caller and reads from the version set.
`recovering` says that `logs_` is empty. -/
structure Versions where
  fullScan : Bool
  recovering : Bool
  minPendingOutput : ℕ
  manifestFileNumber : ℕ
  pendingManifestFileNumber : ℕ
  logNumber : ℕ
  prevLogNumber : ℕ
  sstLive : List ℕ
  sstDeleteFiles : List (ℕ × ℕ)
  manifestDeleteFiles : List ℕ

structure JobContext extends Versions where
  fullScanCandidateFiles : List CandidateFileInfo
  logDeleteFiles : List ℕ
  logRecycleFiles : List ℕ

/-- A thread inside `PurgeObsoleteFiles`, with the candidates it has not reached. -/
structure Job where
  context : JobContext
  scheduleOnly : Bool
  optsfileNum2 : ℕ
  candidates : List CandidateFileInfo
  filesToDel : List ℕ

/-- A thread inside `DeleteObsoleteFileImpl`, before or after it has read the log. -/
structure Call where
  file : File
  scanned : Bool
deriving DecidableEq

/-- The state shared by the threads. `mutex` is the thread that holds the mutex
between two steps. The last three fields record what the run has done: the logs
fed to the tracker, the logs that a deletion failed to remove, and the table
files reported to listeners with whether the thread held the mutex. -/
structure DB where
  files : List File
  nextFileNumber : ℕ
  aliveLogFiles : List ℕ
  logRecycleFiles : List ℕ
  filesGrabbedForPurge : List ℕ
  purgeQueue : List File
  mutex : Option ℕ
  jobs : ℕ → Option Job
  calls : ℕ → Option Call
  fed : List ℕ
  undeleted : List ℕ
  notified : List (ℕ × Bool)

/-- `std::unique`: of adjacent equal candidates the last one stays. -/
def unique : List CandidateFileInfo → List CandidateFileInfo
  | [] => []
  | [c] => [c]
  | c :: d :: cs => if c = d then unique (d :: cs) else c :: unique (d :: cs)

def DB.children (s : DB) (dir : ℕ) : List FileName :=
  (s.files.filter fun f => f.dir = dir).map File.name

def DB.shouldPurge (s : DB) (number : ℕ) : Bool :=
  decide (number ∉ s.filesGrabbedForPurge ∧ ∀ f ∈ s.purgeQueue, f.name.number ≠ number)

/-- The candidates of a full scan. Only the children of `paths` get a slash, and
only they are held back while they are grabbed or queued. -/
def DB.fullScan (s : DB) (o : DBOptions) : List CandidateFileInfo :=
  (o.paths.flatMap fun path =>
    ((s.children path).filter fun name => s.shouldPurge name.number).map (⟨true, ·, path⟩)) ++
  (if o.walDir ≠ o.dbname then (s.children o.walDir).map (⟨false, ·, o.walDir⟩) else []) ++
  match o.dbLogDir with
  | some dir => if dir ≠ o.dbname then (s.children dir).map (⟨false, ·, dir⟩) else []
  | none => []

/-- Table files that the version set gives up are marked before the scan. -/
def DB.markAsGrabbedForPurge (s : DB) (v : Versions) : DB :=
  { s with filesGrabbedForPurge := s.filesGrabbedForPurge ++ v.sstDeleteFiles.map Prod.fst }

def DB.scanCandidates (s : DB) (o : DBOptions) (v : Versions) : List CandidateFileInfo :=
  if v.fullScan then (s.markAsGrabbedForPurge v).fullScan o else []

/-- The loop that takes obsolete logs off `alive_log_files_`, with the recycle list
and the logs to delete. It is undefined when it runs out of logs. -/
def popObsolete (recycleLogFileNum minLogNumber : ℕ) :
    List ℕ → List ℕ → List ℕ → Option (List ℕ × List ℕ × List ℕ)
  | [], _, _ => none
  | n :: alive, recycle, del =>
      if n < minLogNumber then
        if recycle.length < recycleLogFileNum then
          popObsolete recycleLogFileNum minLogNumber alive (recycle ++ [n]) del
        else popObsolete recycleLogFileNum minLogNumber alive recycle (del ++ [n])
      else some (n :: alive, recycle, del)

def DB.findLogs (s : DB) (o : DBOptions) (v : Versions) :
    Option (List ℕ × List ℕ × List ℕ) :=
  if s.aliveLogFiles = [] ∨ v.recovering then some (s.aliveLogFiles, s.logRecycleFiles, [])
  else popObsolete o.recycleLogFileNum v.logNumber s.aliveLogFiles s.logRecycleFiles []

def JobContext.candidateFiles (context : JobContext) (o : DBOptions) : List CandidateFileInfo :=
  context.fullScanCandidateFiles ++
  (context.sstDeleteFiles.map fun file => ⟨true, .numbered .tableFile file.1, file.2⟩) ++
  ((context.logDeleteFiles.filter fun n => 0 < n).map
    fun n => ⟨true, .numbered .logFile n, o.walDir⟩) ++
  (context.manifestDeleteFiles.map fun n => ⟨true, .numbered .descriptorFile n, o.dbname⟩)

/-- The two largest numbers of options files among the candidates. -/
def optsfileNums (candidates : List CandidateFileInfo) : ℕ × ℕ :=
  candidates.foldl
    (fun nums c =>
      if c.name.type ≠ .optionsFile then nums
      else if nums.1 < c.name.number then (c.name.number, nums.1)
      else if nums.2 < c.name.number then (nums.1, c.name.number)
      else nums)
    (0, 0)

section
variable {less : CandidateFileInfo → CandidateFileInfo → Bool}

def JobContext.start (context : JobContext) (o : DBOptions) (sort : StdSort CandidateFileInfo less)
    (scheduleOnly : Bool) : Job :=
  let candidates := unique (sort.run (context.candidateFiles o))
  ⟨context, scheduleOnly, (optsfileNums candidates).2, candidates, []⟩

def DB.findObsoleteFiles (s : DB) (o : DBOptions) (sort : StdSort CandidateFileInfo less)
    (thread : ℕ) (v : Versions) (scheduleOnly : Bool) : Option DB :=
  if s.mutex = none ∧ s.jobs thread = none ∧ s.calls thread = none then
    (s.findLogs o v).map fun (alive, recycle, del) =>
      { s.markAsGrabbedForPurge v with
        aliveLogFiles := alive
        logRecycleFiles := recycle
        jobs := Function.update s.jobs thread
          (some (JobContext.start ⟨v, s.scanCandidates o v, del, recycle⟩ o sort scheduleOnly)) }
  else none

end

def Job.keep (job : Job) (c : CandidateFileInfo) : Bool :=
  let number := c.name.number
  match c.name.type with
  | .logFile =>
      decide (job.context.logNumber ≤ number ∨ number = job.context.prevLogNumber ∨
        number ∈ job.context.logRecycleFiles)
  | .descriptorFile => decide (job.context.manifestFileNumber ≤ number)
  | .tableFile =>
      decide (number ∈ job.context.sstLive ∨ job.context.minPendingOutput ≤ number)
  | .tempFile =>
      decide (number ∈ job.context.sstLive ∨ number = job.context.pendingManifestFileNumber) ||
        c.name.hasOptionsPrefix
  | .optionsFile => decide (job.optsfileNum2 ≤ number)
  | .infoLogFile | .currentFile | .dbLockFile | .identityFile | .metaDatabase | .blobFile => true

/-- The file that is deleted for a candidate. -/
def CandidateFileInfo.target (c : CandidateFileInfo) (o : DBOptions) : File :=
  match c.name.type with
  | .tableFile => ⟨c.path, .numbered .tableFile c.name.number⟩
  | .logFile => ⟨o.walDir, c.name⟩
  | _ => ⟨o.dbname, c.name⟩

def Job.advance (job : Job) (c : CandidateFileInfo) (rest : List CandidateFileInfo) : Job :=
  { job with
    candidates := rest
    filesToDel :=
      if c.name.type = .tableFile ∧ ¬ job.keep c then c.name.number :: job.filesToDel
      else job.filesToDel }

/-- What becomes of a candidate, given the jobs after it. The mutex is taken only to
schedule or to delete. -/
def DB.purgeCandidate (s : DB) (o : DBOptions) (thread : ℕ) (job : Job) (c : CandidateFileInfo)
    (jobs : ℕ → Option Job) : Option DB :=
  if job.keep c then some { s with jobs := jobs }
  else if c.name.type = .logFile ∧ o.archives then
    some { s with jobs := jobs, files := s.files.filter fun f => f ≠ c.target o }
  else if s.mutex ≠ none then none
  else if job.scheduleOnly then
    some { s with jobs := jobs, purgeQueue := s.purgeQueue ++ [c.target o] }
  else
    some { s with
      jobs := jobs
      mutex := some thread
      calls := Function.update s.calls thread (some ⟨c.target o, false⟩) }

/-- One turn of the loop over the candidates, up to the call of
`DeleteObsoleteFileImpl`. -/
def DB.purgeObsoleteFile (s : DB) (o : DBOptions) (thread : ℕ) : Option DB :=
  match s.jobs thread, s.calls thread with
  | some job, none =>
      match job.candidates with
      | [] => none
      | c :: rest =>
          s.purgeCandidate o thread job c
            (Function.update s.jobs thread (some (job.advance c rest)))
  | _, _ => none

def DB.finishPurge (s : DB) (thread : ℕ) : Option DB :=
  match s.jobs thread with
  | some job =>
      if s.mutex = none ∧ s.calls thread = none ∧ job.candidates = [] then
        some { s with
          filesGrabbedForPurge := s.filesGrabbedForPurge.filter fun n => n ∉ job.filesToDel
          jobs := Function.update s.jobs thread none }
      else none
  | none => none

/-- A turn of the loop of `BackgroundCallPurge`, up to the call of
`DeleteObsoleteFileImpl`. -/
def DB.backgroundCallPurge (s : DB) (thread : ℕ) : Option DB :=
  match s.purgeQueue with
  | file :: queue =>
      if s.mutex = none ∧ s.jobs thread = none ∧ s.calls thread = none then
        some { s with
          purgeQueue := queue
          calls := Function.update s.calls thread (some ⟨file, false⟩) }
      else none
  | [] => none

/-- The first part of `DeleteObsoleteFileImpl`. `genTopkForPartitioner` opens the log
by its number, and feeds nothing when there is no such file. -/
def DB.scan (s : DB) (o : DBOptions) (thread : ℕ) : Option DB :=
  match s.calls thread with
  | some ⟨file, false⟩ =>
      some { s with
        calls := Function.update s.calls thread (some ⟨file, true⟩)
        fed :=
          if file.name.type = .logFile ∧ o.logFileName file.name.number ∈ s.files then
            s.fed ++ [file.name.number]
          else s.fed }
  | _ => none

/-- The second part of `DeleteObsoleteFileImpl`, in which the deletion of an existing
file may fail, and the end of the call. -/
def DB.delete (s : DB) (thread : ℕ) (ok : Bool) : Option DB :=
  match s.calls thread with
  | some ⟨file, true⟩ =>
      some { s with
        mutex := if s.mutex = some thread then none else s.mutex
        calls := Function.update s.calls thread none
        files := if ok then s.files.filter fun f => f ≠ file else s.files
        undeleted :=
          if file.name.type = .logFile ∧ file ∈ s.files ∧ ¬ ok then
            s.undeleted ++ [file.name.number]
          else s.undeleted
        notified :=
          if file.name.type = .tableFile then
            s.notified ++ [(file.name.number, decide (s.mutex = some thread))]
          else s.notified }
  | _ => none

/-- A new write-ahead log. A recycled log is renamed to the new number. -/
def DB.createLog (s : DB) (o : DBOptions) (number : ℕ) : Option DB :=
  if s.mutex = none ∧ s.nextFileNumber ≤ number then
    match s.logRecycleFiles with
    | [] =>
        some { s with
          files := s.files ++ [o.logFileName number]
          nextFileNumber := number + 1
          aliveLogFiles := s.aliveLogFiles ++ [number] }
    | old :: recycle =>
        some { s with
          files := (s.files.filter fun f => f ≠ o.logFileName old) ++ [o.logFileName number]
          nextFileNumber := number + 1
          aliveLogFiles := s.aliveLogFiles ++ [number]
          logRecycleFiles := recycle }
  else none

def DB.createFile (s : DB) (file : File) : Option DB :=
  if file.name.type = .logFile then none else some { s with files := s.files ++ [file] }

inductive Action where
  | createLog (number : ℕ)
  | createFile (file : File)
  | findObsoleteFiles (thread : ℕ) (v : Versions) (scheduleOnly : Bool)
  | purgeObsoleteFile (thread : ℕ)
  | finishPurge (thread : ℕ)
  | backgroundCallPurge (thread : ℕ)
  | scan (thread : ℕ)
  | delete (thread : ℕ) (ok : Bool)

def DB.step {less : CandidateFileInfo → CandidateFileInfo → Bool} (o : DBOptions)
    (sort : StdSort CandidateFileInfo less) (s : DB) : Action → Option DB
  | .createLog number => s.createLog o number
  | .createFile file => s.createFile file
  | .findObsoleteFiles thread v scheduleOnly => s.findObsoleteFiles o sort thread v scheduleOnly
  | .purgeObsoleteFile thread => s.purgeObsoleteFile o thread
  | .finishPurge thread => s.finishPurge thread
  | .backgroundCallPurge thread => s.backgroundCallPurge thread
  | .scan thread => s.scan o thread
  | .delete thread ok => s.delete thread ok

section
variable {less : CandidateFileInfo → CandidateFileInfo → Bool}
  {sort : StdSort CandidateFileInfo less} {o : DBOptions} {s t : DB} {thread : ℕ}

theorem mem_unique {c : CandidateFileInfo} {cs : List CandidateFileInfo} :
    c ∈ unique cs ↔ c ∈ cs := by
  induction cs using unique.induct with
  | case1 => rfl
  | case2 d => rfl
  | case3 d cs ih =>
      rw [unique, if_pos rfl, ih]
      simp
  | case4 d e cs hne ih =>
      rw [unique, if_neg hne, List.mem_cons, ih]
      exact List.mem_cons.symm

theorem mem_candidates {context : JobContext} {scheduleOnly : Bool} {c : CandidateFileInfo} :
    c ∈ (context.start o sort scheduleOnly).candidates ↔ c ∈ context.candidateFiles o := by
  unfold JobContext.start
  rw [mem_unique]
  exact (sort.perm _).mem_iff

theorem exists_file_of_mem_fullScan {c : CandidateFileInfo} (h : c ∈ s.fullScan o) :
    ∃ f ∈ s.files, c.name = f.name := by
  have hchildren : ∀ {dir name}, name ∈ s.children dir → ∃ f ∈ s.files, name = f.name := by
    intro dir name hname
    obtain ⟨f, hf, rfl⟩ := List.mem_map.mp hname
    exact ⟨f, List.mem_of_mem_filter hf, rfl⟩
  unfold DB.fullScan at h
  rw [List.mem_append, List.mem_append] at h
  rcases h with (h | h) | h
  · obtain ⟨path, -, hc⟩ := List.mem_flatMap.mp h
    obtain ⟨name, hname, rfl⟩ := List.mem_map.mp hc
    exact hchildren (List.mem_of_mem_filter hname)
  · split_ifs at h with hdir
    · obtain ⟨name, hname, rfl⟩ := List.mem_map.mp h
      exact hchildren hname
    · cases h
  · split at h
    · split_ifs at h with hdir
      · obtain ⟨name, hname, rfl⟩ := List.mem_map.mp h
        exact hchildren hname
      · cases h
    · cases h

theorem popObsolete_spec {r m : ℕ} {alive recycle del alive' recycle' del' : List ℕ}
    (h : popObsolete r m alive recycle del = some (alive', recycle', del')) :
    ∃ popped, alive = popped ++ alive' ∧ (∀ n ∈ popped, n < m) ∧
      (∀ n ∈ del', n ∈ del ∨ n ∈ popped) ∧
      (r = 0 → recycle' = recycle ∧ del' = del ++ popped) := by
  induction alive generalizing recycle del with
  | nil => cases h
  | cons n alive ih =>
      unfold popObsolete at h
      split_ifs at h with hn hr
      · obtain ⟨popped, halive, hlt, hdel, -⟩ := ih h
        refine ⟨n :: popped, by rw [halive, List.cons_append], ?_, ?_, by omega⟩
        · exact List.forall_mem_cons.mpr ⟨hn, hlt⟩
        · exact fun k hk => (hdel k hk).imp_right (List.mem_cons_of_mem n)
      · obtain ⟨popped, halive, hlt, hdel, hzero⟩ := ih h
        refine ⟨n :: popped, by rw [halive, List.cons_append], ?_, ?_, ?_⟩
        · exact List.forall_mem_cons.mpr ⟨hn, hlt⟩
        · intro k hk
          have := hdel k hk
          simp only [List.mem_append, List.mem_cons] at this ⊢
          tauto
        · intro h0
          rw [(hzero h0).1, (hzero h0).2, List.append_assoc, List.singleton_append]
          exact ⟨rfl, rfl⟩
      · cases h
        exact ⟨[], rfl, by simp, fun k hk => Or.inl hk, fun _ => ⟨rfl, (List.append_nil _).symm⟩⟩

theorem findLogs_spec {v : Versions} {alive recycle del : List ℕ}
    (h : s.findLogs o v = some (alive, recycle, del)) :
    (∀ n ∈ alive, n ∈ s.aliveLogFiles) ∧
      (∀ n ∈ del, n ∈ s.aliveLogFiles ∧ n < v.logNumber) ∧
      (o.recycleLogFileNum = 0 → recycle = s.logRecycleFiles ∧ s.aliveLogFiles = del ++ alive) := by
  unfold DB.findLogs at h
  split_ifs at h with hskip
  · cases h
    simp
  · obtain ⟨popped, halive, hlt, hdel, hzero⟩ := popObsolete_spec h
    have hpopped : ∀ n ∈ del, n ∈ popped := fun n hn => (hdel n hn).resolve_left List.not_mem_nil
    refine ⟨fun n hn => ?_, fun n hn => ⟨?_, hlt n (hpopped n hn)⟩, fun h0 => ?_⟩
    · exact halive ▸ List.mem_append_right popped hn
    · exact halive ▸ List.mem_append_left alive (hpopped n hn)
    · obtain ⟨hr, hd⟩ := hzero h0
      rw [hr, hd, halive]
      exact ⟨rfl, rfl⟩

theorem findObsoleteFiles_eq_some {v : Versions} {scheduleOnly : Bool}
    (h : s.findObsoleteFiles o sort thread v scheduleOnly = some t) :
    s.mutex = none ∧ s.jobs thread = none ∧ s.calls thread = none ∧
      ∃ grabbed scan alive recycle del,
        (∀ c ∈ scan, ∃ f ∈ s.files, c.name = f.name) ∧
        s.findLogs o v = some (alive, recycle, del) ∧
        t = { s with
          filesGrabbedForPurge := grabbed
          aliveLogFiles := alive
          logRecycleFiles := recycle
          jobs := Function.update s.jobs thread
            (some (JobContext.start ⟨v, scan, del, recycle⟩ o sort scheduleOnly)) } := by
  unfold DB.findObsoleteFiles at h
  split_ifs at h with hfree
  obtain ⟨⟨alive, recycle, del⟩, hlogs, rfl⟩ := Option.map_eq_some_iff.mp h
  refine ⟨hfree.1, hfree.2.1, hfree.2.2, _, _, alive, recycle, del, ?_, hlogs, rfl⟩
  intro c hc
  unfold DB.scanCandidates at hc
  split_ifs at hc with hscan
  · obtain ⟨f, hf, hname⟩ := exists_file_of_mem_fullScan hc
    exact ⟨f, hf, hname⟩
  · cases hc

/-- The four outcomes of a turn of the loop over the candidates. -/
theorem purgeObsoleteFile_eq_some (h : s.purgeObsoleteFile o thread = some t) :
    ∃ job c rest, s.jobs thread = some job ∧ s.calls thread = none ∧ job.candidates = c :: rest ∧
      let jobs := Function.update s.jobs thread (some (job.advance c rest))
      (job.keep c = true ∧ t = { s with jobs := jobs }) ∨
      (job.keep c = false ∧ o.archives = true ∧
        t = { s with jobs := jobs, files := s.files.filter fun f => f ≠ c.target o }) ∨
      (job.keep c = false ∧ job.scheduleOnly = true ∧
        t = { s with jobs := jobs, purgeQueue := s.purgeQueue ++ [c.target o] }) ∨
      (job.keep c = false ∧ job.scheduleOnly = false ∧ s.mutex = none ∧
        t = { s with
          jobs := jobs
          mutex := some thread
          calls := Function.update s.calls thread (some ⟨c.target o, false⟩) }) := by
  unfold DB.purgeObsoleteFile at h
  split at h
  · rename_i job hjob hcall
    split at h
    · cases h
    · rename_i c rest hcandidates
      refine ⟨job, c, rest, hjob, hcall, hcandidates, ?_⟩
      unfold DB.purgeCandidate at h
      split_ifs at h with hkeep harchive hmutex hschedule <;> cases h
      · exact Or.inl ⟨hkeep, rfl⟩
      · exact Or.inr (Or.inl ⟨Bool.eq_false_iff.mpr hkeep, harchive.2, rfl⟩)
      · exact Or.inr (Or.inr (Or.inl ⟨Bool.eq_false_iff.mpr hkeep, hschedule, rfl⟩))
      · exact Or.inr (Or.inr (Or.inr ⟨Bool.eq_false_iff.mpr hkeep,
          Bool.eq_false_iff.mpr hschedule, not_not.mp hmutex, rfl⟩))
  · cases h

theorem finishPurge_eq_some (h : s.finishPurge thread = some t) :
    ∃ job, s.jobs thread = some job ∧ s.calls thread = none ∧ job.candidates = [] ∧
      ∃ grabbed, t = { s with
        filesGrabbedForPurge := grabbed, jobs := Function.update s.jobs thread none } := by
  unfold DB.finishPurge at h
  split at h
  · rename_i job hjob
    split_ifs at h with hend
    cases h
    exact ⟨job, hjob, hend.2.1, hend.2.2, _, rfl⟩
  · cases h

theorem backgroundCallPurge_eq_some (h : s.backgroundCallPurge thread = some t) :
    s.mutex = none ∧ ∃ file queue, s.purgeQueue = file :: queue ∧ s.jobs thread = none ∧
      s.calls thread = none ∧ t = { s with
        purgeQueue := queue
        calls := Function.update s.calls thread (some ⟨file, false⟩) } := by
  unfold DB.backgroundCallPurge at h
  split at h
  · rename_i file queue hqueue
    split_ifs at h with hfree
    cases h
    exact ⟨hfree.1, file, queue, hqueue, hfree.2.1, hfree.2.2, rfl⟩
  · cases h

theorem scan_eq_some (h : s.scan o thread = some t) :
    ∃ file, s.calls thread = some ⟨file, false⟩ ∧
      t = { s with
        calls := Function.update s.calls thread (some ⟨file, true⟩)
        fed :=
          if file.name.type = .logFile ∧ o.logFileName file.name.number ∈ s.files then
            s.fed ++ [file.name.number]
          else s.fed } := by
  unfold DB.scan at h
  split at h
  · cases h
    exact ⟨_, ‹_›, rfl⟩
  · cases h

theorem delete_eq_some {ok : Bool} (h : s.delete thread ok = some t) :
    ∃ file, s.calls thread = some ⟨file, true⟩ ∧
      t = { s with
        mutex := if s.mutex = some thread then none else s.mutex
        calls := Function.update s.calls thread none
        files := if ok then s.files.filter fun f => f ≠ file else s.files
        undeleted :=
          if file.name.type = .logFile ∧ file ∈ s.files ∧ ¬ ok then
            s.undeleted ++ [file.name.number]
          else s.undeleted
        notified :=
          if file.name.type = .tableFile then
            s.notified ++ [(file.name.number, decide (s.mutex = some thread))]
          else s.notified } := by
  unfold DB.delete at h
  split at h
  · cases h
    exact ⟨_, ‹_›, rfl⟩
  · cases h

theorem createLog_eq_some {number : ℕ} (h : s.createLog o number = some t) :
    s.nextFileNumber ≤ number ∧ ∃ files recycle, (∀ f ∈ files, f ∈ s.files) ∧
      (s.logRecycleFiles = [] → files = s.files ∧ recycle = []) ∧
      t = { s with
        files := files ++ [o.logFileName number]
        nextFileNumber := number + 1
        aliveLogFiles := s.aliveLogFiles ++ [number]
        logRecycleFiles := recycle } := by
  unfold DB.createLog at h
  split_ifs at h with hfree
  refine ⟨hfree.2, ?_⟩
  split at h
  · rename_i hrecycle
    cases h
    exact ⟨s.files, s.logRecycleFiles, fun _ hf => hf, fun _ => ⟨rfl, hrecycle⟩, rfl⟩
  · rename_i old recycle hrecycle
    cases h
    refine ⟨_, recycle, fun f hf => List.mem_of_mem_filter hf, fun hnil => ?_, rfl⟩
    rw [hrecycle] at hnil
    cases hnil

theorem createFile_eq_some {file : File} (h : s.createFile file = some t) :
    file.name.type ≠ .logFile ∧ t = { s with files := s.files ++ [file] } := by
  unfold DB.createFile at h
  split_ifs at h with hlog
  cases h
  exact ⟨hlog, rfl⟩

/-- What a step leaves as it is. A file is lost only to archiving, to recycling, or at
the end of a call for it. -/
structure Frame (o : DBOptions) (a : Action) (s t : DB) : Prop where
  fed : (∀ thread, a ≠ .scan thread) → t.fed = s.fed
  alive : (∀ thread v scheduleOnly, a ≠ .findObsoleteFiles thread v scheduleOnly) →
    s.aliveLogFiles ⊆ t.aliveLogFiles
  files : o.archives = false → s.logRecycleFiles = [] → ∀ f ∈ s.files,
    f ∈ t.files ∨ ∃ thread, s.calls thread = some ⟨f, true⟩
  jobs : ∀ thread job, s.jobs thread = some job →
    a = .finishPurge thread ∨ ∃ job', t.jobs thread = some job' ∧ job'.context = job.context

theorem step_frame {a : Action} (hstep : s.step o sort a = some t) : Frame o a s t := by
  cases a with
  | createLog number =>
      obtain ⟨-, files, recycle, -, hsame, rfl⟩ := createLog_eq_some hstep
      refine ⟨fun _ => rfl, fun _ => List.subset_append_left .., fun _ hrecycle f hf => ?_,
        fun _ job hjob => Or.inr ⟨job, hjob, rfl⟩⟩
      rw [(hsame hrecycle).1]
      exact Or.inl (List.mem_append_left _ hf)
  | createFile file =>
      obtain ⟨-, rfl⟩ := createFile_eq_some hstep
      exact ⟨fun _ => rfl, fun _ => List.Subset.refl _,
        fun _ _ f hf => Or.inl (List.mem_append_left _ hf),
        fun _ job hjob => Or.inr ⟨job, hjob, rfl⟩⟩
  | findObsoleteFiles i v scheduleOnly =>
      obtain ⟨-, hfree, -, grabbed, scan, alive, recycle, del, -, -, rfl⟩ :=
        findObsoleteFiles_eq_some hstep
      refine ⟨fun _ => rfl, fun hne => absurd rfl (hne i v scheduleOnly), fun _ _ f hf => Or.inl hf,
        fun thread job hjob => ?_⟩
      have hne : thread ≠ i := by
        intro heq
        rw [← heq, hjob] at hfree
        cases hfree
      exact Or.inr ⟨job, (Function.update_of_ne hne ..).trans hjob, rfl⟩
  | purgeObsoleteFile i =>
      obtain ⟨job', c, rest, hjob', -, -, hcase⟩ := purgeObsoleteFile_eq_some hstep
      have hjobs : ∀ thread job, s.jobs thread = some job → ∃ k,
          Function.update s.jobs i (some (job'.advance c rest)) thread = some k ∧
            k.context = job.context := by
        intro thread job hjob
        rcases eq_or_ne thread i with rfl | hne
        · rw [hjob] at hjob'
          cases hjob'
          exact ⟨_, Function.update_self .., rfl⟩
        · exact ⟨job, (Function.update_of_ne hne ..).trans hjob, rfl⟩
      rcases hcase with ⟨-, rfl⟩ | ⟨-, harchive, rfl⟩ | ⟨-, -, rfl⟩ | ⟨-, -, -, rfl⟩
      · exact ⟨fun _ => rfl, fun _ => List.Subset.refl _, fun _ _ f hf => Or.inl hf,
          fun thread job hjob => Or.inr (hjobs thread job hjob)⟩
      · refine ⟨fun _ => rfl, fun _ => List.Subset.refl _, fun hno => ?_,
          fun thread job hjob => Or.inr (hjobs thread job hjob)⟩
        rw [harchive] at hno
        cases hno
      · exact ⟨fun _ => rfl, fun _ => List.Subset.refl _, fun _ _ f hf => Or.inl hf,
          fun thread job hjob => Or.inr (hjobs thread job hjob)⟩
      · exact ⟨fun _ => rfl, fun _ => List.Subset.refl _, fun _ _ f hf => Or.inl hf,
          fun thread job hjob => Or.inr (hjobs thread job hjob)⟩
  | finishPurge i =>
      obtain ⟨job', -, -, -, grabbed, rfl⟩ := finishPurge_eq_some hstep
      refine ⟨fun _ => rfl, fun _ => List.Subset.refl _, fun _ _ f hf => Or.inl hf,
        fun thread job hjob => ?_⟩
      rcases eq_or_ne thread i with rfl | hne
      · exact Or.inl rfl
      · exact Or.inr ⟨job, (Function.update_of_ne hne ..).trans hjob, rfl⟩
  | backgroundCallPurge i =>
      obtain ⟨-, file, queue, -, -, -, rfl⟩ := backgroundCallPurge_eq_some hstep
      exact ⟨fun _ => rfl, fun _ => List.Subset.refl _, fun _ _ f hf => Or.inl hf,
        fun _ job hjob => Or.inr ⟨job, hjob, rfl⟩⟩
  | scan i =>
      obtain ⟨file, -, rfl⟩ := scan_eq_some hstep
      exact ⟨fun hne => absurd rfl (hne i), fun _ => List.Subset.refl _, fun _ _ f hf => Or.inl hf,
        fun _ job hjob => Or.inr ⟨job, hjob, rfl⟩⟩
  | delete i ok =>
      obtain ⟨file, hcall, rfl⟩ := delete_eq_some hstep
      refine ⟨fun _ => rfl, fun _ => List.Subset.refl _, fun _ _ f hf => ?_,
        fun _ job hjob => Or.inr ⟨job, hjob, rfl⟩⟩
      rcases eq_or_ne f file with rfl | hne
      · exact Or.inr ⟨i, hcall⟩
      · left
        cases ok with
        | true => exact List.mem_filter.mpr ⟨hf, decide_eq_true hne⟩
        | false => exact hf

end

end PowerLawRocksdb.ObsoleteFiles
