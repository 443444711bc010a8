import PowerLawRocksdb.Transitions
import PowerLawRocksdb.Durability

/-!
# Logs that are let go

The results of a flush raise the log number of the column family and, with two-phase
commit, `min_log_number_to_keep`. The logs before that can be deleted, and the recovery
skips them if they are still there. Without two-phase commit the log numbers of the column
families decide alone. Either way the logs that are left account for the state.
-/
namespace PowerLawRocksdb.Durability
open Numerals BatchEntries MemTableInserter WriteCommitted RecordReplay LogLifeCycle LogHistory
open KeptLogs WriteRequests Transitions

section Steps
variable {db db' : Database} {groups : List Group}

theorem flush_inv {cf : UInt32} {n : ℕ} (hflush : db.flush cf n = some db') :
    ∃ f f', db.families cf = some f ∧ f.flush n = some f' ∧ db' = { db with
      families := Function.update db.families cf (some f')
      minLogNumberToKeep2pc :=
        if db.allow2pc then
          max db.minLogNumberToKeep2pc (db.precomputeMinLogNumberToKeep cf f'.logNumber)
        else db.minLogNumberToKeep2pc } := by
  obtain ⟨f, hf, hrest⟩ := Option.bind_eq_some_iff.mp hflush
  obtain ⟨f', hf', hdb'⟩ := Option.bind_eq_some_iff.mp hrest
  cases hdb'
  exact ⟨f, f', hf, hf', rfl⟩

theorem foldl_min_le {families : List Family} {f : Family} (hf : f ∈ families) (least : ℕ) :
    families.foldl (fun least f => min least f.logNumber) least ≤ f.logNumber := by
  have hstart : ∀ (families : List Family) (least : ℕ),
      families.foldl (fun least f => min least f.logNumber) least ≤ least := by
    intro families
    induction families with
    | nil => exact fun _ => le_rfl
    | cons f families ih => exact fun least => (ih _).trans (Nat.min_le_left ..)
  induction families generalizing least with
  | nil => cases hf
  | cons f' families ih =>
      rcases List.mem_cons.mp hf with rfl | hf
      · exact (hstart families _).trans (Nat.min_le_right ..)
      · exact ih hf _

theorem leastPositive_le {numbers : List ℕ} {n : ℕ} (hn : n ∈ numbers) (hpos : 0 < n) :
    0 < leastPositive numbers ∧ leastPositive numbers ≤ n := by
  have hstep : ∀ (numbers : List ℕ) (least : ℕ), 0 < least →
      0 < numbers.foldl (fun least n => if 0 < n ∧ (least = 0 ∨ n < least) then n else least)
          least ∧
        numbers.foldl (fun least n => if 0 < n ∧ (least = 0 ∨ n < least) then n else least)
          least ≤ least := by
    intro numbers
    induction numbers with
    | nil => exact fun least hleast => ⟨hleast, le_rfl⟩
    | cons m numbers ih =>
        intro least hleast
        rw [List.foldl_cons]
        split_ifs with hm
        · exact ⟨(ih m hm.1).1, (ih m hm.1).2.trans (by omega)⟩
        · exact ih least hleast
  obtain ⟨front, back, rfl⟩ := List.append_of_mem hn
  rw [leastPositive, List.foldl_append, List.foldl_cons]
  split_ifs with hsmaller
  · exact hstep back n hpos
  · generalize List.foldl _ 0 front = least at hsmaller ⊢
    obtain ⟨hleast, hle⟩ := hstep back least (by omega)
    exact ⟨hleast, hle.trans (by omega)⟩

section Precompute
variable (db : Database) (cf : UInt32) {logNumber : ℕ}

theorem precomputeMinLogNumberToKeep_le (hpos : 0 < logNumber) :
    db.precomputeMinLogNumberToKeep cf logNumber ≤ logNumber := by
  unfold Database.precomputeMinLogNumberToKeep
  dsimp only
  split_ifs <;> omega

theorem precomputeMinLogNumberToKeep_le_other {id : UInt32} {f : Family} (hid : id ∈ db.ids)
    (hne : id ≠ cf) (hf : db.families id = some f) :
    db.precomputeMinLogNumberToKeep cf logNumber ≤ f.logNumber := by
  have hother : f ∈ db.others cf :=
    List.mem_filterMap.mpr ⟨id, List.mem_filter.mpr ⟨hid, decide_eq_true hne⟩, hf⟩
  have hleast : leastLogNumber (db.others cf) ≤ f.logNumber := foldl_min_le hother _
  unfold Database.precomputeMinLogNumberToKeep
  dsimp only
  split_ifs <;> omega

theorem precomputeMinLogNumberToKeep_le_prepared {t : Transaction} (ht : t ∈ db.transactions)
    (hpos : 0 < t.logNumber) : db.precomputeMinLogNumberToKeep cf logNumber ≤ t.logNumber := by
  obtain ⟨hprep, hle⟩ := leastPositive_le (List.mem_map_of_mem ht) hpos
  have hleast : 0 < db.findMinLogContainingOutstandingPrep ∧
      db.findMinLogContainingOutstandingPrep ≤ t.logNumber := ⟨hprep, hle⟩
  unfold Database.precomputeMinLogNumberToKeep
  dsimp only
  split_ifs <;> omega

end Precompute

theorem mem_preparedIn {record : Bytes} {sequence : ℕ} {ops : List LogOp}
    (h : Records record sequence ops) {name : Bytes} {entries : List Entry}
    (hop : .prepare name entries ∈ ops) : name ∈ preparedIn record := by
  rw [preparedIn, entriesOf_body h.represents]
  refine List.mem_filterMap.mpr ⟨.endPrepare name, List.mem_flatMap.mpr ⟨_, hop, ?_⟩, rfl⟩
  exact List.mem_append_right _ List.mem_cons_self

theorem mem_committedIn {record : Bytes} {sequence : ℕ} {ops : List LogOp}
    (h : Records record sequence ops) {name : Bytes} (hop : .commit name ∈ ops) :
    name ∈ committedIn record := by
  rw [committedIn, entriesOf_body h.represents]
  exact List.mem_filterMap.mpr
    ⟨.commit name, List.mem_flatMap.mpr ⟨_, hop, List.mem_cons_self⟩, rfl⟩

/-- The groups that stay when the logs before `number` are let go. -/
theorem Inv.since (h : Inv db groups) {number : ℕ} (hapart : Apart db number) :
    Chronicle (schema db.columnFamilies) db.allow2pc ⟨[], []⟩
        (groups.filter fun g => number ≤ g.log) ∧
      effect (groups.filter fun g => number ≤ g.log) = (effect groups).since number := by
  have hlogs := (List.pairwise_append.mp h.logs).1
  set front := groups.filter fun g => g.log < number with hfront
  set back := groups.filter fun g => number ≤ g.log with hback
  have hgroups : groups = front ++ back := append_of_logs hlogs number
  have hchronicle := h.chronicle
  rw [hgroups] at hchronicle
  have hempty : (effect front).since number = ⟨[], []⟩ :=
    effect_since_eq_empty fun g hg => of_decide_eq_true (List.mem_filter.mp hg).2
  have hcommit : ∀ q ∈ (effect front).prepared, q.log < number →
      ∀ g ∈ back, .commit q.name ∉ g.ops := by
    intro q hq _ g hg hop
    rcases mem_prepared hq with hnone | ⟨g₀, hg₀, -, hprepare⟩
    · cases hnone
    · obtain ⟨hmem, hlate⟩ := List.mem_filter.mp hg
      obtain ⟨hmem₀, hearly⟩ := List.mem_filter.mp hg₀
      obtain ⟨record, hrecord, hholds⟩ := exists_left h.disk hmem
      obtain ⟨record₀, hrecord₀, hholds₀⟩ := exists_left h.disk hmem₀
      exact hapart record₀ hrecord₀ (hholds₀.1 ▸ of_decide_eq_true hearly) record hrecord
        (hholds.1 ▸ of_decide_eq_true hlate) q.name (mem_preparedIn hholds₀.2 hprepare)
        (mem_committedIn hholds.2 hop)
  obtain ⟨hkept, heffect⟩ := hchronicle.of_append.2.since
    (fun g hg => of_decide_eq_true (List.mem_filter.mp hg).2) hcommit
  rw [← effect, hempty] at hkept heffect
  refine ⟨hkept, heffect.trans ?_⟩
  rw [hgroups, effect, effect, List.foldl_append]

/-- Some groups are not needed any more. -/
theorem Inv.sublist (h : Inv db groups) {groups' : List Group} (hsub : groups'.Sublist groups)
    {closed : List LogFile} (hclosed : closed ⊆ db.closed) {number : ℕ}
    (hneeded : number ≤ db.current.number)
    (hdisk : List.Forall₂ Holds
      (Database.replayed { db with closed := closed, minLogNumberToKeep2pc := number }) groups')
    (hchronicle : Chronicle (schema db.columnFamilies) db.allow2pc ⟨[], []⟩ groups')
    (hhistory : (effect groups').history ⊆ (effect groups).history)
    (hsame : ∀ {cf f}, db.families cf = some f → ∀ k, f.logNumber ≤ k →
      fromLog k cf (effect groups').history = fromLog k cf (effect groups).history)
    (hprepared : (effect groups').prepared = (effect groups).prepared) :
    Inv { db with closed := closed, minLogNumberToKeep2pc := number } groups' where
  disk := hdisk
  closed l hl := h.closed l (hclosed hl)
  positive := h.positive
  chronicle := hchronicle
  sequences a ha := h.sequences a (hhistory ha)
  ascending := h.ascending.sublist ((hsub.map _).append_right _)
  logs := h.logs.sublist ((hsub.map _).append_right _)
  needed_current := hneeded
  families hf := (h.families hf).congr hhistory (hsame hf)
  transactions := by
    rw [hprepared]
    exact h.transactions
  updates h2pc g hg := h.updates h2pc g (hsub.subset hg)
  ids := h.ids

theorem holds_filter {records : List (ℕ × Bytes)} (h : List.Forall₂ Holds records groups)
    (p : ℕ → Bool) :
    List.Forall₂ Holds (records.filter fun record => p record.1)
      (groups.filter fun g => p g.log) := by
  apply List.rel_filter _ h
  intro record g hrecord
  dsimp only
  rw [hrecord.1]

/-- A flush lets go of the logs before `number`. -/
theorem Inv.release (h : Inv db groups) {number : ℕ} (hle : db.minLogNumberToKeep2pc ≤ number)
    (hcurrent : number ≤ db.current.number)
    (hfamilies : ∀ {cf f}, db.families cf = some f → number ≤ f.logNumber)
    (hprepared : ∀ t ∈ db.transactions, number ≤ t.logNumber) (hapart : Apart db number) :
    Inv { db with minLogNumberToKeep2pc := number } (groups.filter fun g => number ≤ g.log) := by
  obtain ⟨hchronicle, heffect⟩ := h.since hapart
  have hreplayed : Database.replayed { db with minLogNumberToKeep2pc := number } =
      db.replayed.filter fun record => number ≤ record.1 := by
    rw [Database.replayed, Database.replayed, List.filter_filter]
    apply List.filter_congr
    intro record _
    by_cases hrecord : number ≤ record.1
    · simp [hrecord, hle.trans hrecord]
    · simp [hrecord]
  have hopen : ((effect groups).prepared.filter fun q => number ≤ q.log) =
      (effect groups).prepared := by
    apply List.filter_eq_self.mpr
    intro q hq
    obtain ⟨t, ht, htracked⟩ := exists_left h.transactions hq
    exact decide_eq_true (htracked.log_eq ▸ hprepared t ht)
  refine h.sublist List.filter_sublist (List.Subset.refl _) hcurrent ?_ hchronicle ?_ ?_ ?_
  · exact hreplayed ▸ holds_filter h.disk fun log => number ≤ log
  · rw [heffect]
    exact fun a ha => List.mem_of_mem_filter ha
  · intro cf f hf k hk
    rw [heffect]
    exact fromLog_since ((hfamilies hf).trans hk) cf _
  · rw [heffect]
    exact hopen

theorem Inv.flush (h : Inv db groups) {cf : UInt32} {n : ℕ}
    (hvalid : Admissible db (.flush cf n)) (hflush : db.flush cf n = some db') :
    ∃ groups', Inv db' groups' := by
  have hapart := hvalid db' hflush
  obtain ⟨f, f', hf, hf', rfl⟩ := flush_inv hflush
  obtain ⟨hkept, hpos⟩ := (h.families hf).flush hf'
  have hrange : f'.deleteRangeSupported = f.deleteRangeSupported := by
    obtain ⟨last, -, rfl⟩ := flush_eq_some hf'
    rfl
  have hupdate := h.update hf hkept hrange
  by_cases hraised : db.allow2pc = true ∧
      db.minLogNumberToKeep2pc < db.precomputeMinLogNumberToKeep cf f'.logNumber
  · rw [if_pos hraised.1, max_eq_right hraised.2.le] at hapart ⊢
    refine ⟨_, hupdate.release hraised.2.le
      ((precomputeMinLogNumberToKeep_le db cf hpos).trans hkept.chain.le_current) ?_ ?_ hapart⟩
    · intro id g hg
      dsimp only at hg
      by_cases hid : id = cf
      · subst hid
        rw [Function.update_self] at hg
        cases hg
        exact precomputeMinLogNumberToKeep_le db id hpos
      · rw [Function.update_of_ne hid] at hg
        exact precomputeMinLogNumberToKeep_le_other db cf (h.ids hg) hid hg
    · intro t ht
      obtain ⟨q, hq, htracked⟩ := exists_left h.transactions.flip ht
      exact precomputeMinLogNumberToKeep_le_prepared db cf ht
        (htracked.log_eq ▸ htracked.log_pos)
  · have hsame : (if db.allow2pc then
        max db.minLogNumberToKeep2pc (db.precomputeMinLogNumberToKeep cf f'.logNumber)
        else db.minLogNumberToKeep2pc) = db.minLogNumberToKeep2pc := by
      split_ifs with h2pc
      · exact max_eq_left (Nat.not_lt.mp fun hlt => hraised ⟨h2pc, hlt⟩)
      · rfl
    rw [hsame]
    exact ⟨groups, hupdate⟩

theorem Inv.minLogNumber_le (h : Inv db groups) {cf : UInt32} {f : Family}
    (hf : db.families cf = some f) : db.minLogNumberWithUnflushedData ≤ f.logNumber :=
  foldl_min_le (List.mem_filterMap.mpr ⟨cf, h.ids hf, hf⟩) _

theorem numbered_filter (closed : List LogFile) (number : ℕ) :
    (closed.filter fun l => l.number ≠ number).flatMap LogFile.numbered =
      (closed.flatMap LogFile.numbered).filter fun record => record.1 ≠ number := by
  induction closed with
  | nil => rfl
  | cons l closed ih =>
      rw [List.flatMap_cons, List.filter_append, ← ih, List.filter_cons]
      have hall : l.numbered.filter (fun record => record.1 ≠ number) =
          if l.number ≠ number then l.numbered else [] := by
        split_ifs with hkeep
        · apply List.filter_eq_self.mpr
          intro record hrecord
          obtain ⟨r, -, rfl⟩ := List.mem_map.mp hrecord
          exact decide_eq_true hkeep
        · apply List.filter_eq_nil_iff.mpr
          intro record hrecord
          obtain ⟨r, -, rfl⟩ := List.mem_map.mp hrecord
          simpa using hkeep
      rw [hall]
      by_cases hkeep : l.number ≠ number
      · rw [if_pos (decide_eq_true hkeep), if_pos hkeep, List.flatMap_cons]
      · rw [if_neg (by simpa using hkeep), if_neg hkeep, List.nil_append]

theorem replayed_deleteLog {number : ℕ} (hne : number ≠ db.current.number) :
    Database.replayed { db with closed := db.closed.filter fun l => l.number ≠ number } =
      db.replayed.filter fun record => record.1 ≠ number := by
  have hcurrent : db.current.numbered.filter (fun record => record.1 ≠ number) =
      db.current.numbered := by
    apply List.filter_eq_self.mpr
    intro record hrecord
    obtain ⟨r, -, rfl⟩ := List.mem_map.mp hrecord
    exact decide_eq_true hne.symm
  have hnumbered : Database.numbered
      { db with closed := db.closed.filter fun l => l.number ≠ number } =
        db.numbered.filter fun record => record.1 ≠ number := by
    rw [Database.numbered, Database.numbered, List.flatMap_append, List.flatMap_append,
      List.flatMap_singleton, List.filter_append, hcurrent, numbered_filter]
  rw [Database.replayed, Database.replayed, hnumbered, List.filter_filter, List.filter_filter]
  simp only [Bool.and_comm]

/-- Without two-phase commit, a deleted log held nothing that is still needed. -/
theorem Inv.filter_closed (h : Inv db groups) (h2pc : db.allow2pc = false) {number : ℕ}
    (hlt : number < db.minLogNumberWithUnflushedData) (hne : number ≠ db.current.number) :
    Inv { db with closed := db.closed.filter fun l => l.number ≠ number }
      (groups.filter fun g => g.log ≠ number) := by
  have hupdates := h.updates h2pc
  have hsub : (groups.filter fun g => g.log ≠ number).Sublist groups := List.filter_sublist
  have heffect : effect groups = ⟨groups.flatMap Group.added, []⟩ := foldl_updates hupdates _
  have heffect' : effect (groups.filter fun g => g.log ≠ number) =
      ⟨(groups.filter fun g => g.log ≠ number).flatMap Group.added, []⟩ :=
    foldl_updates (fun g hg => hupdates g (hsub.subset hg)) _
  refine h.sublist hsub (fun _ hl => List.mem_of_mem_filter hl) h.needed_current ?_
    (h.chronicle.sublist hsub hupdates (List.Subset.refl _)) ?_ ?_ ?_
  · exact replayed_deleteLog hne ▸ holds_filter h.disk fun log => log ≠ number
  · rw [heffect, heffect']
    intro a ha
    obtain ⟨g, hg, ha⟩ := List.mem_flatMap.mp ha
    exact List.mem_flatMap.mpr ⟨g, hsub.subset hg, ha⟩
  · intro cf f hf k hk
    rw [heffect, heffect']
    exact fromLog_filter (hlt.trans_le ((h.minLogNumber_le hf).trans hk)) cf groups
  · rw [heffect, heffect']

theorem deleteLog_inv {number : ℕ} (hdelete : db.deleteLog number = some db') :
    number < db.minLogNumberToKeep ∧
      db' = { db with closed := db.closed.filter fun l => l.number ≠ number } := by
  unfold Database.deleteLog at hdelete
  split_ifs at hdelete with hlt
  cases hdelete
  exact ⟨hlt, rfl⟩

theorem Inv.deleteLog (h : Inv db groups) {number : ℕ}
    (hdelete : db.deleteLog number = some db') : ∃ groups', Inv db' groups' := by
  obtain ⟨hlt, rfl⟩ := deleteLog_inv hdelete
  by_cases hcurrent : number = db.current.number
  · -- no closed log has this number
    have hall : db.closed.filter (fun l => l.number ≠ number) = db.closed :=
      List.filter_eq_self.mpr fun l hl => decide_eq_true (hcurrent ▸ (h.closed l hl).ne)
    rw [hall]
    exact ⟨groups, h⟩
  unfold Database.minLogNumberToKeep at hlt
  by_cases h2pc : db.allow2pc = true
  · -- the recovery does not read the log any more
    rw [if_pos h2pc] at hlt
    have hall : db.replayed.filter (fun record => record.1 ≠ number) = db.replayed := by
      apply List.filter_eq_self.mpr
      intro record hrecord
      exact decide_eq_true (hlt.trans_le (of_decide_eq_true (List.mem_filter.mp hrecord).2)).ne'
    refine ⟨groups, h.congr ((replayed_deleteLog hcurrent).trans hall) ?_ le_rfl
      h.needed_current rfl (fun hf => ⟨h.families hf, h.ids hf⟩) ⟨rfl, rfl, rfl⟩⟩
    exact fun l hl => h.closed l (List.mem_of_mem_filter hl)
  · rw [if_neg h2pc] at hlt
    exact ⟨_, h.filter_closed (Bool.not_eq_true _ ▸ h2pc) hlt hcurrent⟩

/-- Every step keeps the invariant, for the groups that are then on disk. -/
theorem Inv.step (h : Inv db groups) {a : Action} (hvalid : Admissible db a)
    (hstep : step db a = some db') : ∃ groups', Inv db' groups' := by
  cases a with
  | write group =>
      obtain ⟨db₁, hwrite, hw⟩ := h.exists_written hvalid
      cases hwrite.symm.trans hstep
      exact ⟨_, h.written hvalid hw⟩
  | switchMemtable cf number => exact ⟨groups, h.switchMemtable hstep⟩
  | flush cf n => exact h.flush hvalid hstep
  | deleteLog number => exact h.deleteLog hstep

end Steps

theorem inv_init (allow2pc : Bool) (families : List (UInt32 × ColumnFamily)) {number : ℕ}
    (hnumber : 0 < number) : Inv (.init allow2pc families number) [] := by
  refine ⟨.nil, ?_, hnumber, trivial, ?_, List.pairwise_singleton _ _, List.pairwise_singleton _ _,
    Nat.zero_le _, ?_, .nil, ?_, ?_⟩
  · exact fun l hl => absurd hl List.not_mem_nil
  · exact fun a ha => absurd ha List.not_mem_nil
  · intro cf f hf
    obtain ⟨family, -, rfl⟩ := Option.map_eq_some_iff.mp hf
    exact ⟨le_rfl, fun _ _ _ hle => hle, fun s hs => absurd hs List.not_mem_nil, Nat.zero_le _,
      rfl⟩
  · exact fun _ g hg => absurd hg List.not_mem_nil
  · intro cf f hf
    obtain ⟨family, hfamily, -⟩ := Option.map_eq_some_iff.mp hf
    obtain ⟨front, back, hsplit, -⟩ := List.lookup_eq_some_iff.mp hfamily
    show cf ∈ families.map Prod.fst
    rw [hsplit]
    simp

theorem exists_inv {allow2pc : Bool} {families : List (UInt32 × ColumnFamily)} {number : ℕ}
    (hnumber : 0 < number) {actions : List Action} {db : Database}
    (hvalid : Along step Admissible (.init allow2pc families number) actions)
    (hrun : run step (.init allow2pc families number) actions = some db) :
    ∃ groups, Inv db groups := by
  apply run_invariant _ _ hvalid hrun
  · rintro s a t ⟨groups, h⟩ ha hstep
    exact h.step ha hstep
  · exact ⟨[], inv_init allow2pc families hnumber⟩

section Recovery
variable {db : Database} {groups : List Group}

theorem schema_reopened (db : Database) : schema db.reopened = schema db.columnFamilies := by
  funext cf
  unfold schema Database.reopened Database.columnFamilies
  cases db.families cf <;> rfl

/-- The recovery accepts the records of a chronicle. -/
theorem exists_recovered (hdisk : List.Forall₂ Holds db.replayed groups)
    (hchronicle : Chronicle (schema db.columnFamilies) db.allow2pc ⟨[], []⟩ groups) :
    ∃ r, db.recoverLogFiles = some (.ok, r) ∧ Recovered db.reopened (effect groups) r := by
  have hstart : Recovered db.reopened ⟨[], []⟩ ⟨db.reopened, [], none⟩ := by
    refine ⟨id, ?_, .nil, fun _ hq => absurd hq List.not_mem_nil,
      fun _ ha => absurd ha List.not_mem_nil⟩
    intro cf family hfamily
    obtain ⟨f, -, rfl⟩ := Option.map_eq_some_iff.mp hfamily
    exact ⟨_, hfamily, rfl⟩
  exact hstart.recoverRecords hdisk ((schema_reopened db).symm ▸ hchronicle)

theorem Recovered.exists_mem {r : Recovery} {t : Effect} (h : Recovered db.reopened t r)
    {cf : UInt32} {f : Family} (hf : db.families cf = some f) :
    ∃ mem, r.columnFamilies cf =
        some { f.toColumnFamily with logNumber := f.manifestLogNumber, mem } ∧
      mem.entries = fromLog f.manifestLogNumber cf t.history := by
  have hreopened : db.reopened cf =
      some { f.toColumnFamily with logNumber := f.manifestLogNumber, mem := ⟨[], 0⟩ } := by
    rw [Database.reopened, hf]
    rfl
  exact h.present hreopened

end Recovery

end PowerLawRocksdb.Durability
