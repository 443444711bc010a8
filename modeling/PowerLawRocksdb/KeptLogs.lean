import PowerLawRocksdb.LogHistory

/-!
# Which logs a column family needs

The memtables of a column family share out what is in the logs from its log number on. The
boundaries between them are log numbers, so that a column family that has flushed a
memtable is past the logs before the boundary. One without data in memory may skip logs
without writing this to the manifest.
-/
namespace PowerLawRocksdb.KeptLogs
open MemTableInserter RecordReplay LogLifeCycle LogHistory

/-- With `h n` as what is in the logs from `n` on, the memtables share it out, and each
boundary is the number of a log. -/
def Chain (h : ℕ → List MemEntry) (current : ℕ) : ℕ → List Sealed → List MemEntry → Prop
  | n, [], mem => n ≤ current ∧ h n = mem
  | n, s :: imm, mem =>
      n ≤ s.nextLogNumber ∧ h n = s.entries ++ h s.nextLogNumber ∧
        Chain h current s.nextLogNumber imm mem

section Chain
variable {h h' : ℕ → List MemEntry} {current n : ℕ} {imm : List Sealed} {mem : List MemEntry}

theorem Chain.le_current (hc : Chain h current n imm mem) : n ≤ current := by
  induction imm generalizing n with
  | nil => exact hc.1
  | cons s imm ih => exact hc.1.trans (ih hc.2.2)

theorem Chain.total (hc : Chain h current n imm mem) :
    h n = imm.flatMap Sealed.entries ++ mem := by
  induction imm generalizing n with
  | nil => exact hc.2
  | cons s imm ih => rw [hc.2.1, ih hc.2.2, List.flatMap_cons, List.append_assoc]

theorem Chain.extend {added : List MemEntry} (hh : ∀ k ≤ current, h' k = h k ++ added)
    (hc : Chain h current n imm mem) : Chain h' current n imm (mem ++ added) := by
  induction imm generalizing n with
  | nil => exact ⟨hc.1, by rw [hh n hc.1, hc.2]⟩
  | cons s imm ih =>
      refine ⟨hc.1, ?_, ih hc.2.2⟩
      rw [hh n hc.le_current, hh _ hc.2.2.le_current, hc.2.1, List.append_assoc]

theorem Chain.mono {current' : ℕ} (hle : current ≤ current') (hc : Chain h current n imm mem) :
    Chain h current' n imm mem := by
  induction imm generalizing n with
  | nil => exact ⟨hc.1.trans hle, hc.2⟩
  | cons s imm ih => exact ⟨hc.1, hc.2.1, ih hc.2.2⟩

theorem Chain.congr (hh : ∀ k, n ≤ k → h' k = h k) (hc : Chain h current n imm mem) :
    Chain h' current n imm mem := by
  induction imm generalizing n with
  | nil => exact ⟨hc.1, by rw [hh n le_rfl, hc.2]⟩
  | cons s imm ih =>
      refine ⟨hc.1, ?_, ih (fun k hk => hh k (hc.1.trans hk)) hc.2.2⟩
      rw [hh n le_rfl, hh _ hc.1, hc.2.1]

/-- The last memtable is sealed when nothing has been written to the log `next` yet. -/
theorem Chain.seal {next ref : ℕ} (hle : current ≤ next) (hnext : h next = [])
    (hc : Chain h current n imm mem) : Chain h next n (imm ++ [⟨mem, next, ref⟩]) [] := by
  induction imm generalizing n with
  | nil => exact ⟨hc.1.trans hle, by rw [hc.2, hnext, List.append_nil], le_rfl, hnext⟩
  | cons s imm ih => exact ⟨hc.1, hc.2.1, ih hc.2.2⟩

theorem Chain.drop {k : ℕ} {last : Sealed} (hlast : (imm.take (k + 1)).getLast? = some last)
    (hc : Chain h current n imm mem) :
    n ≤ last.nextLogNumber ∧ Chain h current last.nextLogNumber (imm.drop (k + 1)) mem := by
  induction imm generalizing n k with
  | nil => cases hlast
  | cons s imm ih =>
      cases k with
      | zero =>
          cases hlast
          exact ⟨hc.1, hc.2.2⟩
      | succ k =>
          rw [List.take_succ_cons, List.getLast?_cons] at hlast
          cases imm with
          | nil =>
              rw [List.take_nil] at hlast
              cases hlast
              exact ⟨hc.1, hc.2.2⟩
          | cons s' imm =>
              cases hrest : ((s' :: imm).take (k + 1)).getLast? with
              | none => simp at hrest
              | some last' =>
                  rw [hrest] at hlast
                  cases hlast
                  obtain ⟨hle, hdrop⟩ := ih hrest hc.2.2
                  exact ⟨hc.1.trans hle, hdrop⟩

end Chain

/-- The column family can be rebuilt from the logs with this history. -/
structure Kept (history : List (ℕ × UInt32 × MemEntry)) (current : ℕ) (cf : UInt32) (f : Family) :
    Prop where
  manifest_le : f.manifestLogNumber ≤ f.logNumber
  manifest : ∀ a ∈ history, a.2.1 = cf → f.manifestLogNumber ≤ a.1 → f.logNumber ≤ a.1
  boundary : ∀ s ∈ f.imm, 0 < s.nextLogNumber
  chain : Chain (fun n => fromLog n cf history) current f.logNumber f.imm f.mem.entries

section Kept
variable {history : List (ℕ × UInt32 × MemEntry)} {current : ℕ} {cf : UInt32} {f : Family}

theorem fromLog_eq (n : ℕ) (cf : UInt32) (history : List (ℕ × UInt32 × MemEntry)) :
    fromLog n cf history =
      (history.filter fun a => a.2.1 = cf ∧ n ≤ a.1).map fun a => a.2.2 := by
  rw [fromLog, forFamily, List.filter_map, List.filter_filter, List.map_map]
  simp only [Function.comp_def, Bool.decide_and]

/-- The memtables hold what the manifest's log number asks for. -/
theorem Kept.unflushed (h : Kept history current cf f) :
    fromLog f.manifestLogNumber cf history =
      f.imm.flatMap Sealed.entries ++ f.mem.entries := by
  rw [← h.chain.total, fromLog_eq, fromLog_eq]
  congr 1
  apply List.filter_congr
  intro a ha
  rw [decide_eq_decide]
  constructor
  · rintro ⟨hcf, hle⟩
    exact ⟨hcf, h.manifest a ha hcf hle⟩
  · rintro ⟨hcf, hle⟩
    exact ⟨hcf, h.manifest_le.trans hle⟩

theorem Kept.mem_history (h : Kept history current cf f) {e : MemEntry}
    (he : e ∈ f.mem.entries) : ∃ a ∈ history, a.2.2 = e := by
  have hmem : e ∈ fromLog f.logNumber cf history := by
    rw [h.chain.total]
    exact List.mem_append_right _ he
  obtain ⟨a, ha, -, hcf⟩ := mem_of_mem_fromLog hmem
  exact ⟨a, ha, by rw [hcf]⟩

theorem Kept.extend {added : List (UInt32 × MemEntry)} (h : Kept history current cf f)
    {family : ColumnFamily} (hnumber : family.logNumber = f.logNumber)
    (hmem : family.mem.entries = f.mem.entries ++ forFamily cf added) :
    Kept (history ++ added.map (Prod.mk current)) current cf (f.setColumnFamily (some family)) where
  manifest_le := by
    show f.manifestLogNumber ≤ family.logNumber
    rw [hnumber]
    exact h.manifest_le
  manifest a ha hcf hle := by
    show family.logNumber ≤ a.1
    rw [hnumber]
    rw [List.mem_append, List.mem_map] at ha
    rcases ha with ha | ⟨b, -, rfl⟩
    · exact h.manifest a ha hcf hle
    · exact h.chain.le_current
  boundary := h.boundary
  chain := by
    show Chain _ current family.logNumber f.imm family.mem.entries
    rw [hnumber, hmem]
    apply h.chain.extend
    intro k hk
    rw [fromLog_append, fromLog_log, if_pos hk]

theorem Kept.mono {next : ℕ} (hle : current ≤ next) (h : Kept history current cf f) :
    Kept history next cf f := ⟨h.manifest_le, h.manifest, h.boundary, h.chain.mono hle⟩

theorem Kept.seal {next : ℕ} (hpos : 0 < next) (hle : current ≤ next)
    (hnew : ∀ a ∈ history, a.1 < next) (h : Kept history current cf f) :
    Kept history next cf (f.seal next) := by
  refine ⟨h.manifest_le, h.manifest, ?_, h.chain.seal hle (fromLog_eq_nil hnew)⟩
  intro s hs
  rcases List.mem_append.mp hs with hs | hs
  · exact h.boundary s hs
  · rw [List.mem_singleton.mp hs]
    exact hpos

theorem Kept.advance {next : ℕ} (hle : current ≤ next) (hnew : ∀ a ∈ history, a.1 < next)
    (h : Kept history current cf f) : Kept history next cf (f.advance next) := by
  unfold Family.advance
  split_ifs with hempty
  · rw [List.isEmpty_iff, List.isEmpty_iff] at hempty
    refine ⟨h.manifest_le.trans (h.chain.le_current.trans hle), ?_, h.boundary, ?_⟩
    · intro a ha hcf hmanifest
      have hnone : fromLog f.logNumber cf history = [] := by
        rw [h.chain.total, hempty.1, hempty.2]
        rfl
      rw [fromLog_eq, List.map_eq_nil_iff, List.filter_eq_nil_iff] at hnone
      exact absurd (decide_eq_true ⟨hcf, h.manifest a ha hcf hmanifest⟩) (hnone a ha)
    · show Chain _ next next f.imm f.mem.entries
      rw [hempty.1, hempty.2]
      exact ⟨le_rfl, fromLog_eq_nil hnew⟩
  · exact h.mono hle

theorem flush_eq_some {n : ℕ} {f' : Family} (hflush : f.flush n = some f') :
    ∃ last, (f.imm.take (n + 1)).getLast? = some last ∧ f' = { f with
      imm := f.imm.drop (n + 1)
      tables := f.tables ++ (f.imm.take (n + 1)).flatMap Sealed.entries
      logNumber := last.nextLogNumber
      manifestLogNumber := last.nextLogNumber } := by
  obtain ⟨last, hlast, hrest⟩ := Option.bind_eq_some_iff.mp hflush
  split_ifs at hrest
  cases hrest
  exact ⟨last, hlast, rfl⟩

theorem Kept.flush {n : ℕ} {f' : Family} (hflush : f.flush n = some f')
    (h : Kept history current cf f) : Kept history current cf f' ∧ 0 < f'.logNumber := by
  obtain ⟨last, hlast, rfl⟩ := flush_eq_some hflush
  obtain ⟨-, hdrop⟩ := h.chain.drop hlast
  refine ⟨⟨le_rfl, fun _ _ _ hle => hle, ?_, hdrop⟩, ?_⟩
  · exact fun s hs => h.boundary s (List.mem_of_mem_drop hs)
  · exact h.boundary last (List.mem_of_mem_take (List.mem_of_getLast? hlast))

/-- The log number never decreases, so that what `LogAndApply` asserts is true. -/
theorem Kept.flush_isSome (h : Kept history current cf f) (himm : f.imm ≠ []) (n : ℕ) :
    (f.flush n).isSome = true := by
  unfold Family.flush
  cases hlast : (f.imm.take (n + 1)).getLast? with
  | none => simp [himm] at hlast
  | some last =>
      obtain ⟨hle, -⟩ := h.chain.drop hlast
      simp only [hlast, Option.bind_eq_bind, Option.bind_some, if_neg (Nat.not_lt.mpr hle)]
      rfl

/-- The history of logs that the column family is past does not matter. -/
theorem Kept.congr {history' : List (ℕ × UInt32 × MemEntry)} (hsub : history' ⊆ history)
    (hsame : ∀ k, f.logNumber ≤ k → fromLog k cf history' = fromLog k cf history)
    (h : Kept history current cf f) : Kept history' current cf f :=
  ⟨h.manifest_le, fun a ha => h.manifest a (hsub ha), h.boundary, h.chain.congr hsame⟩

end Kept

end PowerLawRocksdb.KeptLogs
