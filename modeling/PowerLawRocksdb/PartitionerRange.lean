import PowerLawRocksdb.Partitioner

/-!
# The range of the merge

A run of the partitioner asks every instance for `3 * k` entries, and merges them
in `k` rounds per instance. Once no positive count is left under a cursor below
`k`, every further round moves the cursor of the first report. Up to three
instances there are no more rounds than entries, so no round reads past the end of
a report. With a fourth instance, reports of zero counts alone exhaust the first
one.
-/
namespace PowerLawRocksdb.Partitioner
open SpaceSaving

variable {k : ℕ} {topks : List TopkData} {key : Key}

/-- The cursors count the entries merged so far. -/
def Merge.Counted (topks : List TopkData) (s : Merge) : Prop :=
  s.curs.length = topks.length ∧ s.curs.sum = s.merged.length

theorem counted_start : Merge.Counted topks ⟨[], List.replicate topks.length 0, ∅⟩ := by
  constructor
  · simp
  · simp

theorem round_counted (hlong : ∀ topk ∈ topks, k * topks.length ≤ topk.length) {s : Merge}
    (h : s.Counted topks) (hlt : s.merged.length < k * topks.length) :
    ∃ s', round k topks s = some s' ∧ s'.merged.length = s.merged.length + 1 ∧
      s'.Counted topks := by
  obtain ⟨i, cur, p, hcur, -, -, hs'⟩ := round_eq hlong h.1 h.2 hlt
  refine ⟨_, hs', by simp, ?_⟩
  constructor
  · simp [h.1]
  · simp [sum_set_add hcur, h.2]

theorem rounds_counted (hlong : ∀ topk ∈ topks, k * topks.length ≤ topk.length) {s : Merge}
    (h : s.Counted topks) {n : ℕ} (hn : s.merged.length + n ≤ k * topks.length) :
    ∃ s', rounds k topks n s = some s' ∧ s'.merged.length = s.merged.length + n := by
  induction n generalizing s with
  | zero => exact ⟨s, rfl, rfl⟩
  | succ n ih =>
      obtain ⟨s', hs', hlen, h'⟩ := round_counted hlong h (by omega)
      obtain ⟨r, hr, hrlen⟩ := ih h' (by omega)
      refine ⟨r, ?_, by omega⟩
      rw [rounds, hs', Option.bind_some, hr]

theorem merge_defined (hlong : ∀ topk ∈ topks, k * topks.length ≤ topk.length) :
    ∃ s, merge k topks = some s ∧ s.merged.length = k * topks.length := by
  obtain ⟨s, hs, hlen⟩ := rounds_counted hlong counted_start (Nat.zero_add _).le
  exact ⟨s, hs, by simpa using hlen⟩

/-- Reports of one key with count zero. -/
def idleReports (key : Key) (k num : ℕ) : List TopkData :=
  List.replicate num (List.replicate (3 * k) (key, 0))

@[simp] theorem length_idleReports (num : ℕ) : (idleReports key k num).length = num :=
  List.length_replicate

theorem length_of_mem_idleReports {num : ℕ} {topk : TopkData}
    (h : topk ∈ idleReports key k num) : topk.length = 3 * k := by
  rw [List.eq_of_mem_replicate h, List.length_replicate]

theorem key_of_mem_idleReports {num : ℕ} {topk : TopkData} (h : topk ∈ idleReports key k num)
    {p : Slot} (hp : p ∈ topk) : p.1 = key := by
  rw [List.eq_of_mem_replicate h] at hp
  rw [List.eq_of_mem_replicate hp]

theorem entry_idleReports {num i cur : ℕ} (hi : i < num) :
    entry (idleReports key k num) i cur = if cur < 3 * k then some (key, 0) else none := by
  simp [entry, idleReports, hi, List.getElem?_replicate]

theorem candidate_idleReports {num : ℕ} {curs : List ℕ} (hcurs : curs.length = num) {i c : ℕ}
    (h : Candidate k (idleReports key k num) curs i c) : c = 0 := by
  obtain ⟨cur, p, hcur, hk, hp, rfl⟩ := h
  have hi : i < num := hcurs ▸ (List.getElem?_eq_some_iff.mp hcur).1
  rw [entry_idleReports hi, if_pos (by omega)] at hp
  cases hp
  rfl

/-- On such reports every round moves the first cursor, until it leaves the report. -/
theorem rounds_idleReports {num n r : ℕ} (hn : n ≤ 3 * k) (hr : 3 * k < n + r) {s : Merge}
    (hcurs : s.curs.length = num) (h0 : s.curs[0]? = some n) :
    rounds k (idleReports key k num) r s = none := by
  have hnum : 0 < num := hcurs ▸ (List.getElem?_eq_some_iff.mp h0).1
  have hlong : ∀ topk ∈ idleReports key k num, k ≤ topk.length := by
    intro topk htopk
    rw [length_of_mem_idleReports htopk]
    omega
  induction r generalizing n s with
  | zero => omega
  | succ r ih =>
      rw [rounds, round_fallback hlong (hcurs.trans (length_idleReports num).symm)
        (fun _ _ => candidate_idleReports hcurs) h0, entry_idleReports hnum]
      split_ifs with hlt
      · apply ih (n := n + 1) hlt (by omega)
        · simp [hcurs]
        · simp [hcurs, hnum]
      · rfl

/-- All accesses of the merge are inside reports of `3 * k` entries, whatever these
hold, exactly for at most three instances. -/
theorem merge_in_range_iff {num : ℕ} (hk : 0 < k) :
    (∀ topks : List TopkData, topks.length = num → (∀ topk ∈ topks, topk.length = 3 * k) →
      (merge k topks).isSome) ↔ num ≤ 3 := by
  constructor
  · intro h
    by_contra hnum
    have hsome := h (idleReports 0 k num) (length_idleReports num) fun _ =>
      length_of_mem_idleReports
    have hmul : k * 4 ≤ k * num := Nat.mul_le_mul_left k (by omega)
    rw [merge, length_idleReports, rounds_idleReports (n := 0) (Nat.zero_le _) (by omega)
      List.length_replicate (List.getElem?_replicate_of_lt (by omega))] at hsome
    exact absurd hsome (by simp)
  · rintro hnum topks rfl hlen
    have hlong : ∀ topk ∈ topks, k * topks.length ≤ topk.length := by
      intro topk htopk
      rw [hlen topk htopk, Nat.mul_comm]
      exact Nat.mul_le_mul_right k hnum
    obtain ⟨s, hs, -⟩ := merge_defined hlong
    rw [hs, Option.isSome_some]

theorem merge_in_range_three :
    (merge 1 [[(7, 3), (5, 2), (0, 0)], [(5, 9), (0, 0), (0, 0)],
      [(0, 0), (0, 0), (0, 0)]]).isSome :=
  (merge_in_range_iff (k := 1) Nat.one_pos).mpr le_rfl _ rfl (by decide)

end PowerLawRocksdb.Partitioner
