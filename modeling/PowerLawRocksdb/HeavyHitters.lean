import PowerLawRocksdb.SpaceSavingWindow

/-!
# Heavy keys are reported

`ExtractTopK` clears the least count, sorts all slots and returns the first `k`.
When the array is full, a key that makes up more than a `k + 1`-th of the window
is monitored, its count is above the least one, and at most `k` slots count as
much. So it is among the first `k`, whatever order the sort gives to ties, and
clearing the least slot cannot hit it.
-/
namespace PowerLawRocksdb.HeavyHitters
open SpaceSaving SpaceSavingUpdate CounterSummary StandardSort SpaceSavingWindow

variable {m : ℕ}

theorem live_eq_of_full {t : Tracker m} (hfull : t.numItems = m) : t.live = t.freqArray := by
  exact List.take_of_length_le (by rw [t.size, hfull])

theorem clearMin_eq {t : Tracker m} (hle : t.numItems ≤ m) (h : MinIsLive t) :
    ∃ i y cmin c, t.minKeyIndex = (i : ℕ) ∧ i < t.numItems ∧ t.freqArray[i]? = some (y, cmin) ∧
      (∀ q ∈ t.live, cmin ≤ q.2) ∧ t.clearMin = some c ∧ c.numItems = t.numItems ∧
      c.freqArray = t.freqArray.set i (y, 0) := by
  obtain ⟨i, ⟨y, cmin⟩, hidx, hi, hp, hmin⟩ := h
  refine ⟨i, y, cmin,
    { t with freqArray := t.freqArray.set i (y, 0), size := by simp [t.size] },
    hidx, hi, hp, hmin, ?_, rfl, rfl⟩
  simp only [Tracker.clearMin, hidx, t.read_nat, hp, Option.bind_eq_bind, Option.bind_some]
  exact (t.write_of_lt (by omega) _).trans (by rw [hidx])

theorem countP_heavy_le {slots : List Slot} {i k c : ℕ} {p : Slot} (hp : slots[i]? = some p)
    (hc : total (slots : Summary Key) < c * (k + 1)) :
    (slots.set i (p.1, 0)).countP (fun q => decide (c ≤ q.2)) ≤ k := by
  have hi : i < slots.length := (List.getElem?_eq_some_iff.mp hp).choose
  have hpos : 0 < c := Nat.pos_of_ne_zero fun h => by simp [h] at hc
  have hset : (slots.set i (p.1, 0)).countP (fun q => decide (c ≤ q.2)) =
      (slots.eraseIdx i).countP (fun q => decide (c ≤ q.2)) := by
    rw [(List.set_perm_cons_eraseIdx hi (p.1, 0)).countP_eq, List.countP_cons_of_neg]
    simpa using hpos.ne'
  rw [hset, List.countP_eq_length_filter, ← Multiset.coe_card]
  refine card_heavy_le (S := (slots : Summary Key)) ?_ fun q hq => ?_
  · exact Multiset.coe_le.mpr
      (List.filter_sublist.trans (List.eraseIdx_sublist ..)).subperm
  · have hcq : c ≤ q.2 := by simpa using (List.mem_filter.mp hq).2
    exact hc.trans_le (Nat.mul_le_mul_right _ hcq)

/-- A heavy key is among the first `k` slots of the sorted array. -/
theorem heavy_mem_take {t c : Tracker m} {xs : List Key} (h : Summarises t xs)
    (hfull : t.numItems = m) {k : ℕ} (hk : k < m) (hclear : t.clearMin = some c)
    (sort : StdSort Slot comparePair) {x : Key} (hx : xs.length < xs.count x * (k + 1)) :
    ∃ cnt, (x, cnt) ∈ (sort.run c.freqArray).take k ∧ xs.count x ≤ cnt ∧
      m * (cnt - xs.count x) ≤ xs.length := by
  have h0 : 0 < m := by omega
  have hxs : xs ≠ [] := fun he => by simp [he] at hx
  obtain ⟨i, y, cmin, c', hidx, hi, hp, -, hclear', -, harr⟩ :=
    clearMin_eq h.ready.items_le (h.min hxs)
  cases hclear.symm.trans hclear'
  obtain ⟨y', cmin', hread, hmon, hmiss, hN⟩ := h.full h0 hfull
  rw [hidx, t.read_nat, hp] at hread
  cases hread
  have hcmin : cmin * (k + 1) ≤ xs.length := by
    rw [Nat.mul_comm]
    exact (Nat.mul_le_mul_right cmin (by omega)).trans hN
  -- an unmonitored key is no more frequent than the least count, so `x` is monitored
  obtain ⟨cnt, hcnt⟩ : ∃ cnt, countOf t x = some cnt := by
    cases hc : countOf t x with
    | some cnt => exact ⟨cnt, rfl⟩
    | none =>
        have := Nat.mul_le_mul_right (k + 1) (hmiss x hc)
        omega
  obtain ⟨hlow, hup⟩ := hmon x cnt hcnt
  have hheavy : total (t.freqArray : Summary Key) < cnt * (k + 1) := by
    rw [← live_eq_of_full hfull, h.tracks.total_eq]
    exact hx.trans_le (Nat.mul_le_mul_right _ hlow)
  have hmem : (x, cnt) ∈ c.freqArray := by
    obtain ⟨j, hj, hj'⟩ := exists_get_of_mem (mem_live_of_countOf hcnt)
    have hij : i ≠ j := by
      rintro rfl
      cases hp.symm.trans hj'
      rw [← live_eq_of_full hfull, h.tracks.total_eq] at hheavy
      omega
    rw [harr]
    exact List.mem_of_getElem? ((List.getElem?_set_ne hij).trans hj')
  refine ⟨cnt, sort.mem_take_of_countP_le hmem ?_, hlow, ?_⟩
  · rw [harr]
    exact countP_heavy_le hp hheavy
  · exact (Nat.mul_le_mul_left m (by omega)).trans hN

theorem extractTopK_defined {t : Tracker m} (hle : t.numItems ≤ m) (hmin : MinIsLive t) {k : ℕ}
    (hk : k ≤ m) (sort : StdSort Slot comparePair) :
    ∃ c, t.clearMin = some c ∧ t.extractTopK sort k =
      some ((sort.run c.freqArray).take k, (c.sortSlots sort).resetFreqArray) := by
  obtain ⟨i, y, cmin, c, -, -, -, -, hclear, -, -⟩ := clearMin_eq hle hmin
  exact ⟨c, hclear, extractTopK_of_clearMin hclear hk sort⟩

/-- Every key that makes up more than a `k + 1`-th of a window is among the `k`
pairs reported at its end, with an error of at most an `m`-th of the window. -/
theorem extractTopK_reports_heavy {t₀ t : Tracker m} (h₀ : WindowStart t₀) (w : Window)
    (ht : processKeys t₀ w.keys = some t) (hfull : t.numItems = m) {k : ℕ} (hk : k < m)
    (sort : StdSort Slot comparePair) :
    ∃ topk u, t.extractTopK sort k = some (topk, u) ∧ topk.length = k ∧
      ∀ x, w.keys.count x * (k + 1) > w.keys.length →
        ∃ c, (x, c) ∈ topk ∧ w.keys.count x ≤ c ∧ m * (c - w.keys.count x) ≤ w.keys.length := by
  obtain ⟨t', ht', hs⟩ := h₀.processKeys (by omega) w
  cases ht.symm.trans ht'
  have hne : w.keys ≠ [] := fun he => by
    rw [he] at ht
    cases ht
    have := h₀.numItems
    omega
  obtain ⟨c, hclear, hext⟩ := extractTopK_defined hs.ready.items_le (hs.min hne) hk.le sort
  refine ⟨_, _, hext, ?_, fun x hx => heavy_mem_take hs hfull hk hclear sort hx⟩
  rw [List.length_take, sort.length_run, c.size]
  omega

theorem extractTopK_reports_heavy_evicting :
    ∃ topk, (processKeys (Tracker.init 2) [5, 5, 7, 9, 5]).bind
        (fun t => (t.extractTopK (.descending Prod.snd) 1).map Prod.fst) = some topk ∧
      ∃ c, (5, c) ∈ topk := by
  obtain ⟨t, ht, hfull⟩ : ∃ t, processKeys (Tracker.init 2) [5, 5, 7, 9, 5] = some t ∧
      t.numItems = 2 := ⟨_, rfl, rfl⟩
  obtain ⟨topk, u, he, -, hheavy⟩ := extractTopK_reports_heavy (Or.inl rfl)
    ⟨[5, 5, 7, 9, 5], by decide⟩ ht hfull (show 1 < 2 by decide) (.descending Prod.snd)
  obtain ⟨c, hc, -⟩ := hheavy 5 (by decide)
  exact ⟨topk, by rw [ht, Option.bind_some, he]; rfl, c, hc⟩

/-- In a longer window a count can wrap: the key 5 makes up almost all of it and is
reported, but with the count 0. -/
theorem heavy_count_wraps :
    (List.replicate (2 ^ 64) 5 ++ [7] : List Key).count 5 * (1 + 1) >
        (List.replicate (2 ^ 64) 5 ++ [7] : List Key).length ∧
      ∃ t topk u, processKeys (Tracker.init 2) (List.replicate (2 ^ 64) 5 ++ [7]) = some t ∧
        t.numItems = 2 ∧ t.extractTopK (.descending Prod.snd) 1 = some (topk, u) ∧
        ∀ c, (5, c) ∈ topk → c < (List.replicate (2 ^ 64) 5 ++ [7] : List Key).count 5 := by
  have hcount : (List.replicate (2 ^ 64) 5 ++ [7] : List Key).count 5 = 2 ^ 64 := by
    rw [List.count_append, List.count_replicate_self]
    rfl
  refine ⟨?_, ⟨[(5, 0), (7, 1)], 2, 1, rfl⟩, [(5, 0)], ⟨[(5, 0), (7, 0)], 0, 1, rfl⟩, ?_, rfl,
    rfl, ?_⟩
  · rw [hcount, List.length_append, List.length_replicate]
    decide
  · rw [processKeys_wrapped]
    rfl
  · intro c hc
    rw [hcount]
    cases List.mem_singleton.mp hc
    decide

end PowerLawRocksdb.HeavyHitters
