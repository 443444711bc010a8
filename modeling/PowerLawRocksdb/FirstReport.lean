import PowerLawRocksdb.HeavyHitters

/-!
# The first report of a tracker

Until the first `ExtractTopK` the slots behind the live ones are still the pairs
`(0, 0)` of the constructor. The report is taken from all slots, after the least
count has been cleared. Its positive entries are the live slots other than the
cleared one. The zero counts that follow them are the cleared key and the unused
slots, in an order that the sort chooses.
-/
namespace PowerLawRocksdb.FirstReport
open SpaceSaving SpaceSavingUpdate CounterSummary StandardSort SpaceSavingWindow HeavyHitters

variable {m : ℕ}

/-- The slots that have not been written since construction. -/
def unused (t : Tracker m) : List Slot := List.replicate (m - t.numItems) (0, 0)

def Unwritten (t : Tracker m) : Prop := t.freqArray.drop t.numItems = unused t

theorem unwritten_init (m : ℕ) : Unwritten (Tracker.init m) := by
  simp [Unwritten, unused, Tracker.init]

theorem Unwritten.update {t u : Tracker m} {key : Key} (h : Unwritten t) (hu : Update t key u) :
    Unwritten u := by
  unfold Unwritten unused at h ⊢
  cases hu with
  | hit i c hi _ he hn => rw [he, hn, List.drop_set_of_lt hi, h]
  | add _ hm he hn =>
      have hdrop : t.freqArray.drop (t.numItems + 1) = (t.freqArray.drop t.numItems).drop 1 := by
        rw [List.drop_drop]
      rw [he, hn, List.drop_set_of_lt (Nat.lt_succ_self _), hdrop, h, List.drop_replicate,
        Nat.sub_sub]
  | replace i y c _ hm hi _ _ he hn => rw [he, hn, List.drop_set_of_lt (hi.trans_eq hm.symm), h]

/-- The tracker has processed `xs` since construction. -/
structure FirstWindow (t : Tracker m) (xs : List Key) : Prop where
  summarises : Summarises t xs
  unwritten : Unwritten t
  short : xs.length < 2 ^ 64

theorem processKeys_first (hm : 1 ≤ m) (w : Window) :
    ∃ t, processKeys (Tracker.init m) w.keys = some t ∧ FirstWindow t w.keys := by
  obtain ⟨t, ht, hs⟩ := WindowStart.processKeys (Or.inl rfl) hm w
  have hstep : ∀ (t : Tracker m) key u, Ready t ∧ Unwritten t → t.processKey key = some u →
      Ready u ∧ Unwritten u := by
    rintro t key u ⟨hready, hunwritten⟩ hu
    obtain ⟨u', hu', hupdate, hready', -⟩ := processKey_update hready hm key
    cases hu.symm.trans hu'
    exact ⟨hready', hunwritten.update hupdate⟩
  have hinit : Ready (Tracker.init m) ∧ Unwritten (Tracker.init m) :=
    ⟨⟨Nat.zero_le m, fun h => absurd h (Nat.lt_irrefl 0)⟩, unwritten_init m⟩
  exact ⟨t, ht, hs, (Transitions.run_preserves hstep hinit ht).2, w.short⟩

theorem FirstWindow.numItems {t : Tracker m} {xs : List Key} (h : FirstWindow t xs) :
    t.numItems = min xs.toFinset.card m := by
  rw [← h.summarises.card_eq, h.summarises.tracks.card_eq]

theorem FirstWindow.pos {t : Tracker m} {xs : List Key} (h : FirstWindow t xs) {p : Slot}
    (hp : p ∈ t.live) : 0 < p.2 :=
  (List.count_pos_iff.mpr (h.summarises.tracks.seen p hp)).trans_le (h.summarises.tracks.lower p hp)

theorem FirstWindow.freqArray_eq {t : Tracker m} {xs : List Key} (h : FirstWindow t xs) :
    t.freqArray = t.live ++ unused t := by
  rw [← h.unwritten, Tracker.live, List.take_append_drop]

/-- The array that the report is taken from. -/
theorem FirstWindow.cleared {t : Tracker m} {xs : List Key} (h : FirstWindow t xs)
    (hne : xs ≠ []) :
    ∃ i z cmin c, t.live[i]? = some (z, cmin) ∧ (∀ q ∈ t.live, cmin ≤ q.2) ∧
      t.clearMin = some c ∧ c.freqArray = t.live.set i (z, 0) ++ unused t := by
  have hready := h.summarises.ready
  obtain ⟨i, z, cmin, c, -, hi, hp, hmin, hclear, -, harr⟩ :=
    clearMin_eq hready.items_le (h.summarises.min hne)
  refine ⟨i, z, cmin, c, (getElem?_live t hi).trans hp, hmin, hclear, ?_⟩
  rw [harr, h.freqArray_eq, List.set_append_left _ _ (by rwa [length_live hready.items_le])]

theorem filter_unused (t : Tracker m) : (unused t).filter (ranked Prod.snd) = [] := by
  simp [unused, ranked]

/-- Exactly the other live slots have a positive count in the sorted array. -/
theorem FirstWindow.sorted_positive {t : Tracker m} {xs : List Key} (h : FirstWindow t xs) {i : ℕ}
    {z : Key} {cmin : ℕ} (hi : t.live[i]? = some (z, cmin)) (sort : StdSort Slot comparePair) :
    ((sort.run (t.live.set i (z, 0) ++ unused t)).filter (ranked Prod.snd)).Perm
      (t.live.eraseIdx i) := by
  have hall : ∀ p ∈ t.live.eraseIdx i, ranked Prod.snd p = true := fun p hp =>
    decide_eq_true (h.pos (List.mem_of_mem_eraseIdx hp))
  have hlt := (List.getElem?_eq_some_iff.mp hi).1
  refine ((sort.perm _).filter _).trans ?_
  rw [List.filter_append, filter_unused, List.append_nil]
  have hperm := (List.set_perm_cons_eraseIdx hlt (z, 0)).filter (ranked Prod.snd)
  rwa [List.filter_cons_of_neg (by simp [ranked]), List.filter_eq_self.mpr hall] at hperm

theorem FirstWindow.countP_sorted {t : Tracker m} {xs : List Key} (h : FirstWindow t xs) {i : ℕ}
    {z : Key} {cmin : ℕ} (hi : t.live[i]? = some (z, cmin)) (sort : StdSort Slot comparePair) :
    (sort.run (t.live.set i (z, 0) ++ unused t)).countP (ranked Prod.snd) =
      min xs.toFinset.card m - 1 := by
  rw [List.countP_eq_length_filter, (h.sorted_positive hi sort).length_eq, List.length_eraseIdx,
    if_pos (List.getElem?_eq_some_iff.mp hi).1, length_live h.summarises.ready.items_le, h.numItems]

theorem nodup_eraseIdx_keys {t : Tracker m} {xs : List Key} (h : Summarises t xs) {i : ℕ} {z : Key}
    {cmin : ℕ} (hi : t.live[i]? = some (z, cmin)) :
    ((z, cmin) :: t.live.eraseIdx i).map Prod.fst |>.Nodup := by
  obtain ⟨hlt, hget⟩ := List.getElem?_eq_some_iff.mp hi
  have hperm := (List.getElem_cons_eraseIdx_perm hlt).map Prod.fst
  rw [hget] at hperm
  exact hperm.nodup_iff.mpr (Multiset.coe_nodup.mp h.tracks.nodup)

/-- The report is taken from the positive part of the sorted array. -/
theorem FirstWindow.take_sorted {t : Tracker m} {xs : List Key} (h : FirstWindow t xs) {i : ℕ}
    {z : Key} {cmin : ℕ} (hi : t.live[i]? = some (z, cmin)) (sort : StdSort Slot comparePair)
    {k : ℕ} (hk : k ≤ min xs.toFinset.card m - 1) :
    (sort.run (t.live.set i (z, 0) ++ unused t)).take k =
      ((sort.run (t.live.set i (z, 0) ++ unused t)).filter (ranked Prod.snd)).take k := by
  rw [filter_eq_take_countP (sort.descends _), List.take_take, h.countP_sorted hi sort,
    min_eq_left hk]

theorem FirstWindow.mem_live {t : Tracker m} {xs : List Key} (h : FirstWindow t xs)
    (hd : xs.toFinset.card ≤ m) {x : Key} (hx : x ∈ xs) : (x, xs.count x) ∈ t.live := by
  obtain ⟨n, hn⟩ := mem_keys.mp (h.summarises.tracks.mem_keys_of_le hd hx)
  have hcount : n = xs.count x := h.summarises.tracks.exact hd _ hn
  rwa [← hcount]

/-- Clearing the count of `z` keeps the slots of all other keys. -/
theorem mem_set_of_key_ne {slots : List Slot} {i : ℕ} {z : Key} {cmin : ℕ} {p : Slot}
    (hi : slots[i]? = some (z, cmin)) (hp : p ∈ slots) (hne : p.1 ≠ z) :
    p ∈ slots.set i (z, 0) := by
  obtain ⟨j, hj⟩ := List.mem_iff_getElem?.mp hp
  have hij : i ≠ j := by
    rintro rfl
    cases hi.symm.trans hj
    exact hne rfl
  exact List.mem_of_getElem? ((List.getElem?_set_ne hij).trans hj)

/-- When nothing has been evicted, the report holds the most frequent keys with
their exact frequencies. It lacks one least frequent key, whose count was cleared. -/
theorem extractTopK_exact (w : Window) {k : ℕ} (hd : w.keys.toFinset.card ≤ m) (hk : 1 ≤ k)
    (hkd : k ≤ w.keys.toFinset.card - 1) (sort : StdSort Slot comparePair) :
    ∃ t topk u z, processKeys (Tracker.init m) w.keys = some t ∧
      t.extractTopK sort k = some (topk, u) ∧
      z ∈ w.keys ∧ (∀ x ∈ w.keys, w.keys.count z ≤ w.keys.count x) ∧
      topk.length = k ∧ (topk.map Prod.fst).Nodup ∧
      (∀ p ∈ topk, p.1 ∈ w.keys ∧ p.1 ≠ z ∧ p.2 = w.keys.count p.1) ∧
      (topk.Pairwise fun p q => q.2 ≤ p.2) ∧
      ∃ last, topk.getLast? = some last ∧
        ∀ x ∈ w.keys, x ≠ z → x ∉ topk.map Prod.fst → w.keys.count x ≤ last.2 := by
  obtain ⟨t, ht, h⟩ := processKeys_first (m := m) (by omega) w
  have hs := h.summarises
  have hne : w.keys ≠ [] := by
    intro he
    rw [he] at hkd
    simp at hkd
    omega
  obtain ⟨i, z, cmin, c, hi, hmin, hclear, harr⟩ := h.cleared hne
  have hz : (z, cmin) ∈ t.live := List.mem_of_getElem? hi
  have hcmin : cmin = w.keys.count z := hs.tracks.exact hd _ hz
  have hpositive := h.sorted_positive hi sort
  have htopk := h.take_sorted hi sort (show k ≤ min w.keys.toFinset.card m - 1 by omega)
  rw [← harr] at hpositive htopk
  have hsub : ∀ p ∈ (sort.run c.freqArray).take k, p ∈ t.live.eraseIdx i := by
    intro p hp
    rw [htopk] at hp
    exact hpositive.mem_iff.mp (List.mem_of_mem_take hp)
  have hnodup := nodup_eraseIdx_keys hs hi
  rw [List.map_cons, List.nodup_cons] at hnodup
  have hkm : k ≤ m := by omega
  have hlength : ((sort.run c.freqArray).take k).length = k := by
    rw [List.length_take, sort.length_run, c.size, min_eq_left hkm]
  refine ⟨t, _, _, z, ht, extractTopK_of_clearMin hclear hkm sort, hs.tracks.seen _ hz, ?_,
    hlength, ?_, ?_, (sort.descends _).sublist (List.take_sublist ..), ?_⟩
  · intro x hx
    rw [← hcmin]
    exact hmin _ (h.mem_live hd hx)
  · rw [htopk]
    exact ((hpositive.map Prod.fst).nodup_iff.mpr hnodup.2).sublist
      ((List.take_sublist k _).map Prod.fst)
  · intro p hp
    have hmem := hsub p hp
    have hplive := List.mem_of_mem_eraseIdx hmem
    refine ⟨hs.tracks.seen _ hplive, ?_, hs.tracks.exact hd _ hplive⟩
    rintro rfl
    exact hnodup.1 (List.mem_map.mpr ⟨p, hmem, rfl⟩)
  · refine ⟨_, List.getLast?_eq_some_getLast (List.ne_nil_of_length_pos (by omega)), ?_⟩
    intro x hx hxz hnot
    have hmem : (x, w.keys.count x) ∈ c.freqArray := by
      rw [harr]
      exact List.mem_append_left _ (mem_set_of_key_ne hi (h.mem_live hd hx) hxz)
    rcases sort.mem_take_or_drop hmem k with htake | hdrop
    · exact absurd (List.mem_map_of_mem htake) hnot
    · exact sort.take_drop (List.getLast_mem _) hdrop

theorem extractTopK_exact_two :
    ∃ t topk u, processKeys (Tracker.init 3) [7, 5, 7, 9, 5, 7] = some t ∧
      t.extractTopK (.descending Prod.snd) 2 = some (topk, u) ∧
      ∀ p ∈ topk, p.2 = [7, 5, 7, 9, 5, 7].count p.1 := by
  obtain ⟨t, topk, u, z, ht, hext, -, -, -, -, hexact, -⟩ := extractTopK_exact (m := 3)
    ⟨[7, 5, 7, 9, 5, 7], by decide⟩ (k := 2) (by decide) (by decide) (by decide)
    (.descending Prod.snd)
  exact ⟨t, topk, u, ht, hext, fun p hp => (hexact p hp).2.2⟩

/-- Two keys, one of them processed `2 ^ 64` times: its count is back at 0, and so
is the count in the report. -/
theorem exact_report_wraps :
    ∃ t u, (List.replicate (2 ^ 64) 5 ++ [7] : List Key).toFinset.card = 2 ∧
      processKeys (Tracker.init 2) (List.replicate (2 ^ 64) 5 ++ [7]) = some t ∧
      t.extractTopK (.descending Prod.snd) 1 = some ([(5, 0)], u) ∧
      (List.replicate (2 ^ 64) 5 ++ [7] : List Key).count 5 = 2 ^ 64 := by
  refine ⟨⟨[(5, 0), (7, 1)], 2, 1, rfl⟩, ⟨[(5, 0), (7, 0)], 0, 1, rfl⟩, ?_, ?_, rfl, ?_⟩
  · rw [List.toFinset_append, List.toFinset_replicate_of_ne_zero (by decide)]
    decide
  · rw [processKeys_wrapped]
    rfl
  · rw [List.count_append, List.count_replicate_self]
    rfl

end PowerLawRocksdb.FirstReport
