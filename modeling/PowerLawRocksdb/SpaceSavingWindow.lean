import PowerLawRocksdb.CounterSummary
import PowerLawRocksdb.SpaceSavingUpdate
import PowerLawRocksdb.Transitions

/-!
# One reporting window of the array tracker

A window starts at construction or at the end of an `ExtractTopK`, and then
consists of `ProcessKey` calls. The live slots are read as a counter summary, and
each call makes one step of the summary.

The slots behind the live prefix and the index left by an earlier window play no
part: the first call of a window sets the index before it is read.
-/
namespace PowerLawRocksdb.SpaceSavingWindow
open SpaceSaving SpaceSavingUpdate CounterSummary StandardSort

variable {m : ℕ}

/-- The tracker holds a summary of the keys `xs` of the current window. -/
structure Summarises (t : Tracker m) (xs : List Key) : Prop where
  ready : Ready t
  tracks : Tracks m xs (t.live : Summary Key)
  min : xs ≠ [] → MinIsLive t

theorem coe_eq_cons_eraseIdx {l : List Slot} {i : ℕ} {p : Slot} (h : l[i]? = some p) :
    (l : Summary Key) = p ::ₘ (l.eraseIdx i : Summary Key) := by
  obtain ⟨hi, rfl⟩ := List.getElem?_eq_some_iff.mp h
  rw [Multiset.cons_coe, Multiset.coe_eq_coe]
  exact (List.getElem_cons_eraseIdx_perm hi).symm

theorem coe_set_eq_cons_eraseIdx {l : List Slot} {i : ℕ} {p : Slot} (h : l[i]? = some p)
    (q : Slot) : (l.set i q : Summary Key) = q ::ₘ (l.eraseIdx i : Summary Key) := by
  rw [Multiset.cons_coe, Multiset.coe_eq_coe]
  exact List.set_perm_cons_eraseIdx (List.getElem?_eq_some_iff.mp h).choose q

theorem not_mem_keys {l : List Slot} {key : Key} (h : ∀ p ∈ l, p.1 ≠ key) :
    key ∉ keys (l : Summary Key) := by
  intro hk
  obtain ⟨c, hc⟩ := mem_keys.mp hk
  exact h _ hc rfl

theorem Summarises.card_eq {t : Tracker m} {xs : List Key} (h : Summarises t xs) :
    (t.live : Summary Key).card = t.numItems := by
  rw [Multiset.coe_card, length_live h.ready.items_le]

theorem Summarises.ne_nil {t : Tracker m} {xs : List Key} (h : Summarises t xs)
    (hn : 0 < t.numItems) : xs ≠ [] := by
  rintro rfl
  have := h.tracks.keys_le
  rw [h.card_eq] at this
  exact absurd this (by simpa using hn.ne')

theorem Summarises.sound {t : Tracker m} {xs : List Key} (h : Summarises t xs)
    (hN : xs.length + 1 < 2 ^ 64) : Sound t where
  nodup := h.tracks.nodup
  pos p hp := (List.count_pos_iff.mpr (h.tracks.seen p hp)).trans_le (h.tracks.lower p hp)
  room p hp := by
    have := (le_total (S := (t.live : Summary Key)) hp).trans_eq h.tracks.total_eq
    omega
  min hn := h.min (h.ne_nil hn)

/-- Each call makes a step of the summary. -/
theorem Summarises.step {t u : Tracker m} {xs : List Key} {key : Key} (h : Summarises t xs)
    (hs : Sound t) (hu : Update t key u) :
    Step m key (t.live : Summary Key) (u.live : Summary Key) := by
  rcases hu.live_eq with ⟨i, c, hi, hp, he⟩ | ⟨hkey, hm, he⟩ | ⟨i, y, c, hkey, hm, hi, hidx, hp, he⟩
  · rw [he, coe_set_eq_cons_eraseIdx hp, increment_eq (hs.room _ (List.mem_of_getElem? hp)),
      coe_eq_cons_eraseIdx hp]
    exact .hit c _
  · have : (u.live : Summary Key) = (key, 1) ::ₘ (t.live : Summary Key) := by
      rw [he, Multiset.cons_coe, Multiset.coe_eq_coe]
      exact List.perm_append_singleton _ _
    rw [this]
    exact .add _ (not_mem_keys hkey) (by rwa [h.card_eq])
  · have hcons := coe_eq_cons_eraseIdx hp
    have hleast := hs.least.le_of_min hidx (by omega) ((getElem?_live t (by omega)).symm.trans hp)
    rw [he, coe_set_eq_cons_eraseIdx hp, increment_eq (hs.room _ (List.mem_of_getElem? hp)), hcons]
    refine .replace y c _ ?_ ?_ fun q hq => hleast q (List.mem_of_mem_eraseIdx hq)
    · rw [← hcons]
      exact not_mem_keys hkey
    · rw [← hcons, h.card_eq, hm]

/-- Every call of a window is defined and extends the summary by its key. -/
theorem Summarises.processKey {t : Tracker m} {xs : List Key} (h : Summarises t xs) (h0 : 0 < m)
    (hN : xs.length + 1 < 2 ^ 64) (key : Key) :
    ∃ u, t.processKey key = some u ∧ Summarises u (xs ++ [key]) := by
  obtain ⟨u, hu, hup, hready, hmin⟩ := processKey_update h.ready h0 key
  have hs := h.sound hN
  exact ⟨u, hu, hready, (h.step hs hup).tracks h.tracks, fun _ => hmin hs⟩

/-- A window begins at construction or where an `ExtractTopK` has returned. -/
def WindowStart (t : Tracker m) : Prop :=
  t = Tracker.init m ∨ ∃ u sort k topk, Tracker.extractTopK u sort k = some (topk, t)

/-- The `ProcessKey` calls of a window, in order. -/
def processKeys (t : Tracker m) (xs : List Key) : Option (Tracker m) :=
  Transitions.run Tracker.processKey t xs

/-- The tracker that has processed only the key 5 since its construction, with the
count `v`. -/
def onlyFive (m v : ℕ) : Tracker (m + 1) := ⟨(5, v) :: List.replicate m (0, 0), 1, 0, by simp⟩

theorem processKey_onlyFive (m v : ℕ) :
    (onlyFive m v).processKey 5 = some (onlyFive m (increment v)) := by
  simp [onlyFive, Tracker.processKey, Tracker.findFrom, Tracker.read, Tracker.write,
    Tracker.setMin, Tracker.setMinFrom]

/-- After `2 ^ 64` calls with one key its count is back at 0. -/
theorem processKeys_onlyFive (m : ℕ) :
    processKeys (Tracker.init (m + 1)) (List.replicate (2 ^ 64) 5) = some (onlyFive m 0) := by
  have hlen : 2 ^ 64 = (2 ^ 64 - 1) + 1 := by decide
  have hcount : (1 + (2 ^ 64 - 1)) % 2 ^ 64 = 0 := by decide
  have hfirst : (Tracker.init (m + 1)).processKey 5 = some (onlyFive m 1) := by
    simp [onlyFive, Tracker.init, Tracker.processKey, Tracker.findFrom, Tracker.write,
      List.replicate_succ]
  unfold processKeys
  rw [hlen, List.replicate_succ, Transitions.run_cons]
  refine ⟨onlyFive m 1, hfirst, ?_⟩
  rw [Transitions.run_replicate (processKey_onlyFive m), iterate_increment _ (by decide), hcount]

theorem processKeys_wrapped (m : ℕ) (xs : List Key) :
    processKeys (Tracker.init (m + 1)) (List.replicate (2 ^ 64) 5 ++ xs) =
      processKeys (onlyFive m 0) xs := by
  unfold processKeys
  rw [Transitions.run_append, ← processKeys, processKeys_onlyFive]
  rfl

theorem extractTopK_eq_some {t u : Tracker m} {sort : StdSort Slot comparePair} {k : ℕ}
    {topk : List Slot} (h : t.extractTopK sort k = some (topk, u)) :
    ∃ c, t.clearMin = some c ∧ k ≤ m ∧ topk = (sort.run c.freqArray).take k ∧
      u = (c.sortSlots sort).resetFreqArray := by
  simp only [Tracker.extractTopK, Option.bind_eq_bind, Option.bind_eq_some_iff, readFirst_eq,
    Option.some.injEq, Prod.mk.injEq] at h
  obtain ⟨c, hc, s, hs, rfl, rfl⟩ := h
  split_ifs at hs with hk
  rw [(c.sortSlots sort).size] at hk
  exact ⟨c, hc, hk, (Option.some.inj hs).symm, rfl⟩

theorem extractTopK_of_clearMin {t c : Tracker m} (h : t.clearMin = some c) {k : ℕ} (hk : k ≤ m)
    (sort : StdSort Slot comparePair) : t.extractTopK sort k =
      some ((sort.run c.freqArray).take k, (c.sortSlots sort).resetFreqArray) := by
  have hlen : k ≤ (c.sortSlots sort).freqArray.length := by rwa [(c.sortSlots sort).size]
  simp only [Tracker.extractTopK, h, readFirst_eq, hlen, if_true, Option.bind_eq_bind,
    Option.bind_some]
  rfl

theorem clearMin_of_lt {t : Tracker m} {i : ℕ} (hidx : t.minKeyIndex = i) (hi : i < m) :
    ∃ c, t.clearMin = some c ∧ c.minKeyIndex = t.minKeyIndex := by
  obtain ⟨s, hs, -⟩ := t.read_of_lt hi
  refine ⟨put t i (s.1, 0), ?_, rfl⟩
  simp only [Tracker.clearMin, hidx, hs, Option.bind_eq_bind, Option.bind_some]
  exact write_eq_put t hi _

theorem WindowStart.numItems {t : Tracker m} (h : WindowStart t) : t.numItems = 0 := by
  rcases h with rfl | ⟨u, sort, k, topk, h⟩
  · rfl
  · obtain ⟨c, _, _, _, rfl⟩ := extractTopK_eq_some h
    rfl

theorem WindowStart.summarises {t : Tracker m} (h : WindowStart t) : Summarises t [] := by
  have hn := h.numItems
  have hlive : t.live = [] := by simp [Tracker.live, hn]
  exact ⟨⟨hn ▸ Nat.zero_le m, fun h => by omega⟩, by rw [hlive]; exact .empty m,
    fun h => absurd rfl h⟩

/-- A whole window, from a tracker that already holds the keys `xs`. -/
theorem processKeys_summarises {t : Tracker m} {xs ys : List Key} (h : Summarises t xs)
    (h0 : 0 < m) (hN : (xs ++ ys).length < 2 ^ 64) :
    ∃ u, processKeys t ys = some u ∧ Summarises u (xs ++ ys) := by
  induction ys generalizing t xs with
  | nil => exact ⟨t, rfl, by simpa using h⟩
  | cons y ys ih =>
      simp only [List.length_append, List.length_cons] at hN
      obtain ⟨u, hu, hus⟩ := h.processKey h0 (by omega) y
      obtain ⟨v, hv, hvs⟩ := ih hus
        (by simp only [List.length_append, List.length_singleton]; omega)
      refine ⟨v, Transitions.run_cons.mpr ⟨u, hu, hv⟩, ?_⟩
      simpa using hvs

/-- The keys of one window. They are fewer than `2 ^ 64`, so that no count wraps. -/
structure Window where
  keys : List Key
  short : keys.length < 2 ^ 64

theorem WindowStart.processKeys {t₀ : Tracker m} (h₀ : WindowStart t₀) (hm : 1 ≤ m) (w : Window) :
    ∃ t, processKeys t₀ w.keys = some t ∧ Summarises t w.keys := by
  obtain ⟨t, ht, hs⟩ := processKeys_summarises h₀.summarises hm
    (show ([] ++ w.keys).length < 2 ^ 64 from w.short)
  exact ⟨t, ht, hs⟩

/-- The count stored for a key in the live slots. -/
def countOf (t : Tracker m) (x : Key) : Option ℕ := t.live.lookup x

theorem mem_live_of_countOf {t : Tracker m} {x : Key} {c : ℕ} (h : countOf t x = some c) :
    (x, c) ∈ t.live := by
  obtain ⟨l₁, l₂, he, _⟩ := List.lookup_eq_some_iff.mp h
  rw [he]
  simp

theorem countOf_eq_none {t : Tracker m} {x : Key} (h : countOf t x = none) :
    x ∉ keys (t.live : Summary Key) := by
  intro hx
  obtain ⟨c, hc⟩ := mem_keys.mp hx
  simpa using List.lookup_eq_none_iff.mp h _ hc

theorem Summarises.countOf_of_mem {t : Tracker m} {xs : List Key} (h : Summarises t xs) {x : Key}
    {c : ℕ} (hx : (x, c) ∈ t.live) : countOf t x = some c := by
  cases hc : countOf t x with
  | none => exact absurd (mem_keys_of_mem (S := (t.live : Summary Key)) hx) (countOf_eq_none hc)
  | some d =>
      obtain ⟨i, hi, hi'⟩ := exists_get_of_mem hx
      obtain ⟨j, hj, hj'⟩ := exists_get_of_mem (mem_live_of_countOf hc)
      obtain rfl := nodup_get h.tracks.nodup hi hj hi' hj' rfl
      cases hi'.symm.trans hj'
      rfl

/-- While fewer than `m` distinct keys have arrived, every stored count is exact. -/
theorem Summarises.countOf_exact {t : Tracker m} {xs : List Key} (h : Summarises t xs)
    (hd : xs.toFinset.card < m) {x : Key} (hx : x ∈ xs) : countOf t x = some (xs.count x) := by
  obtain ⟨c, hc⟩ := mem_keys.mp (h.tracks.covers (h.tracks.keys_le.trans_lt hd) x hx)
  rw [h.countOf_of_mem hc, ← show c = xs.count x from h.tracks.exact hd.le _ hc]

/-- Once the array is full, the least count bounds every error. -/
theorem Summarises.full {t : Tracker m} {xs : List Key} (h : Summarises t xs) (h0 : 0 < m)
    (hfull : t.numItems = m) :
    ∃ y cmin, t.read t.minKeyIndex = some (y, cmin) ∧
      (∀ x c, countOf t x = some c → xs.count x ≤ c ∧ c ≤ xs.count x + cmin) ∧
      (∀ x, countOf t x = none → xs.count x ≤ cmin) ∧ m * cmin ≤ xs.length := by
  have hcard := h.card_eq.trans hfull
  obtain ⟨i, ⟨y, cmin⟩, hidx, hi, hp, hmin⟩ := h.min (h.ne_nil (h0.trans_eq hfull.symm))
  have hmem := mem_live_of_get hi hp
  refine ⟨y, cmin, by rw [hidx, t.read_nat, hp], fun x c hc => ?_, fun x hx => ?_, ?_⟩
  · have hx := mem_live_of_countOf hc
    exact ⟨h.tracks.lower _ hx, h.tracks.upper _ hx _ hmem⟩
  · exact h.tracks.missed x (countOf_eq_none hx) _ hmem
  · have := card_mul_le_total (S := (t.live : Summary Key)) hmin
    rwa [hcard, h.tracks.total_eq] at this

/-- The guarantee of the tracker over one window. -/
theorem processKeys_guarantee (hm : 1 ≤ m) {t₀ : Tracker m} (h₀ : WindowStart t₀) (w : Window) :
    ∃ t, processKeys t₀ w.keys = some t ∧
      (t.live.map Prod.snd).sum = w.keys.length ∧
      (w.keys.toFinset.card < m → ∀ x ∈ w.keys, countOf t x = some (w.keys.count x)) ∧
      (t.numItems = m → ∃ y cmin, t.read t.minKeyIndex = some (y, cmin) ∧
        (∀ x c, countOf t x = some c → w.keys.count x ≤ c ∧ c ≤ w.keys.count x + cmin) ∧
        (∀ x, countOf t x = none → w.keys.count x ≤ cmin) ∧ m * cmin ≤ w.keys.length) := by
  obtain ⟨t, ht, hs⟩ := h₀.processKeys hm w
  refine ⟨t, ht, ?_, fun hd x hx => hs.countOf_exact hd hx, hs.full hm⟩
  exact (Multiset.sum_coe _).symm.trans hs.tracks.total_eq

theorem processKeys_guarantee_evicting :
    ∃ t, processKeys (Tracker.init 2) [5, 5, 7, 9, 5] = some t ∧
      (t.live.map Prod.snd).sum = 5 := by
  obtain ⟨t, ht, hsum, _⟩ := processKeys_guarantee (m := 2) (by decide) (Or.inl rfl)
    ⟨[5, 5, 7, 9, 5], by decide⟩
  exact ⟨t, ht, hsum⟩

end PowerLawRocksdb.SpaceSavingWindow
