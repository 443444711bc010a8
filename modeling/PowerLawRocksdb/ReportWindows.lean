import PowerLawRocksdb.FirstReport

/-!
# Reports over a sequence of windows

A session interleaves `ProcessKey` and `ExtractTopK` calls and remembers the keys
of the current window. `ResetFreqArray` only sets `num_items_` to 0, while
`ExtractTopK` sorts and copies all `m_` slots. The slots behind the live prefix
therefore keep keys and counts of earlier windows, and they compete with the live
ones in the next report.

No bound on the length of a window is needed here: a wrapped count is smaller.
-/
namespace PowerLawRocksdb.ReportWindows
open SpaceSaving SpaceSavingUpdate SpaceSavingWindow StandardSort FirstReport

variable {m : ℕ}

inductive Call where
  | processKey (key : Key)
  | extractTopK (sort : StdSort Slot comparePair) (k : ℕ)

structure Session (m : ℕ) where
  tracker : Tracker m
  window : List Key

def Session.init (m : ℕ) : Session m := ⟨Tracker.init m, []⟩

def Session.step (s : Session m) : Call → Option (Session m)
  | .processKey key => (s.tracker.processKey key).map fun t => ⟨t, s.window ++ [key]⟩
  | .extractTopK sort k => (s.tracker.extractTopK sort k).map fun r => ⟨r.2, []⟩

/-- A report is isolated when its positive pairs belong to the current window. -/
def Isolated (window : List Key) (topk : List Slot) : Prop :=
  ∀ p ∈ topk, 0 < p.2 → p.1 ∈ window ∧ p.2 ≤ window.length

def ReportsIsolated (s : Session m) : Call → Prop
  | .processKey _ => True
  | .extractTopK sort k =>
      ∀ topk u, s.tracker.extractTopK sort k = some (topk, u) → Isolated s.window topk

/-- The calls that the tracker is used with: no report before the first key, and
none longer than the array. -/
def Admissible (m : ℕ) (calls : List Call) : Prop :=
  (∀ sort k, Call.extractTopK sort k ∈ calls → k ≤ m) ∧
    ∀ sort k rest, calls ≠ .extractTopK sort k :: rest

/-- The slots that compete for a report: all but the one whose count is cleared. -/
def competitors (t : Tracker m) : List Slot := t.freqArray.eraseIdx t.minKeyIndex.toNat

/-- Slot `i` was not written in the current window and is not about to be cleared. -/
def Leftover (t : Tracker m) (i : ℕ) (p : Slot) : Prop :=
  t.numItems ≤ i ∧ (i : ℤ) ≠ t.minKeyIndex ∧ t.freqArray[i]? = some p

instance (t : Tracker m) (i : ℕ) (p : Slot) : Decidable (Leftover t i p) :=
  inferInstanceAs (Decidable (_ ∧ _))

/-- Every leftover slot with a positive count is exceeded by at least `k` others. -/
def LeftoversOutranked (t : Tracker m) (k : ℕ) : Prop :=
  ∀ i p, Leftover t i p → 0 < p.2 → k ≤ (competitors t).countP fun q => decide (p.2 < q.2)

def CallOutranks (s : Session m) : Call → Prop
  | .processKey _ => True
  | .extractTopK _ k => LeftoversOutranked s.tracker k

instance (t : Tracker m) (k : ℕ) : Decidable (LeftoversOutranked t k) :=
  decidable_of_iff (∀ i ∈ List.range t.freqArray.length, ∀ p ∈ t.freqArray[i]?,
      Leftover t i p → 0 < p.2 → k ≤ (competitors t).countP fun q => decide (p.2 < q.2)) <| by
    refine ⟨fun h i p hp => h i ?_ p hp.2.2 hp, fun h i _ p _ => h i p⟩
    exact List.mem_range.mpr (List.getElem?_eq_some_iff.mp hp.2.2).1

instance (s : Session m) : (call : Call) → Decidable (CallOutranks s call)
  | .processKey _ => isTrue trivial
  | .extractTopK _ k => inferInstanceAs (Decidable (LeftoversOutranked s.tracker k))

/-- What holds in every session, whatever is left behind the live slots. -/
structure Coherent (s : Session m) : Prop where
  ready : Ready s.tracker
  fresh : Isolated s.window s.tracker.live

theorem coherent_init (m : ℕ) : Coherent (Session.init m) :=
  ⟨⟨Nat.zero_le m, fun h => absurd h (Nat.lt_irrefl 0)⟩, fun _ hp => by
    simp [Session.init, Tracker.init, Tracker.live] at hp⟩

theorem increment_le (c : ℕ) : increment c ≤ c + 1 := Nat.mod_le ..

/-- A call adds its key to the window, and no live count grows by more than one. -/
theorem isolated_update {t u : Tracker m} {key : Key} {window : List Key}
    (h : Isolated window t.live) (hu : Update t key u) :
    Isolated (window ++ [key]) u.live := by
  have hold : ∀ p ∈ t.live, 0 < p.2 → p.1 ∈ window ++ [key] ∧ p.2 ≤ (window ++ [key]).length := by
    intro p hp hpos
    obtain ⟨hmem, hle⟩ := h p hp hpos
    exact ⟨List.mem_append_left _ hmem, hle.trans (by simp)⟩
  have hbump : ∀ {i : ℕ} {y : Key} {c : ℕ}, t.live[i]? = some (y, c) →
      increment c ≤ (window ++ [key]).length := by
    intro i y c hp
    rcases Nat.eq_zero_or_pos c with rfl | hpos
    · exact (increment_le 0).trans (by simp)
    · have := (h _ (List.mem_of_getElem? hp) hpos).2
      exact (increment_le c).trans (by simpa using this)
  rcases hu.live_eq with ⟨i, c, _, hp, he⟩ | ⟨_, _, he⟩ | ⟨i, y, c, _, _, _, _, hp, he⟩
  · rw [he]
    intro p hp' hpos
    rcases List.mem_or_eq_of_mem_set hp' with hp' | rfl
    · exact hold p hp' hpos
    · exact ⟨by simp, hbump hp⟩
  · rw [he]
    intro p hp' hpos
    rcases List.mem_append.mp hp' with hp' | hp'
    · exact hold p hp' hpos
    · rw [List.mem_singleton.mp hp']
      exact ⟨by simp, by simp⟩
  · rw [he]
    intro p hp' hpos
    rcases List.mem_or_eq_of_mem_set hp' with hp' | rfl
    · exact hold p hp' hpos
    · exact ⟨by simp, hbump hp⟩

theorem Coherent.step {s s' : Session m} {call : Call} (h : Coherent s)
    (hstep : s.step call = some s') : Coherent s' := by
  cases call with
  | processKey key =>
      simp only [Session.step, Option.map_eq_some_iff] at hstep
      obtain ⟨u, hu, rfl⟩ := hstep
      obtain ⟨v, hv, hup, hready, -⟩ := processKey_update h.ready (capacity_pos hu) key
      cases hu.symm.trans hv
      exact ⟨hready, isolated_update h.fresh hup⟩
  | extractTopK sort k =>
      simp only [Session.step, Option.map_eq_some_iff] at hstep
      obtain ⟨⟨topk, u⟩, hu, rfl⟩ := hstep
      obtain ⟨c, _, _, _, rfl⟩ := extractTopK_eq_some hu
      exact ⟨⟨Nat.zero_le m, fun h => absurd h (Nat.lt_irrefl 0)⟩, fun p hp => by simp at hp⟩

theorem clearMin_eq_some {t c : Tracker m} (h : t.clearMin = some c) :
    ∃ (i : ℕ) (y : Key) (n : ℕ), t.minKeyIndex = i ∧ t.freqArray[i]? = some (y, n) ∧
      c.freqArray = t.freqArray.set i (y, 0) := by
  simp only [Tracker.clearMin, Tracker.read, Tracker.write, Option.bind_eq_bind,
    Option.bind_eq_some_iff] at h
  obtain ⟨⟨y, n⟩, hr, hw⟩ := h
  split_ifs at hr hw with h0 h1
  cases hw
  exact ⟨t.minKeyIndex.toNat, y, n, (Int.toNat_of_nonneg h0).symm, hr, rfl⟩

theorem countP_cleared {t c : Tracker m} (h : t.clearMin = some c) (v : ℕ) :
    c.freqArray.countP (fun q => decide (v < q.2)) =
      (competitors t).countP fun q => decide (v < q.2) := by
  obtain ⟨i, y, n, hidx, hp, he⟩ := clearMin_eq_some h
  have hi : i < t.freqArray.length := (List.getElem?_eq_some_iff.mp hp).choose
  rw [he, (List.set_perm_cons_eraseIdx hi (y, 0)).countP_eq, List.countP_cons_of_neg (by simp),
    competitors, hidx, Int.toNat_natCast]

theorem exists_slot_of_mem_cleared {t c : Tracker m} (h : t.clearMin = some c) {p : Slot}
    (hp : p ∈ c.freqArray) (hpos : 0 < p.2) :
    ∃ j : ℕ, (j : ℤ) ≠ t.minKeyIndex ∧ t.freqArray[j]? = some p := by
  obtain ⟨i, y, n, hidx, hi, he⟩ := clearMin_eq_some h
  obtain ⟨j, hj⟩ := List.getElem?_of_mem hp
  rw [he, List.getElem?_set] at hj
  split_ifs at hj with hij hlt
  · cases hj
    exact absurd hpos (Nat.lt_irrefl 0)
  · exact ⟨j, fun h => hij (by exact_mod_cast (h.trans hidx).symm), hj⟩

theorem report_isolated {s : Session m} (h : Coherent s) {sort : StdSort Slot comparePair} {k : ℕ}
    (hC : LeftoversOutranked s.tracker k) : ReportsIsolated s (.extractTopK sort k) := by
  intro topk u hext p hp hpos
  obtain ⟨c, hclear, _, rfl, _⟩ := extractTopK_eq_some hext
  have hmem := (sort.perm _).mem_iff.mp (List.mem_of_mem_take hp)
  obtain ⟨j, hj, hget⟩ := exists_slot_of_mem_cleared hclear hmem hpos
  by_cases hlive : j < s.tracker.numItems
  · exact h.fresh p (mem_live_of_get hlive hget) hpos
  · have hout := hC j p ⟨not_lt.mp hlive, hj, hget⟩ hpos
    have hfew := sort.countP_lt_of_mem_take hp
    rw [countP_cleared hclear] at hfew
    omega

/-- When the array is full, nothing is left over. -/
theorem leftoversOutranked_of_full {t : Tracker m} (hfull : t.numItems = m) (k : ℕ) :
    LeftoversOutranked t k := by
  rintro i p ⟨hi, -, hget⟩ -
  have hlt := (List.getElem?_eq_some_iff.mp hget).1
  rw [t.size] at hlt
  omega

/-- Before the first report, the slots that have not been written have the count 0. -/
theorem leftoversOutranked_of_first {t : Tracker m} {xs : List Key}
    (h : processKeys (Tracker.init m) xs = some t) (k : ℕ) : LeftoversOutranked t k := by
  have hinit : Ready (Tracker.init m) ∧ Unwritten (Tracker.init m) :=
    ⟨(coherent_init m).ready, unwritten_init m⟩
  obtain ⟨-, hunwritten⟩ := Transitions.run_preserves
    (I := fun t : Tracker m => Ready t ∧ Unwritten t) (fun s key u hs hu => by
      obtain ⟨v, hv, hup, hready, -⟩ := processKey_update hs.1 (capacity_pos hu) key
      cases hu.symm.trans hv
      exact ⟨hready, hs.2.update hup⟩) hinit h
  rintro i p ⟨hi, -, hget⟩ hpos
  have hmem : p ∈ t.freqArray.drop t.numItems := by
    apply List.mem_of_getElem? (i := i - t.numItems)
    rw [List.getElem?_drop, Nat.add_sub_cancel' hi, hget]
  rw [hunwritten] at hmem
  rw [List.eq_of_mem_replicate hmem] at hpos
  exact absurd hpos (Nat.lt_irrefl 0)

/-- Conversely, a leftover that fewer than `k` slots exceed is reported by some
order of the ties. -/
theorem leftover_reported {t : Tracker m} {c : Tracker m} (hclear : t.clearMin = some c) {k i : ℕ}
    {p : Slot} (hp : Leftover t i p) (hk : k ≤ m)
    (hfew : (competitors t).countP (fun q => decide (p.2 < q.2)) < k) :
    ∃ sort topk u, t.extractTopK sort k = some (topk, u) ∧ p ∈ topk := by
  obtain ⟨hi, hne, hget⟩ := hp
  obtain ⟨j, y, n, hidx, hj, he⟩ := clearMin_eq_some hclear
  have hmem : p ∈ c.freqArray := by
    rw [he]
    refine List.mem_of_getElem? ((List.getElem?_set_ne ?_).trans hget)
    rintro rfl
    exact hne hidx.symm
  rw [← countP_cleared hclear] at hfew
  exact ⟨.favouring Prod.snd p, _, _, extractTopK_of_clearMin hclear hk _,
    StdSort.favouring_mem_take hmem hfew⟩

def Usable (s : Session m) : Prop := ∃ i : ℕ, s.tracker.minKeyIndex = i ∧ i < m

theorem processKey_usable {s : Session m} (h : Coherent s) (h0 : 0 < m) (key : Key) :
    ∃ s', s.step (.processKey key) = some s' ∧ Usable s' := by
  obtain ⟨u, hu, hup, hready, -⟩ := processKey_update h.ready h0 key
  obtain ⟨i, hidx, hi⟩ := hready.min_lt (hup.numItems_pos h0)
  exact ⟨⟨u, s.window ++ [key]⟩, by simp [Session.step, hu], i, hidx, hi.trans_le hready.items_le⟩

theorem extractTopK_usable {s : Session m} (h : Usable s) (sort : StdSort Slot comparePair) {k : ℕ}
    (hk : k ≤ m) : ∃ s', s.step (.extractTopK sort k) = some s' ∧ Usable s' := by
  obtain ⟨i, hidx, hi⟩ := h
  obtain ⟨c, hclear, hc⟩ := clearMin_of_lt hidx hi
  refine ⟨⟨(c.sortSlots sort).resetFreqArray, []⟩, ?_, i, hc.trans hidx, hi⟩
  simp [Session.step, extractTopK_of_clearMin hclear hk]

def InLength (m : ℕ) (call : Call) : Prop := ∀ sort k, call = .extractTopK sort k → k ≤ m

theorem step_defined {s : Session m} (h : Coherent s) (hu : Usable s) (h0 : 0 < m) {call : Call}
    (hcall : InLength m call) : ∃ s', s.step call = some s' ∧ Coherent s' ∧ Usable s' := by
  obtain ⟨s', hs', hu'⟩ : ∃ s', s.step call = some s' ∧ Usable s' := by
    cases call with
    | processKey key => exact processKey_usable h h0 key
    | extractTopK sort k => exact extractTopK_usable hu sort (hcall sort k rfl)
  exact ⟨s', hs', h.step hs', hu'⟩

theorem run_defined (hm : 1 ≤ m) {calls : List Call} (h : Admissible m calls) :
    ∃ s, Transitions.run Session.step (Session.init m) calls = some s := by
  cases calls with
  | nil => exact ⟨_, rfl⟩
  | cons call calls =>
      cases call with
      | processKey key =>
          obtain ⟨s, hs, hu⟩ := processKey_usable (coherent_init m) hm key
          have hlen : ∀ call ∈ calls, InLength m call := by
            rintro _ hmem sort k rfl
            exact h.1 sort k (List.mem_cons_of_mem _ hmem)
          obtain ⟨⟨r, hr⟩, -⟩ := Transitions.run_defined (I := fun s => Coherent s ∧ Usable s)
            (fun _ _ hs hcall => step_defined hs.1 hs.2 hm hcall) (fun _ _ => trivial)
            ⟨(coherent_init m).step hs, hu⟩ (Transitions.along_of_forall hlen s)
          exact ⟨r, Transitions.run_cons.mpr ⟨s, hs, hr⟩⟩
      | extractTopK sort k => exact absurd rfl (h.2 sort k calls)

/-- In a run whose reports are only made where every leftover is outranked, no
report shows anything of an earlier window. Admissible runs are defined. -/
theorem reports_isolated_along (m : ℕ) (calls : List Call)
    (h : Transitions.Along Session.step CallOutranks (Session.init m) calls) :
    Transitions.Along Session.step ReportsIsolated (Session.init m) calls ∧
      (1 ≤ m → Admissible m calls →
        ∃ s, Transitions.run Session.step (Session.init m) calls = some s) := by
  refine ⟨h.imp (fun s call s' hs _ hstep => Coherent.step hs hstep) ?_ (coherent_init m),
    fun hm hadm => run_defined hm hadm⟩
  intro s call hs hC
  cases call with
  | processKey key => trivial
  | extractTopK sort k => exact report_isolated hs hC

/-- The second report is taken over a leftover of key 3, which key 4 outranks. -/
theorem reports_isolated_along_outranked :
    Transitions.Along Session.step ReportsIsolated (Session.init 4)
        [.processKey 1, .processKey 1, .processKey 2, .processKey 2, .processKey 3, .processKey 3,
          .processKey 6, .extractTopK (.descending Prod.snd) 1, .processKey 4, .processKey 4,
          .processKey 4, .processKey 5, .extractTopK (.descending Prod.snd) 1] :=
  (reports_isolated_along 4 _ (by decide)).1

/-- A key counted twice in the first window is reported at the end of the second,
where only another key was processed. -/
theorem reports_isolated_leaks :
    Admissible 3 [.processKey 1, .processKey 1, .processKey 2, .processKey 2, .processKey 3,
        .extractTopK (.descending Prod.snd) 1, .processKey 4,
        .extractTopK (.descending Prod.snd) 1] ∧
      ¬ Transitions.Along Session.step ReportsIsolated (Session.init 3)
        [.processKey 1, .processKey 1, .processKey 2, .processKey 2, .processKey 3,
          .extractTopK (.descending Prod.snd) 1, .processKey 4,
          .extractTopK (.descending Prod.snd) 1] := by
  refine ⟨⟨fun sort k hmem => ?_, by simp⟩, fun h => ?_⟩
  · simp only [List.mem_cons, reduceCtorEq, List.not_mem_nil, false_or, or_false, or_self] at hmem
    cases hmem
    decide
  · have h₁ := ((((h.2 _ rfl).2 _ rfl).2 _ rfl).2 _ rfl).2 _ rfl
    have h₂ := ((h₁.2 _ rfl).2 _ rfl).1 [(2, 2)] _ rfl
    exact absurd (h₂ (2, 2) (by simp) (by decide)).1 (by decide)

end PowerLawRocksdb.ReportWindows
