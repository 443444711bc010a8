import PowerLawRocksdb.FirstReport
import PowerLawRocksdb.HotKeys
import PowerLawRocksdb.MergeOrder
import Mathlib.Data.List.Forall2

/-!
# Keys that nobody has written

A report has `3 * k` entries, however few keys the tracker has seen. After the
counted keys it continues with zero counts: the key whose count was cleared and the
unused slots, which hold key 0. Once the lanes of the merge are exhausted, it takes
these from the first report, and key 0 enters the exception list without having
been processed by any tracker. It is determined exactly when this can happen, that
is, when some order of the zero counts leads to it.
-/
namespace PowerLawRocksdb.InventedKeys
open SpaceSaving SpaceSavingWindow StandardSort FirstReport HotKeys Partitioner KWayMerge

variable {m k : ℕ}

def freshInstance (m : ℕ) (sort : StdSort Slot comparePair) (w : Window) : Instance m :=
  ⟨processKeys (Tracker.init m) w.keys, sort⟩

/-- The number of positive counts in a report. One count has been cleared. -/
def counted (m : ℕ) (w : Window) : ℕ := min w.keys.toFinset.card m - 1

structure ReportOf (m k : ℕ) (w : Window) (topk : TopkData) : Prop where
  length : topk.length = 3 * k
  descending : topk.Pairwise fun p q => q.2 ≤ p.2
  positive_iff : ∀ (j : ℕ) p, topk[j]? = some p → (0 < p.2 ↔ j < counted m w)
  positives_eq : positives k topk = min k (counted m w)
  seen : ∀ p ∈ topk, p.1 ∈ w.keys ∨ (p = (0, 0) ∧ w.keys.toFinset.card < m)

/-- The zero counts begin with an unused slot, if there is one. -/
def UnusedFirst (m k : ℕ) (w : Window) (topk : TopkData) : Prop :=
  w.keys.toFinset.card < m → counted m w < 3 * k → topk[counted m w]? = some (0, 0)

theorem ReportOf.seen_of_pos {w : Window} {topk : TopkData} (h : ReportOf m k w topk) {p : Slot}
    (hp : p ∈ topk) (hpos : 0 < p.2) : p.1 ∈ w.keys := by
  rcases h.seen p hp with hseen | ⟨rfl, -⟩
  · exact hseen
  · exact absurd hpos (Nat.lt_irrefl 0)

theorem mem_unused {t : Tracker m} {p : Slot} (h : p ∈ unused t) :
    p = (0, 0) ∧ t.numItems < m := by
  have hlen := List.length_pos_of_mem h
  rw [unused, List.length_replicate] at hlen
  exact ⟨List.eq_of_mem_replicate h, by omega⟩

theorem freshInstance_report (hk : 1 ≤ k) (hm : 3 * k ≤ m) (sort : StdSort Slot comparePair)
    {w : Window} (hne : w.keys ≠ []) :
    ∃ r, (freshInstance m sort w).reportTopk (3 * k) = some r ∧ ReportOf m k w r.1 ∧
      (sort = .favouring Prod.snd (0, 0) → UnusedFirst m k w r.1) := by
  obtain ⟨t, ht, h⟩ := processKeys_first (m := m) (by omega) w
  obtain ⟨i, z, cmin, c, hi, -, hclear, harr⟩ := h.cleared hne
  have hcount := h.countP_sorted hi sort
  rw [← harr] at hcount
  have hdesc := sort.descends c.freqArray
  have hpos : ∀ (j : ℕ) p, (sort.run c.freqArray)[j]? = some p →
      (0 < p.2 ↔ j < counted m w) := by
    intro j p hp
    rw [counted, ← hcount]
    exact pos_iff_lt_countP hdesc hp
  have hrep : (freshInstance m sort w).reportTopk (3 * k) =
      some ((sort.run c.freqArray).take (3 * k),
        ⟨some (c.sortSlots sort).resetFreqArray, sort⟩) := by
    simp only [Instance.reportTopk, freshInstance, ht, extractTopK_of_clearMin hclear hm sort,
      Option.map_some]
  refine ⟨_, hrep, ⟨?_, hdesc.sublist (List.take_sublist ..), ?_, ?_, ?_⟩, ?_⟩
  · rw [List.length_take, sort.length_run, c.size, min_eq_left hm]
  · intro j p hp
    rw [List.getElem?_take] at hp
    split_ifs at hp
    exact hpos j p hp
  · rw [positives, List.take_take, min_eq_left (by omega), countP_take hdesc, hcount, counted]
  · intro p hp
    have hmem := (sort.perm _).mem_iff.mp (List.mem_of_mem_take hp)
    rw [harr, List.mem_append] at hmem
    rcases hmem with hmem | hmem
    · left
      rcases List.mem_or_eq_of_mem_set hmem with hmem | rfl
      · exact h.summarises.tracks.seen p hmem
      · exact h.summarises.tracks.seen (z, cmin) (List.mem_of_getElem? hi)
    · right
      obtain ⟨hp, hlt⟩ := mem_unused hmem
      rw [h.numItems] at hlt
      exact ⟨hp, by omega⟩
  · rintro rfl hlt hreach
    have hzero : ((0, 0) : Slot) ∈ c.freqArray := by
      rw [harr, List.mem_append, unused, h.numItems]
      exact Or.inr (List.mem_replicate.mpr ⟨by omega, rfl⟩)
    have habove : c.freqArray.countP (ranked Prod.snd) = counted m w := by
      rw [counted, ← hcount]
      exact ((StdSort.perm _ c.freqArray).countP_eq _).symm
    have htake : ((0, 0) : Slot) ∈
        ((StdSort.favouring Prod.snd (0, 0)).run c.freqArray).take (counted m w + 1) :=
      StdSort.favouring_mem_take hzero (Nat.lt_succ_of_le habove.le)
    obtain ⟨j, hj⟩ := List.mem_iff_getElem?.mp htake
    rw [List.getElem?_take] at hj
    split_ifs at hj with hjlt
    have hge : ¬ j < counted m w := fun hlt' => absurd ((hpos j _ hj).mpr hlt') (Nat.lt_irrefl 0)
    obtain rfl : j = counted m w := by omega
    exact (List.getElem?_take_of_lt hreach).trans hj

theorem reports_of_fresh (hk : 1 ≤ k) (hm : 3 * k ≤ m) (sort : StdSort Slot comparePair)
    {windows : List Window} (hne : ∀ w ∈ windows, w.keys ≠ []) :
    ∃ rs, (windows.map (freshInstance m sort)).mapM (fun inst => inst.reportTopk (3 * k)) =
        some rs ∧
      List.Forall₂ (fun w topk => ReportOf m k w topk ∧
        (sort = .favouring Prod.snd (0, 0) → UnusedFirst m k w topk)) windows
        (rs.map Prod.fst) := by
  induction windows with
  | nil => exact ⟨[], rfl, .nil⟩
  | cons w windows ih =>
      obtain ⟨r, hr, hreport⟩ := freshInstance_report hk hm sort (hne w List.mem_cons_self)
      obtain ⟨rs, hrs, hreports⟩ := ih fun w hw => hne w (List.mem_cons_of_mem _ hw)
      exact ⟨r :: rs, by simp [hr, hrs], .cons hreport hreports⟩

/-- The entries that the merge takes from the lanes of these reports. -/
def laneTotal (m k : ℕ) (windows : List Window) : ℕ :=
  (windows.map fun w => min k (counted m w)).sum

theorem positives_sum {windows : List Window} {topks : List TopkData}
    (h : List.Forall₂ (ReportOf m k) windows topks) :
    (topks.map (positives k)).sum = laneTotal m k windows := by
  rw [laneTotal]
  induction h with
  | nil => rfl
  | cons hreport _ ih =>
      rw [List.map_cons, List.sum_cons, List.map_cons, List.sum_cons, ih, hreport.positives_eq]

theorem exists_reportOf {windows : List Window} {topks : List TopkData}
    (h : List.Forall₂ (ReportOf m k) windows topks) {topk : TopkData} (htopk : topk ∈ topks) :
    ∃ w ∈ windows, ReportOf m k w topk := by
  induction h with
  | nil => exact absurd htopk List.not_mem_nil
  | cons hreport _ ih =>
      rcases List.mem_cons.mp htopk with rfl | htopk
      · exact ⟨_, List.mem_cons_self, hreport⟩
      · obtain ⟨w, hw, hwr⟩ := ih htopk
        exact ⟨w, List.mem_cons_of_mem _ hw, hwr⟩

theorem lanes_seen {windows : List Window} {topks : List TopkData}
    (h : List.Forall₂ (ReportOf m k) windows topks) {a : Key × ℕ × ℕ}
    (ha : a ∈ (lanes k topks).flatten) : ∃ w ∈ windows, a.1 ∈ w.keys := by
  obtain ⟨l, hl, ha⟩ := List.mem_flatten.mp ha
  obtain ⟨i, hi, rfl⟩ := List.mem_mapIdx.mp hl
  obtain ⟨w, hw, hreport⟩ := exists_reportOf h (List.getElem_mem hi)
  rw [← List.drop_zero (l := lane k i topks[i])] at ha
  obtain ⟨j, p, -, hj, hp, rfl⟩ := mem_lane_drop ha
  rw [hreport.positives_eq] at hj
  have hpos := (hreport.positive_iff j p hp).mpr (by omega)
  exact ⟨w, hw, hreport.seen_of_pos (List.mem_of_getElem? hp) hpos⟩

theorem length_sorted_lanes {windows : List Window} {topks : List TopkData}
    (h : List.Forall₂ (ReportOf m k) windows topks) :
    (stableSort mergedCount (lanes k topks).flatten).length = laneTotal m k windows := by
  rw [length_stableSort, length_lanes, positives_sum h]

/-- How many entries of the first report, from the end of its lane on, are entered. -/
def fallbacks (m k : ℕ) (windows : List Window) : ℕ :=
  min (k * windows.length) 5000 - laneTotal m k windows

theorem merge_reports {w : Window} {ws : List Window} {topk : TopkData} {rest : List TopkData}
    (hnum : (w :: ws).length ≤ 3)
    (h : List.Forall₂ (ReportOf m k) (w :: ws) (topk :: rest)) :
    ∃ s, merge k (topk :: rest) = some s ∧
      s.merged = stableSort mergedCount (lanes k (topk :: rest)).flatten ++
        ((topk.drop (min k (counted m w))).take
          (k * (w :: ws).length - laneTotal m k (w :: ws))).map (tag 0) := by
  have hlen := h.length_eq
  have hle := positives_sum_le k (topk :: rest)
  have hfirst : ReportOf m k w topk := (List.forall₂_cons.mp h).1
  have hlong : ∀ l ∈ topk :: rest, k ≤ l.length := by
    intro l hl
    obtain ⟨w', -, hreport⟩ := exists_reportOf h hl
    rw [hreport.length]
    omega
  have hdesc : Descending (topk :: rest) := by
    intro l hl
    obtain ⟨w', -, hreport⟩ := exists_reportOf h hl
    exact hreport.descending
  have hroom : positives k topk + (k * (topk :: rest).length -
      ((topk :: rest).map (positives k)).sum) ≤ topk.length := by
    have hmul := Nat.mul_le_mul_left k (hlen ▸ hnum)
    rw [List.map_cons, List.sum_cons] at hle ⊢
    rw [hfirst.length]
    omega
  obtain ⟨s, hs, hmerged⟩ := merge_eq hlong hdesc rfl hroom
  rw [positives_sum h, hfirst.positives_eq, ← hlen] at hmerged
  exact ⟨s, hs, hmerged⟩

theorem mem_exceptions {w : Window} {ws : List Window} {topk : TopkData} {rest : List TopkData}
    (hnum : (w :: ws).length ≤ 3)
    (h : List.Forall₂ (ReportOf m k) (w :: ws) (topk :: rest)) :
    ∃ e, repartition k (topk :: rest) = some e ∧
      (∀ x ∈ e, (∃ w' ∈ w :: ws, x ∈ w'.keys) ∨ ∃ r < fallbacks m k (w :: ws), ∃ p,
        topk[min k (counted m w) + r]? = some p ∧ p.1 = x) ∧
      ∀ r < fallbacks m k (w :: ws), ∀ p, topk[min k (counted m w) + r]? = some p → p.1 ∈ e := by
  obtain ⟨s, hs, hmerged⟩ := merge_reports hnum h
  have hlen := length_sorted_lanes h
  refine ⟨s.exceptions, by rw [repartition, hs, Option.map_some], ?_, ?_⟩
  · intro x hx
    rw [merge_assigned hs, mem_assignAll, exists_firstPosition, hmerged] at hx
    obtain ⟨position, hlt, a, ha, rfl⟩ := hx
    rw [List.getElem?_append] at ha
    split_ifs at ha with hlane
    · exact Or.inl (lanes_seen h (mem_stableSort.mp (List.mem_of_getElem? ha)))
    · rw [List.getElem?_map, List.getElem?_take, Option.map_eq_some_iff] at ha
      obtain ⟨p, hp, rfl⟩ := ha
      split_ifs at hp with hr
      rw [List.getElem?_drop] at hp
      exact Or.inr ⟨_, by rw [fallbacks]; omega, p, hp, rfl⟩
  · intro r hr p hp
    rw [fallbacks] at hr
    rw [merge_assigned hs, mem_assignAll, exists_firstPosition, hmerged]
    refine ⟨laneTotal m k (w :: ws) + r, by omega, tag 0 p, ?_, rfl⟩
    rw [List.getElem?_append_right (by omega), hlen, Nat.add_sub_cancel_left, List.getElem?_map,
      List.getElem?_take_of_lt (by omega), List.getElem?_drop, hp, Option.map_some]

theorem run_fresh (hk : 1 ≤ k) (hm : 3 * k ≤ m) (sort : StdSort Slot comparePair) {w : Window}
    {ws : List Window} (hnum : (w :: ws).length ≤ 3) (hne : ∀ w' ∈ w :: ws, w'.keys ≠ []) :
    ∃ topk e rest, ReportOf m k w topk ∧
      (sort = .favouring Prod.snd (0, 0) → UnusedFirst m k w topk) ∧
      run k ((w :: ws).map (freshInstance m sort)) = some (e, rest) ∧
      (∀ x ∈ e, (∃ w' ∈ w :: ws, x ∈ w'.keys) ∨ ∃ r < fallbacks m k (w :: ws), ∃ p,
        topk[min k (counted m w) + r]? = some p ∧ p.1 = x) ∧
      ∀ r < fallbacks m k (w :: ws), ∀ p, topk[min k (counted m w) + r]? = some p → p.1 ∈ e := by
  obtain ⟨rs, hrs, hreports⟩ := reports_of_fresh hk hm sort hne
  obtain ⟨topk, rest, ⟨hreport, hunused⟩, -, hcons⟩ := List.forall₂_cons_left_iff.mp hreports
  have hall : List.Forall₂ (ReportOf m k) (w :: ws) (topk :: rest) :=
    hcons ▸ hreports.imp fun _ _ h => h.1
  obtain ⟨e, he, hlisted, hentered⟩ := mem_exceptions hnum hall
  refine ⟨topk, e, rs.map Prod.snd, hreport, hunused, ?_, hlisted, hentered⟩
  rw [← hcons] at he
  simp only [run, hrs, he, Option.bind_eq_bind, Option.bind_some, Option.pure_def]

/-- The merge does not reach an unused slot of the first report. -/
def Covered (m k : ℕ) (windows : List Window) : Prop :=
  ∀ w ∈ windows.head?, m ≤ w.keys.toFinset.card ∨
    min k (counted m w) + fallbacks m k windows ≤ counted m w

theorem counted_lt_of_reach {w : Window} {ws : List Window} (hnum : (w :: ws).length ≤ 3)
    (hreach : counted m w < min k (counted m w) + fallbacks m k (w :: ws)) :
    counted m w < 3 * k := by
  have hmul := Nat.mul_le_mul_left k hnum
  have hfall : fallbacks m k (w :: ws) ≤ k * (w :: ws).length - laneTotal m k (w :: ws) :=
    Nat.sub_le_sub_right (Nat.min_le_left ..) _
  have hlane : min k (counted m w) ≤ laneTotal m k (w :: ws) := by
    rw [laneTotal, List.map_cons, List.sum_cons]
    exact Nat.le_add_right ..
  omega

/-- The keys of the exception list have been processed, whatever the order of the
zero counts is, exactly if key 0 has been processed or the merge does not reach an
unused slot. -/
theorem listed_keys_seen_iff (hk : 1 ≤ k) (hm : 3 * k ≤ m) {windows : List Window}
    (hnum : windows.length ≤ 3) (hne : ∀ w ∈ windows, w.keys ≠ []) :
    (∀ sort, ∃ e rest, run k (windows.map (freshInstance m sort)) = some (e, rest) ∧
      ∀ x ∈ e, ∃ w ∈ windows, x ∈ w.keys) ↔
      (∃ w ∈ windows, 0 ∈ w.keys) ∨ Covered m k windows := by
  cases windows with
  | nil =>
      constructor
      · intro _
        exact Or.inr fun w hw => by cases hw
      · intro _ sort
        exact ⟨∅, [], rfl, fun x hx => by cases hx⟩
  | cons w ws =>
      constructor
      · intro hall
        by_contra hcond
        rw [not_or, Covered] at hcond
        obtain ⟨hzero, hreach⟩ := hcond
        simp only [List.head?_cons, Option.mem_def, Option.some.injEq, forall_eq',
          not_or, Nat.not_le] at hreach
        -- the order that favours the unused slots brings one to the first zero count
        obtain ⟨topk, e, rest, hreport, hunused, hrun, -, hentered⟩ :=
          run_fresh hk hm (.favouring Prod.snd (0, 0)) hnum hne
        obtain ⟨e', rest', hrun', hseen⟩ := hall (.favouring Prod.snd (0, 0))
        cases hrun.symm.trans hrun'
        have hroom := counted_lt_of_reach hnum hreach.2
        refine hzero (hseen 0 (hentered (counted m w - min k (counted m w)) (by omega) (0, 0) ?_))
        rw [Nat.add_sub_of_le (Nat.min_le_right ..)]
        exact hunused rfl hreach.1 hroom
      · intro hcond sort
        obtain ⟨topk, e, rest, hreport, -, hrun, hlisted, -⟩ := run_fresh hk hm sort hnum hne
        refine ⟨e, rest, hrun, fun x hx => ?_⟩
        rcases hlisted x hx with hseen | ⟨r, hr, p, hp, rfl⟩
        · exact hseen
        · rcases hreport.seen p (List.mem_of_getElem? hp) with hseen | ⟨rfl, hlt⟩
          · exact ⟨w, List.mem_cons_self, hseen⟩
          · rcases hcond with hzero | hcovered
            · exact hzero
            · rcases hcovered w rfl with hfull | hreach
              · omega
              · have hpos := (hreport.positive_iff _ _ hp).mpr (by omega)
                exact absurd hpos (Nat.lt_irrefl 0)

theorem listed_keys_seen_two :
    ∃ e rest, run 1 ([⟨[5, 7], by decide⟩].map (freshInstance 3 (.descending Prod.snd))) =
        some (e, rest) ∧
      ∀ x ∈ e, ∃ w ∈ ([⟨[5, 7], by decide⟩] : List Window), x ∈ w.keys := by
  refine (listed_keys_seen_iff (m := 3) (k := 1) (by decide) (by decide) (by decide)
    (by simp)).mpr (Or.inr ?_) _
  intro w hw
  cases hw
  exact Or.inr (by decide)

/-- One key alone, with its count cleared: the second place goes to an unused slot. -/
theorem listed_key_invented :
    ∃ e rest, run 2 ([⟨[5], by decide⟩].map (freshInstance 6 (.descending Prod.snd))) =
      some (e, rest) ∧ 0 ∈ e ∧ ¬ ∃ w ∈ ([⟨[5], by decide⟩] : List Window), 0 ∈ w.keys :=
  ⟨_, _, rfl, by decide, by simp⟩

end PowerLawRocksdb.InventedKeys
