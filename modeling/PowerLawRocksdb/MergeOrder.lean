import PowerLawRocksdb.KWayMerge
import PowerLawRocksdb.Tiers

/-!
# The merged order

The entries with a positive count among the first `k` of a report form its lane.
As long as a lane has an entry left, a round picks the head of the first lane whose
head has the largest count, so the rounds produce the stable sort of the lanes by
descending count. All later rounds take the entries of the first report in order,
from the end of its lane on, and past position `k`.
-/
namespace PowerLawRocksdb.Partitioner
open SpaceSaving KWayMerge StandardSort

/-- The tuple that `merged` holds for an entry of report `i`. -/
def tag (i : ℕ) (p : Slot) : Key × ℕ × ℕ := (p.1, p.2, i)

def mergedCount (a : Key × ℕ × ℕ) : ℕ := a.2.1

def positives (k : ℕ) (topk : TopkData) : ℕ := (topk.take k).countP (ranked Prod.snd)

def lane (k i : ℕ) (topk : TopkData) : List (Key × ℕ × ℕ) :=
  (topk.take (positives k topk)).map (tag i)

def lanes (k : ℕ) (topks : List TopkData) : List (List (Key × ℕ × ℕ)) := topks.mapIdx (lane k)

/-- What the cursors have not passed yet. -/
def remaining (k : ℕ) (topks : List TopkData) (curs : List ℕ) : List (List (Key × ℕ × ℕ)) :=
  List.zipWith List.drop curs (lanes k topks)

def Descending (topks : List TopkData) : Prop :=
  ∀ topk ∈ topks, topk.Pairwise fun p q => q.2 ≤ p.2

variable {k : ℕ} {topks : List TopkData}

theorem positives_le (k : ℕ) (topk : TopkData) : positives k topk ≤ k :=
  List.countP_le_length.trans (List.length_take_le ..)

theorem pos_iff_lt_positives {topk : TopkData} (hdesc : topk.Pairwise fun p q => q.2 ≤ p.2)
    {j : ℕ} (hj : j < k) {p : Slot} (hp : topk[j]? = some p) :
    0 < p.2 ↔ j < positives k topk := by
  have hget : (topk.take k)[j]? = some p := (List.getElem?_take_of_lt hj).trans hp
  exact pos_iff_lt_countP (hdesc.sublist (List.take_sublist k topk)) hget

theorem getElem?_remaining {curs : List ℕ} {i cur : ℕ} {topk : TopkData}
    (hcur : curs[i]? = some cur) (htopk : topks[i]? = some topk) :
    (remaining k topks curs)[i]? = some ((lane k i topk).drop cur) := by
  simp [remaining, lanes, List.getElem?_zipWith, hcur, htopk]

theorem remaining_inv {curs : List ℕ} {i : ℕ} {rest : List (Key × ℕ × ℕ)}
    (h : (remaining k topks curs)[i]? = some rest) :
    ∃ cur topk, curs[i]? = some cur ∧ topks[i]? = some topk ∧ rest = (lane k i topk).drop cur := by
  simp only [remaining, lanes, List.getElem?_zipWith_eq_some, List.getElem?_mapIdx,
    Option.map_eq_some_iff] at h
  obtain ⟨cur, _, hcur, ⟨topk, htopk, rfl⟩, rfl⟩ := h
  exact ⟨cur, topk, hcur, htopk, rfl⟩

theorem remaining_set {curs : List ℕ} {i cur new : ℕ} {topk : TopkData}
    (hcur : curs[i]? = some cur) (htopk : topks[i]? = some topk) :
    remaining k topks (curs.set i new) =
      (remaining k topks curs).set i ((lane k i topk).drop new) := by
  have hi := (List.getElem?_eq_some_iff.mp hcur).1
  have hri := (List.getElem?_eq_some_iff.mp (getElem?_remaining (k := k) hcur htopk)).1
  apply List.ext_getElem?
  intro j
  by_cases hij : i = j
  · subst hij
    rw [List.getElem?_set_self hri]
    exact getElem?_remaining (List.getElem?_set_self hi) htopk
  · rw [List.getElem?_set_ne hij, remaining, List.getElem?_zipWith, List.getElem?_set_ne hij,
      remaining, List.getElem?_zipWith]

/-- The entry under a cursor that has not reached the end of the lane. -/
theorem lane_drop {i cur : ℕ} {topk : TopkData} {p : Slot} (hp : topk[cur]? = some p)
    (hcur : cur < positives k topk) :
    (lane k i topk).drop cur = tag i p :: (lane k i topk).drop (cur + 1) := by
  have hget : (lane k i topk)[cur]? = some (tag i p) := by
    rw [lane, List.getElem?_map, List.getElem?_take_of_lt hcur, hp, Option.map_some]
  obtain ⟨hlt, hget⟩ := List.getElem?_eq_some_iff.mp hget
  rw [← List.getElem_cons_drop hlt, hget]

/-- What has been merged, followed by the stable sort of what remains. -/
structure Merging (k : ℕ) (topks : List TopkData) (s : Merge) : Prop where
  curs_length : s.curs.length = topks.length
  within : ∀ (i cur : ℕ) topk, s.curs[i]? = some cur → topks[i]? = some topk →
    cur ≤ positives k topk
  sorted : s.merged ++ stableSort mergedCount (remaining k topks s.curs).flatten =
    stableSort mergedCount (lanes k topks).flatten

theorem mem_lane_drop {i cur : ℕ} {topk : TopkData} {b : Key × ℕ × ℕ}
    (h : b ∈ (lane k i topk).drop cur) :
    ∃ m p, cur ≤ m ∧ m < positives k topk ∧ topk[m]? = some p ∧ b = tag i p := by
  obtain ⟨m, hm⟩ := List.mem_iff_getElem?.mp h
  rw [List.getElem?_drop, lane, List.getElem?_map, Option.map_eq_some_iff] at hm
  obtain ⟨p, hp, rfl⟩ := hm
  rw [List.getElem?_take] at hp
  split_ifs at hp with hlt
  exact ⟨cur + m, p, Nat.le_add_right .., hlt, hp, rfl⟩

theorem entry_eq_some {i cur : ℕ} {p : Slot} :
    entry topks i cur = some p ↔ ∃ topk, topks[i]? = some topk ∧ topk[cur]? = some p := by
  rw [entry, Option.bind_eq_some_iff]

/-- The head of a lane is a candidate that no later entry of the lane exceeds. -/
theorem remaining_candidate (hdesc : Descending topks) {curs : List ℕ} {j : ℕ}
    {rest : List (Key × ℕ × ℕ)} (hrest : (remaining k topks curs)[j]? = some rest)
    {b : Key × ℕ × ℕ} (hb : b ∈ rest) :
    0 < mergedCount b ∧ ∃ c, Candidate k topks curs j c ∧ mergedCount b ≤ c := by
  obtain ⟨cur, topk, hcur, htopk, rfl⟩ := remaining_inv hrest
  obtain ⟨m, q, hle, hm, hq, rfl⟩ := mem_lane_drop hb
  have hd := hdesc topk (List.mem_of_getElem? htopk)
  have hk := hm.trans_le (positives_le k topk)
  obtain ⟨hmlt, hmq⟩ := List.getElem?_eq_some_iff.mp hq
  refine ⟨(pos_iff_lt_positives hd hk hq).mpr hm, topk[cur].2, ?_, ?_⟩
  · refine ⟨cur, topk[cur], hcur, hle.trans_lt hk, ?_, rfl⟩
    exact entry_eq_some.mpr ⟨topk, htopk, List.getElem?_eq_getElem (hle.trans_lt hmlt)⟩
  · change q.2 ≤ topk[cur].2
    rcases Nat.lt_or_eq_of_le hle with hlt | rfl
    · rw [← hmq]
      exact List.pairwise_iff_getElem.mp hd cur m _ hmlt hlt
    · rw [hmq]

theorem Merging.round (hlong : ∀ topk ∈ topks, k ≤ topk.length) (hdesc : Descending topks)
    {s : Merge} (h : Merging k topks s) (hleft : (remaining k topks s.curs).flatten ≠ []) :
    ∃ s', round k topks s = some s' ∧ s'.merged.length = s.merged.length + 1 ∧
      Merging k topks s' := by
  have hread := entry_readable hlong h.curs_length
  obtain ⟨best, hbest, hsel⟩ := selectMax_spec hread
  have hfirst := selectMax_first hread hbest
  have hlanes : ∀ {j c}, Candidate k topks s.curs j c → c ≤ best.2 := fun hc =>
    hsel.max _ (hc.lt h.curs_length) _ hc
  have hpos : 0 < best.2 := by
    obtain ⟨b, hb⟩ := List.exists_mem_of_ne_nil _ hleft
    obtain ⟨rest, hrest, hb⟩ := List.mem_flatten.mp hb
    obtain ⟨j, hj⟩ := List.mem_iff_getElem?.mp hrest
    obtain ⟨hbpos, c, hc, hle⟩ := remaining_candidate hdesc hj hb
    exact hbpos.trans_le (hle.trans (hlanes hc))
  obtain ⟨cur, p, hcur, hk, hp, hcount⟩ := hsel.found hpos
  obtain ⟨topk, htopk, hpk⟩ := entry_eq_some.mp hp
  have hlt : cur < positives k topk :=
    (pos_iff_lt_positives (hdesc topk (List.mem_of_getElem? htopk)) hk hpk).mp (hcount ▸ hpos)
  -- the chosen entry is the head that the stable sort of the lanes begins with
  have hpick : stableSort mergedCount (remaining k topks s.curs).flatten = tag best.1 p ::
      stableSort mergedCount (remaining k topks (s.curs.set best.1 (cur + 1))).flatten := by
    rw [remaining_set hcur htopk]
    apply stableSort_flatten_pick
    · rw [getElem?_remaining hcur htopk, lane_drop hpk hlt]
    · intro j hj rest hrest b hb
      obtain ⟨-, c, hc, hle⟩ := remaining_candidate hdesc hrest hb
      exact hle.trans_lt ((hfirst j hj c hc).trans_eq hcount.symm)
    · intro rest hrest b hb
      obtain ⟨j, hj⟩ := List.mem_iff_getElem?.mp hrest
      obtain ⟨-, c, hc, hle⟩ := remaining_candidate hdesc hj hb
      exact hle.trans ((hlanes hc).trans_eq hcount.symm)
  refine ⟨⟨s.merged ++ [tag best.1 p], s.curs.set best.1 (cur + 1),
    assign s.exceptions s.merged.length p.1⟩, by simp [Partitioner.round, hbest, hcur, hp, tag],
    by simp, ?_, ?_, ?_⟩
  · simp [h.curs_length]
  · intro i cur' topk' hcur' htopk'
    by_cases hi : best.1 = i
    · subst hi
      rw [List.getElem?_set_self (List.getElem?_eq_some_iff.mp hcur).1] at hcur'
      cases hcur'
      cases htopk.symm.trans htopk'
      exact hlt
    · rw [List.getElem?_set_ne hi] at hcur'
      exact h.within i cur' topk' hcur' htopk'
  · rw [← h.sorted, hpick, List.append_assoc, List.singleton_append]

theorem merging_start : Merging k topks ⟨[], List.replicate topks.length 0, ∅⟩ where
  curs_length := by simp
  within i cur topk hcur _ := by simp [List.eq_of_mem_replicate (List.mem_of_getElem? hcur)]
  sorted := by
    have hall : remaining k topks (List.replicate topks.length 0) = lanes k topks := by
      apply List.ext_getElem?
      intro i
      cases htopk : topks[i]? with
      | none => simp [remaining, lanes, List.getElem?_zipWith, htopk]
      | some topk =>
          have hi := (List.getElem?_eq_some_iff.mp htopk).1
          rw [getElem?_remaining (List.getElem?_replicate_of_lt hi) htopk]
          simp [lanes, htopk]
    rw [hall, List.nil_append]

/-- The first rounds, one for each entry of the lanes, sort the lanes. -/
theorem Merging.rounds (hlong : ∀ topk ∈ topks, k ≤ topk.length) (hdesc : Descending topks)
    {s : Merge} (h : Merging k topks s) {n : ℕ}
    (hn : s.merged.length + n = (lanes k topks).flatten.length) :
    ∃ s', rounds k topks n s = some s' ∧ Merging k topks s' ∧
      (remaining k topks s'.curs).flatten = [] := by
  have hlen := congrArg List.length h.sorted
  rw [List.length_append, length_stableSort, length_stableSort] at hlen
  induction n generalizing s with
  | zero => exact ⟨s, rfl, h, List.eq_nil_of_length_eq_zero (by omega)⟩
  | succ n ih =>
      have hleft : (remaining k topks s.curs).flatten ≠ [] := List.ne_nil_of_length_pos (by omega)
      obtain ⟨t, ht, htlen, hm⟩ := h.round hlong hdesc hleft
      have htlen' := congrArg List.length hm.sorted
      rw [List.length_append, length_stableSort, length_stableSort] at htlen'
      obtain ⟨s', hs', hrest⟩ := ih hm (by omega) htlen'
      exact ⟨s', by rw [Partitioner.rounds, ht, Option.bind_some, hs'], hrest⟩

theorem Merging.complete {s : Merge} (h : Merging k topks s)
    (hend : (remaining k topks s.curs).flatten = []) :
    s.merged = stableSort mergedCount (lanes k topks).flatten := by
  rw [← h.sorted, hend]
  exact (List.append_nil _).symm

theorem positives_le_length (k : ℕ) (topk : TopkData) : positives k topk ≤ topk.length :=
  List.countP_le_length.trans (List.length_take_le' ..)

theorem length_lanes : (lanes k topks).flatten.length = (topks.map (positives k)).sum := by
  rw [List.length_flatten]
  congr 1
  apply List.ext_getElem?
  intro i
  rw [List.getElem?_map, lanes, List.getElem?_mapIdx, List.getElem?_map, Option.map_map]
  apply congrArg (Option.map · topks[i]?)
  funext topk
  simp [lane, positives_le_length]

theorem positives_sum_le (k : ℕ) (topks : List TopkData) :
    (topks.map (positives k)).sum ≤ k * topks.length := by
  have hle : ∀ n ∈ topks.map (positives k), n ≤ k := by
    intro n hn
    obtain ⟨topk, -, rfl⟩ := List.mem_map.mp hn
    exact positives_le k topk
  have hsum := List.sum_le_card_nsmul _ _ hle
  rwa [List.length_map, smul_eq_mul, Nat.mul_comm] at hsum

/-- Once the lanes are exhausted, all rounds go to the first report. -/
theorem rounds_fallback (hlong : ∀ topk ∈ topks, k ≤ topk.length) (hdesc : Descending topks)
    {first : TopkData} (hfirst : topks[0]? = some first) {s : Merge}
    (hcurs : s.curs.length = topks.length)
    (hpast : ∀ (i cur : ℕ) topk, s.curs[i]? = some cur → topks[i]? = some topk →
      positives k topk ≤ cur)
    {cur n : ℕ} (hcur : s.curs[0]? = some cur) (hn : cur + n ≤ first.length) :
    ∃ s', rounds k topks n s = some s' ∧
      s'.merged = s.merged ++ ((first.drop cur).take n).map (tag 0) := by
  induction n generalizing s cur with
  | zero => exact ⟨s, rfl, by simp⟩
  | succ n ih =>
      have hzero : ∀ i c, Candidate k topks s.curs i c → c = 0 := by
        rintro i c ⟨cur, p, hcur, hk, hp, rfl⟩
        obtain ⟨topk, htopk, hp⟩ := entry_eq_some.mp hp
        have hnot : ¬ 0 < p.2 := by
          rw [pos_iff_lt_positives (hdesc topk (List.mem_of_getElem? htopk)) hk hp]
          exact Nat.not_lt_of_le (hpast i cur topk hcur htopk)
        omega
      have hlt : cur < first.length := by omega
      have hentry : entry topks 0 cur = some first[cur] :=
        entry_eq_some.mpr ⟨first, hfirst, List.getElem?_eq_getElem hlt⟩
      have h0 := (List.getElem?_eq_some_iff.mp hcur).1
      rw [rounds, round_fallback hlong hcurs hzero hcur, hentry, Option.map_some,
        Option.bind_some]
      obtain ⟨s', hs', hmerged⟩ := ih (s := ⟨s.merged ++ [tag 0 first[cur]],
        s.curs.set 0 (cur + 1), assign s.exceptions s.merged.length first[cur].1⟩)
        (by simp [hcurs])
        (by
          intro i cur' topk hcur' htopk
          by_cases hi : 0 = i
          · subst hi
            rw [List.getElem?_set_self h0] at hcur'
            cases hcur'
            exact (hpast 0 cur topk hcur htopk).trans (Nat.le_succ cur)
          · rw [List.getElem?_set_ne hi] at hcur'
            exact hpast i cur' topk hcur' htopk)
        (List.getElem?_set_self h0) (by omega)
      have htake : (first.drop cur).take (n + 1) = first[cur] :: (first.drop (cur + 1)).take n := by
        rw [← List.getElem_cons_drop hlt, List.take_succ_cons]
      refine ⟨s', hs', ?_⟩
      rw [hmerged, htake, List.map_cons, List.append_assoc, List.singleton_append]

theorem rounds_add (a b : ℕ) (s : Merge) :
    rounds k topks (a + b) s = (rounds k topks a s).bind (rounds k topks b) := by
  induction a generalizing s with
  | zero => rw [Nat.zero_add]; rfl
  | succ a ih =>
      rw [Nat.succ_add, rounds, rounds, Option.bind_assoc]
      congr 1
      funext t
      exact ih t

theorem Merging.past {s : Merge} (h : Merging k topks s)
    (hend : (remaining k topks s.curs).flatten = []) {i cur : ℕ} {topk : TopkData}
    (hcur : s.curs[i]? = some cur) (htopk : topks[i]? = some topk) : cur = positives k topk := by
  have hrest := List.mem_of_getElem? (getElem?_remaining (k := k) hcur htopk)
  have hnil := List.drop_eq_nil_iff.mp (List.flatten_eq_nil_iff.mp hend _ hrest)
  rw [lane, List.length_map, List.length_take, Nat.min_eq_left (positives_le_length k topk)] at hnil
  exact le_antisymm (h.within i cur topk hcur htopk) hnil

/-- The whole merge: the lanes in sorted order, then the first report. -/
theorem merge_eq (hlong : ∀ topk ∈ topks, k ≤ topk.length) (hdesc : Descending topks)
    {first : TopkData} (hfirst : topks[0]? = some first)
    (hroom : positives k first + (k * topks.length - (topks.map (positives k)).sum) ≤
      first.length) :
    ∃ s, merge k topks = some s ∧ s.merged = stableSort mergedCount (lanes k topks).flatten ++
      ((first.drop (positives k first)).take
        (k * topks.length - (topks.map (positives k)).sum)).map (tag 0) := by
  obtain ⟨s, hs, hm, hend⟩ := merging_start.rounds hlong hdesc
    (by rw [length_lanes, List.length_nil, Nat.zero_add])
  have h0 : 0 < s.curs.length := hm.curs_length ▸ (List.getElem?_eq_some_iff.mp hfirst).1
  obtain ⟨s', hs', hmerged⟩ := rounds_fallback hlong hdesc hfirst hm.curs_length
    (fun i cur topk hcur htopk => (hm.past hend hcur htopk).ge)
    (hm.past hend (List.getElem?_eq_getElem h0) hfirst ▸ List.getElem?_eq_getElem h0) hroom
  refine ⟨s', ?_, by rw [hmerged, hm.complete hend]⟩
  rw [merge, ← Nat.add_sub_of_le (positives_sum_le k topks), rounds_add, hs, Option.bind_some, hs']

/-- Sorted reports, each with at least `k` entries, whose first `k` have been counted. -/
structure HotReports (k : ℕ) (topks : List TopkData) : Prop where
  long : ∀ topk ∈ topks, k ≤ topk.length
  descending : Descending topks
  positive : ∀ topk ∈ topks, ∀ p ∈ topk.take k, 0 < p.2

/-- The first `k` entries of every report, in the order of the instances. -/
def firstEntries (k : ℕ) (topks : List TopkData) : List (Key × ℕ × ℕ) :=
  (topks.mapIdx fun i topk => (topk.take k).map (tag i)).flatten

theorem HotReports.positives_eq (h : HotReports k topks) {topk : TopkData} (htopk : topk ∈ topks) :
    positives k topk = k := by
  have hall : ∀ p ∈ topk.take k, ranked Prod.snd p = true := fun p hp =>
    decide_eq_true (h.positive topk htopk p hp)
  rw [positives, List.countP_eq_length.mpr hall, List.length_take,
    Nat.min_eq_left (h.long topk htopk)]

theorem HotReports.lanes_eq (h : HotReports k topks) :
    (lanes k topks).flatten = firstEntries k topks := by
  rw [firstEntries]
  congr 1
  apply List.ext_getElem?
  intro i
  rw [lanes, List.getElem?_mapIdx, List.getElem?_mapIdx]
  cases htopk : topks[i]? with
  | none => rfl
  | some topk =>
      rw [Option.map_some, Option.map_some, lane, h.positives_eq (List.mem_of_getElem? htopk)]

theorem HotReports.length_lanes (h : HotReports k topks) :
    (lanes k topks).flatten.length = k * topks.length := by
  rw [Partitioner.length_lanes, List.map_congr_left fun topk htopk => h.positives_eq htopk,
    List.map_const', List.sum_replicate_nat, Nat.mul_comm]

theorem HotReports.merging (h : HotReports k topks) :
    ∃ s, merge k topks = some s ∧ Merging k topks s ∧ (remaining k topks s.curs).flatten = [] := by
  apply merging_start.rounds h.long h.descending
  rw [h.length_lanes, List.length_nil, Nat.zero_add]

theorem HotReports.complete (h : HotReports k topks) {s : Merge} (hm : Merging k topks s)
    (hend : (remaining k topks s.curs).flatten = []) :
    s.merged = stableSort mergedCount (firstEntries k topks) := by
  rw [hm.complete hend, h.lanes_eq]

/-- On such reports the rounds are a stable merge. -/
theorem merged_eq_stableSort (h : HotReports k topks) :
    ∃ s, merge k topks = some s ∧
      s.merged = stableSort mergedCount (firstEntries k topks) := by
  obtain ⟨s, hs, hm, hend⟩ := h.merging
  exact ⟨s, hs, h.complete hm hend⟩

theorem merged_eq_stableSort_tie :
    ∃ s, merge 2 [[(7, 5), (1, 2), (4, 1)], [(3, 5), (7, 3)]] = some s ∧
      s.merged = stableSort mergedCount
        (firstEntries 2 [[(7, 5), (1, 2), (4, 1)], [(3, 5), (7, 3)]]) :=
  merged_eq_stableSort ⟨by decide, by unfold Descending; decide, by decide⟩

/-- The highest count with which a key appears among the first `k` entries of a report. -/
def hottest (k : ℕ) (topks : List TopkData) (x : Key) : ℕ :=
  ((topks.flatMap (List.take k)).filter fun p => p.1 == x).foldr (fun p c => max p.2 c) 0

theorem foldr_max_le {l : List Slot} {c : ℕ} :
    l.foldr (fun p c => max p.2 c) 0 ≤ c ↔ ∀ p ∈ l, p.2 ≤ c := by
  induction l with
  | nil => simp
  | cons p l ih => simp [ih]

theorem hottest_le {x : Key} {c : ℕ} :
    hottest k topks x ≤ c ↔ ∀ topk ∈ topks, ∀ p ∈ topk.take k, p.1 = x → p.2 ≤ c := by
  rw [hottest, foldr_max_le]
  constructor
  · intro h topk htopk p hp hx
    apply h p
    simp only [List.mem_filter, List.mem_flatMap, beq_iff_eq]
    exact ⟨⟨topk, htopk, hp⟩, hx⟩
  · intro h p hp
    simp only [List.mem_filter, List.mem_flatMap, beq_iff_eq] at hp
    obtain ⟨⟨topk, htopk, hp⟩, hx⟩ := hp
    exact h topk htopk p hp hx

theorem mem_firstEntries {a : Key × ℕ × ℕ} :
    a ∈ firstEntries k topks ↔
      ∃ i topk p, topks[i]? = some topk ∧ p ∈ topk.take k ∧ a = tag i p := by
  simp only [firstEntries, List.mem_flatten, List.mem_mapIdx]
  constructor
  · rintro ⟨_, ⟨i, hi, rfl⟩, ha⟩
    obtain ⟨p, hp, rfl⟩ := List.mem_map.mp ha
    exact ⟨i, _, p, List.getElem?_eq_getElem hi, hp, rfl⟩
  · rintro ⟨i, topk, p, htopk, hp, rfl⟩
    obtain ⟨hi, rfl⟩ := List.getElem?_eq_some_iff.mp htopk
    exact ⟨_, ⟨i, hi, rfl⟩, List.mem_map_of_mem hp⟩

/-- A key is as hot as its first position in the merged order. -/
theorem hottest_eq {merged : List (Key × ℕ × ℕ)}
    (hmerged : merged = stableSort mergedCount (firstEntries k topks))
    (hdesc : merged.Pairwise fun a b => mergedCount b ≤ mergedCount a) {x : Key} {position : ℕ}
    (hx : firstPosition merged x = some position) {a : Key × ℕ × ℕ}
    (ha : merged[position]? = some a) : hottest k topks x = mergedCount a := by
  obtain ⟨⟨a', ha', hkey⟩, hleast⟩ := firstPosition_inv hx
  cases ha.symm.trans ha'
  obtain ⟨hlt, rfl⟩ := List.getElem?_eq_some_iff.mp ha
  apply le_antisymm
  · rw [hottest_le]
    intro topk htopk p hp hpx
    obtain ⟨i, hi⟩ := List.mem_iff_getElem?.mp htopk
    have hmem : tag i p ∈ merged := by
      rw [hmerged, mem_stableSort, mem_firstEntries]
      exact ⟨i, topk, p, hi, hp, rfl⟩
    obtain ⟨j, hj⟩ := List.mem_iff_getElem?.mp hmem
    have hle := hleast j _ hj hpx
    obtain ⟨hjlt, hjp⟩ := List.getElem?_eq_some_iff.mp hj
    change mergedCount (tag i p) ≤ _
    rw [← hjp]
    rcases Nat.lt_or_eq_of_le hle with hlt' | rfl
    · exact List.pairwise_iff_getElem.mp hdesc position j hlt hjlt hlt'
    · exact le_rfl
  · have hmem : merged[position] ∈ stableSort mergedCount (firstEntries k topks) :=
      hmerged ▸ List.getElem_mem hlt
    obtain ⟨i, topk, p, htopk, hp, heq⟩ := mem_firstEntries.mp (mem_stableSort.mp hmem)
    rw [heq] at hkey ⊢
    exact hottest_le.mp le_rfl topk (List.mem_of_getElem? htopk) p hp hkey

/-- The exception list holds the keys at the positions below 5000, each in the tier
of its first position, and a key in an earlier tier is at least as hot. -/
theorem tiers_by_hotness (h : HotReports k topks) :
    ∃ s e, merge k topks = some s ∧ repartition k topks = some e ∧
      s.merged = stableSort mergedCount (firstEntries k topks) ∧
      (∀ x, x ∈ e ↔ ∃ position < 5000, ∃ a, s.merged[position]? = some a ∧ a.1 = x) ∧
      (∀ x position, firstPosition s.merged x = some position → e.lookup x =
        if position < 3000 then some 0 else if position < 4000 then some 1
        else if position < 5000 then some 2 else none) ∧
      (∀ x y a b, e.lookup x = some a → e.lookup y = some b → a < b →
        hottest k topks y ≤ hottest k topks x) := by
  obtain ⟨s, hs, hm, hend⟩ := h.merging
  have hmerged := h.complete hm hend
  have he := merge_assigned hs
  refine ⟨s, s.exceptions, hs, by rw [repartition, hs, Option.map_some], hmerged, ?_, ?_, ?_⟩
  · intro x
    rw [he, mem_assignAll, exists_firstPosition]
  · intro x position hx
    rw [he, lookup_assignAll, hx, Option.bind_some, tier]
  · intro x y a b hx hy hab
    rw [he, lookup_assignAll, Option.bind_eq_some_iff] at hx hy
    obtain ⟨px, hpx, hx⟩ := hx
    obtain ⟨py, hpy, hy⟩ := hy
    have hdesc : s.merged.Pairwise fun a b => mergedCount b ≤ mergedCount a := by
      rw [hmerged]
      exact stableSort_descends _
    have hlt := tier_mono hx hy hab
    have hlen := firstPosition_lt hpy
    rw [hottest_eq hmerged hdesc hpx (List.getElem?_eq_getElem (hlt.trans hlen)),
      hottest_eq hmerged hdesc hpy (List.getElem?_eq_getElem hlen)]
    exact List.pairwise_iff_getElem.mp hdesc px py _ hlen hlt

/-- A report of the keys below 3001 with the given counts. -/
def numbered (count : ℕ → ℕ) : TopkData :=
  (List.range 3001).map fun i => (UInt64.ofNat i, count i)

/-- Two instances report the same keys, and the counts of the second one are all 1. -/
def sharedReports : List TopkData := [numbered (3002 - ·), numbered fun _ => 1]

theorem take_numbered (count : ℕ → ℕ) : (numbered count).take 3001 = numbered count :=
  List.take_of_length_le (by simp [numbered])

theorem exists_of_mem_numbered {count : ℕ → ℕ} {p : Slot} (h : p ∈ numbered count) :
    ∃ i < 3001, p.2 = count i := by
  obtain ⟨i, hi, rfl⟩ := List.mem_map.mp h
  exact ⟨i, List.mem_range.mp hi, rfl⟩

theorem pairwise_numbered {count : ℕ → ℕ} (h : Antitone count) :
    (numbered count).Pairwise fun p q => q.2 ≤ p.2 :=
  List.pairwise_map.mpr (List.pairwise_lt_range.imp fun hlt => h hlt.le)

theorem hotReports_shared : HotReports 3001 sharedReports where
  long := by simp [sharedReports, numbered]
  descending := by
    have hantitone : Antitone (3002 - · : ℕ → ℕ) := fun a b hab => Nat.sub_le_sub_left hab 3002
    simp only [Descending, sharedReports, List.forall_mem_cons]
    exact ⟨pairwise_numbered hantitone, pairwise_numbered antitone_const, by simp⟩
  positive := by
    simp only [sharedReports, List.forall_mem_cons]
    refine ⟨fun p hp => ?_, fun p hp => ?_, List.forall_mem_nil _⟩
    · obtain ⟨i, hi, hcount⟩ := exists_of_mem_numbered (List.mem_of_mem_take hp)
      omega
    · obtain ⟨i, -, hcount⟩ := exists_of_mem_numbered (List.mem_of_mem_take hp)
      omega

/-- The first report comes first, since it has the larger counts. -/
theorem sorted_shared : stableSort mergedCount (firstEntries 3001 sharedReports) =
    (numbered (3002 - ·)).map (tag 0) ++ (numbered fun _ => 1).map (tag 1) := by
  have hentries : firstEntries 3001 sharedReports =
      (numbered (3002 - ·)).map (tag 0) ++ (numbered fun _ => 1).map (tag 1) := by
    simp only [firstEntries, sharedReports, List.mapIdx_cons, List.mapIdx_nil, take_numbered,
      List.flatten_cons, List.flatten_nil, List.append_nil]
  rw [hentries, stableSort]
  apply List.Pairwise.insertionSort_eq
  rw [List.pairwise_append]
  obtain ⟨hfirst, hsecond⟩ := List.forall_mem_cons.mp hotReports_shared.descending
  refine ⟨List.pairwise_map.mpr hfirst, List.pairwise_map.mpr (hsecond _ List.mem_cons_self), ?_⟩
  intro a ha b hb
  obtain ⟨p, hp, rfl⟩ := List.mem_map.mp ha
  obtain ⟨q, hq, rfl⟩ := List.mem_map.mp hb
  obtain ⟨i, hi, hp⟩ := exists_of_mem_numbered hp
  obtain ⟨j, -, hq⟩ := exists_of_mem_numbered hq
  show q.2 ≤ p.2
  omega

theorem firstPosition_shared {i : ℕ} (hi : i < 3001) :
    firstPosition (stableSort mergedCount (firstEntries 3001 sharedReports)) (UInt64.ofNat i) =
      some i := by
  rw [sorted_shared, firstPosition, List.findIdx?_append]
  have hfirst : ((numbered (3002 - ·)).map (tag 0)).findIdx? (fun a => a.1 == UInt64.ofNat i) =
      some i := by
    rw [List.findIdx?_eq_some_iff_getElem]
    refine ⟨by simpa [numbered] using hi, by simp [numbered, tag], ?_⟩
    intro j hj
    simp only [numbered, tag, List.map_map, List.getElem_map, List.getElem_range,
      Function.comp_apply, beq_iff_eq, ← UInt64.toNat_inj, UInt64.toNat_ofNat']
    omega
  rw [hfirst]
  rfl

/-- The key 3000 is in the second tier, and the key 0 in the first is as hot. -/
theorem tiers_by_hotness_shared :
    ∃ e, repartition 3001 sharedReports = some e ∧ e.lookup 0 = some 0 ∧
      e.lookup 3000 = some 1 ∧
      hottest 3001 sharedReports 3000 ≤ hottest 3001 sharedReports 0 := by
  obtain ⟨s, e, -, he, hmerged, -, htier, hmono⟩ := tiers_by_hotness hotReports_shared
  have hzero : e.lookup 0 = some 0 :=
    htier 0 0 (hmerged ▸ firstPosition_shared (i := 0) (by decide))
  have hlast : e.lookup 3000 = some 1 :=
    htier 3000 3000 (hmerged ▸ firstPosition_shared (i := 3000) (by decide))
  exact ⟨e, he, hzero, hlast, hmono 0 3000 0 1 hzero hlast (by decide)⟩

end PowerLawRocksdb.Partitioner
