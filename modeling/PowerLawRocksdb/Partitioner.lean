import PowerLawRocksdb.ExceptionList
import Mathlib.Algebra.Order.BigOperators.Group.List
import Mathlib.Algebra.Order.Ring.Nat
import Mathlib.Algebra.Group.Action.Defs

/-!
# The partitioner

The partitioner collects one report per instance and merges the first `k` entries
of each by descending count. A round picks the largest entry under the cursors
and enters its key into the exception list; the position of the round decides
which instance the key is given to. The reports are longer than `k`, because a
round that finds no positive count falls back on the first report, even where its
cursor has passed `k`.
-/
namespace PowerLawRocksdb.Partitioner
open SpaceSaving

abbrev TopkData := List Slot

/-- The access `topks[i][cur]`, undefined out of range. -/
def entry (topks : List TopkData) (i cur : ℕ) : Option Slot := topks[i]?.bind (·[cur]?)

structure Merge where
  merged : List (Key × ℕ × ℕ)
  curs : List ℕ
  exceptions : ExceptionList

/-- One turn of the loop that picks `max_i` and `max_cnt`. -/
def selectStep (k : ℕ) (topks : List TopkData) (curs : List ℕ) (best : ℕ × ℕ) (i : ℕ) :
    Option (ℕ × ℕ) := do
  let cur ← curs[i]?
  if cur < k then
    let p ← entry topks i cur
    return if p.2 > best.2 then (i, p.2) else best
  else return best

def selectMax (k : ℕ) (topks : List TopkData) (curs : List ℕ) (num : ℕ) : Option (ℕ × ℕ) :=
  (List.range num).foldlM (selectStep k topks curs) (0, 0)

/-- The three tiers of positions in the merged order. -/
def assign (e : ExceptionList) (position : ℕ) (key : Key) : ExceptionList :=
  if position < 3000 then e.emplace key 0
  else if position < 4000 then e.emplace key 1
  else if position < 5000 then e.emplace key 2
  else e

def round (k : ℕ) (topks : List TopkData) (s : Merge) : Option Merge := do
  let best ← selectMax k topks s.curs topks.length
  let cur ← s.curs[best.1]?
  let p ← entry topks best.1 cur
  return { merged := s.merged ++ [(p.1, p.2, best.1)]
           curs := s.curs.set best.1 (cur + 1)
           exceptions := assign s.exceptions s.merged.length p.1 }

def rounds (k : ℕ) (topks : List TopkData) : ℕ → Merge → Option Merge
  | 0, s => some s
  | n + 1, s => (round k topks s).bind (rounds k topks n)

/-- The `while` loop: every round lengthens `merged` by one entry. -/
def merge (k : ℕ) (topks : List TopkData) : Option Merge :=
  rounds k topks (k * topks.length) ⟨[], List.replicate topks.length 0, ∅⟩

/-- The exception list that is sent to the coordinator. -/
def repartition (k : ℕ) (topks : List TopkData) : Option ExceptionList :=
  (merge k topks).map Merge.exceptions

/-- A round takes some entry of a report. -/
theorem round_inv {k : ℕ} {topks : List TopkData} {s s' : Merge}
    (h : round k topks s = some s') :
    ∃ i cur p, entry topks i cur = some p ∧ s' = ⟨s.merged ++ [(p.1, p.2, i)],
      s.curs.set i (cur + 1), assign s.exceptions s.merged.length p.1⟩ := by
  simp only [round, Option.bind_eq_bind, Option.bind_eq_some_iff, Option.pure_def,
    Option.some.injEq] at h
  obtain ⟨best, -, cur, -, p, hp, rfl⟩ := h
  exact ⟨best.1, cur, p, hp, rfl⟩

theorem rounds_preserve {k : ℕ} {topks : List TopkData} {I : Merge → Prop}
    (hround : ∀ s s', I s → round k topks s = some s' → I s') {n : ℕ} {s s' : Merge} (hs : I s)
    (h : rounds k topks n s = some s') : I s' := by
  induction n generalizing s with
  | zero =>
      cases h
      exact hs
  | succ n ih =>
      rw [rounds, Option.bind_eq_some_iff] at h
      obtain ⟨t, ht, hrest⟩ := h
      exact ih (hround s t hs ht) hrest

theorem merged_mem_reports {k : ℕ} {topks : List TopkData} {s : Merge}
    (h : merge k topks = some s) :
    ∀ a ∈ s.merged, ∃ topk ∈ topks, (a.1, a.2.1) ∈ topk := by
  refine rounds_preserve (I := fun s => ∀ a ∈ s.merged, ∃ topk ∈ topks, (a.1, a.2.1) ∈ topk) ?_
    (fun a ha => absurd ha List.not_mem_nil) h
  intro s s' hs hround a ha
  obtain ⟨i, cur, p, hp, rfl⟩ := round_inv hround
  rcases List.mem_append.mp ha with ha | ha
  · exact hs a ha
  · rw [List.mem_singleton.mp ha]
    simp only [entry, Option.bind_eq_some_iff] at hp
    obtain ⟨topk, htopk, hp⟩ := hp
    exact ⟨topk, List.mem_of_getElem? htopk, List.mem_of_getElem? hp⟩

/-- The merge can pick from report `i` an entry with count `c`. -/
def Candidate (k : ℕ) (topks : List TopkData) (curs : List ℕ) (i c : ℕ) : Prop :=
  ∃ cur p, curs[i]? = some cur ∧ cur < k ∧ entry topks i cur = some p ∧ p.2 = c

/-- What the selection loop has found among the first `n` reports. -/
structure Selected (k : ℕ) (topks : List TopkData) (curs : List ℕ) (n : ℕ) (best : ℕ × ℕ) :
    Prop where
  none_found : best.2 = 0 → best.1 = 0
  found : 0 < best.2 → Candidate k topks curs best.1 best.2
  max : ∀ i < n, ∀ c, Candidate k topks curs i c → c ≤ best.2

variable {k : ℕ} {topks : List TopkData}

theorem Candidate.lt {curs : List ℕ} (hcurs : curs.length = topks.length) {i c : ℕ}
    (h : Candidate k topks curs i c) : i < topks.length := by
  obtain ⟨cur, p, hcur, -⟩ := h
  exact hcurs ▸ (List.getElem?_eq_some_iff.mp hcur).1

theorem selectMax_succ (curs : List ℕ) (n : ℕ) : selectMax k topks curs (n + 1) =
    (selectMax k topks curs n).bind fun best => selectStep k topks curs best n := by
  simp [selectMax, List.range_succ, List.foldlM_append]

theorem selectMax_spec {curs : List ℕ} {n : ℕ}
    (hread : ∀ i < n, ∃ cur, curs[i]? = some cur ∧ (cur < k → ∃ p, entry topks i cur = some p)) :
    ∃ best, selectMax k topks curs n = some best ∧ Selected k topks curs n best := by
  induction n with
  | zero => exact ⟨(0, 0), rfl, ⟨fun _ => rfl, fun h => absurd h (Nat.lt_irrefl 0), by simp⟩⟩
  | succ n ih =>
      obtain ⟨best, hbest, hsel⟩ := ih fun i hi => hread i (by omega)
      obtain ⟨cur, hcur, hp⟩ := hread n (Nat.lt_succ_self n)
      simp only [selectMax_succ, hbest, Option.bind_some, selectStep, hcur, Option.bind_eq_bind,
        Option.pure_def]
      -- the new report only matters if its entry beats the best one so far
      have hkeep : (∀ c, Candidate k topks curs n c → c ≤ best.2) →
          Selected k topks curs (n + 1) best := fun hn =>
        ⟨hsel.none_found, hsel.found, fun i hi c hc => by
          rcases Nat.lt_succ_iff_lt_or_eq.mp hi with h | rfl
          · exact hsel.max i h c hc
          · exact hn c hc⟩
      by_cases hlt : cur < k
      · obtain ⟨p, hp⟩ := hp hlt
        have huniq : ∀ c, Candidate k topks curs n c → c = p.2 := by
          rintro c ⟨cur', q, hcur', -, hq, rfl⟩
          cases hcur.symm.trans hcur'
          cases hp.symm.trans hq
          rfl
        simp only [hlt, if_true, hp, Option.bind_some]
        by_cases hgt : p.2 > best.2
        · refine ⟨(n, p.2), by simp [hgt], fun h => ?_, fun _ => ⟨cur, p, hcur, hlt, hp, rfl⟩, ?_⟩
          · simp only at h
            omega
          · intro i hi c hc
            rcases Nat.lt_succ_iff_lt_or_eq.mp hi with h | rfl
            · exact (hsel.max i h c hc).trans hgt.le
            · exact (huniq c hc).le
        · exact ⟨best, by simp [hgt], hkeep fun c hc => by rw [huniq c hc]; omega⟩
      · refine ⟨best, by simp [hlt], hkeep ?_⟩
        rintro c ⟨cur', q, hcur', hlt', -⟩
        cases hcur.symm.trans hcur'
        exact absurd hlt' hlt

/-- The comparison is strict, so the selection keeps the first report that attains
the maximum. -/
theorem selectMax_first {curs : List ℕ} {n : ℕ}
    (hread : ∀ i < n, ∃ cur, curs[i]? = some cur ∧ (cur < k → ∃ p, entry topks i cur = some p))
    {best : ℕ × ℕ} (h : selectMax k topks curs n = some best) :
    ∀ i < best.1, ∀ c, Candidate k topks curs i c → c < best.2 := by
  induction n generalizing best with
  | zero =>
      cases h
      intro i hi
      exact absurd hi (Nat.not_lt_zero i)
  | succ n ih =>
      have hread' : ∀ i < n, _ := fun i hi => hread i (Nat.lt_succ_of_lt hi)
      obtain ⟨previous, hprevious, hsel⟩ := selectMax_spec hread'
      obtain ⟨cur, hcur, hp⟩ := hread n (Nat.lt_succ_self n)
      have hkept := ih hread' hprevious
      simp only [selectMax_succ, hprevious, Option.bind_some, selectStep, hcur,
        Option.bind_eq_bind, Option.pure_def] at h
      split_ifs at h with hlt
      · obtain ⟨p, hp⟩ := hp hlt
        simp only [hp, Option.bind_some, Option.some.injEq] at h
        subst h
        split_ifs with hgt
        · intro i hi c hc
          exact (hsel.max i hi c hc).trans_lt hgt
        · exact hkept
      · cases h
        exact hkept

/-- Without a positive entry under the cursors the selection keeps its start value,
so the round falls back on the first report. -/
theorem selectMax_eq_zero {curs : List ℕ} {n : ℕ}
    (hread : ∀ i < n, ∃ cur, curs[i]? = some cur ∧ (cur < k → ∃ p, entry topks i cur = some p))
    (hzero : ∀ i c, Candidate k topks curs i c → c = 0) :
    selectMax k topks curs n = some (0, 0) := by
  obtain ⟨best, hbest, hsel⟩ := selectMax_spec hread
  rcases Nat.eq_zero_or_pos best.2 with h0 | hpos
  · rw [hbest, Option.some.injEq]
    exact Prod.ext (hsel.none_found h0) h0
  · exact absurd (hzero _ _ (hsel.found hpos)) hpos.ne'

theorem entry_readable (hlong : ∀ topk ∈ topks, k ≤ topk.length) {curs : List ℕ}
    (hcurs : curs.length = topks.length) : ∀ i < topks.length,
    ∃ cur, curs[i]? = some cur ∧ (cur < k → ∃ p, entry topks i cur = some p) := by
  intro i hi
  refine ⟨curs[i], List.getElem?_eq_getElem (hcurs ▸ hi), fun hk => ?_⟩
  have hlt := hk.trans_le (hlong _ (List.getElem_mem hi))
  exact ⟨topks[i][curs[i]], by simp [entry, hi, hlt]⟩

theorem round_fallback (hlong : ∀ topk ∈ topks, k ≤ topk.length) {s : Merge}
    (hcurs : s.curs.length = topks.length)
    (hzero : ∀ i c, Candidate k topks s.curs i c → c = 0) {cur : ℕ}
    (hcur : s.curs[0]? = some cur) :
    round k topks s = (entry topks 0 cur).map fun p => ⟨s.merged ++ [(p.1, p.2, 0)],
      s.curs.set 0 (cur + 1), assign s.exceptions s.merged.length p.1⟩ := by
  have hsel := selectMax_eq_zero (entry_readable hlong hcurs) hzero
  simp only [round, hsel, hcur, Option.bind_eq_bind, Option.bind_some, Option.pure_def]
  cases entry topks 0 cur with
  | none => rfl
  | some p => rfl

theorem sum_set_add {l : List ℕ} {i c d : ℕ} (h : l[i]? = some c) :
    (l.set i (c + d)).sum = l.sum + d := by
  induction l generalizing i with
  | nil => simp at h
  | cons a l ih =>
      cases i with
      | zero =>
          simp only [List.getElem?_cons_zero, Option.some.injEq] at h
          simp only [List.set_cons_zero, List.sum_cons]
          omega
      | succ i =>
          simp only [List.getElem?_cons_succ] at h
          simp only [List.set_cons_succ, List.sum_cons, ih h]
          omega

theorem mem_assign {e : ExceptionList} {position : ℕ} {key x : Key} (h : position < 5000) :
    x ∈ assign e position key ↔ x = key ∨ x ∈ e := by
  rw [assign]
  split_ifs
  all_goals exact ExceptionList.mem_emplace

/-- What holds of the merge after any number of rounds. -/
structure Progress (k : ℕ) (topks : List TopkData) (s : Merge) : Prop where
  curs_length : s.curs.length = topks.length
  curs_sum : s.curs.sum = s.merged.length
  /-- No cursor passes `k` before every positive entry has been picked. -/
  fair : (∃ i c, Candidate k topks s.curs i c ∧ 0 < c) → ∀ cur ∈ s.curs, cur ≤ k
  entered : ∀ i cur j p, s.curs[i]? = some cur → j < cur → entry topks i j = some p →
    p.1 ∈ s.exceptions

/-- The reports are long enough for every round, and sorted. -/
structure Reports (k : ℕ) (topks : List TopkData) : Prop where
  long : ∀ topk ∈ topks, k * topks.length ≤ topk.length
  descending : ∀ topk ∈ topks, topk.Pairwise fun p q => q.2 ≤ p.2

theorem entry_of_lt (hlong : ∀ topk ∈ topks, k * topks.length ≤ topk.length) {i cur : ℕ}
    (hi : i < topks.length) (hcur : cur < k * topks.length) : ∃ p, entry topks i cur = some p := by
  have hlen := hlong _ (List.getElem_mem hi)
  refine ⟨topks[i][cur], ?_⟩
  simp [entry, hi, hcur.trans_le hlen]

theorem Reports.entry_descends (h : Reports k topks) {i a b : ℕ} {p q : Slot} (hab : a < b)
    (hp : entry topks i a = some p) (hq : entry topks i b = some q) : q.2 ≤ p.2 := by
  simp only [entry, Option.bind_eq_some_iff] at hp hq
  obtain ⟨topk, htopk, hp⟩ := hp
  obtain ⟨topk', htopk', hq⟩ := hq
  cases htopk.symm.trans htopk'
  obtain ⟨ha, rfl⟩ := List.getElem?_eq_some_iff.mp hp
  obtain ⟨hb, rfl⟩ := List.getElem?_eq_some_iff.mp hq
  exact List.pairwise_iff_getElem.mp (h.descending topk (List.mem_of_getElem? htopk)) a b ha hb hab

/-- A candidate of the next round was one, with at least its count, before. -/
theorem Candidate.of_set (hr : Reports k topks) {curs : List ℕ} {i₀ cur : ℕ} {p : Slot}
    (hcur : curs[i₀]? = some cur) (hp : entry topks i₀ cur = some p) {i c : ℕ}
    (h : Candidate k topks (curs.set i₀ (cur + 1)) i c) :
    ∃ c', Candidate k topks curs i c' ∧ c ≤ c' := by
  obtain ⟨cur', q, hcur', hk, hq, rfl⟩ := h
  by_cases hi : i₀ = i
  · subst hi
    rw [List.getElem?_set_self (List.getElem?_eq_some_iff.mp hcur).1] at hcur'
    cases hcur'
    exact ⟨p.2, ⟨cur, p, hcur, by omega, hp, rfl⟩, hr.entry_descends (Nat.lt_succ_self cur) hp hq⟩
  · rw [List.getElem?_set_ne hi] at hcur'
    exact ⟨q.2, ⟨cur', q, hcur', hk, hq, rfl⟩, le_rfl⟩

/-- A round picks some entry under the cursors. If a positive one is left, the
cursor that moves has not reached `k`. -/
theorem round_eq (hlong : ∀ topk ∈ topks, k * topks.length ≤ topk.length) {s : Merge}
    (hcurs : s.curs.length = topks.length) (hsum : s.curs.sum = s.merged.length)
    (hlt : s.merged.length < k * topks.length) :
    ∃ i cur p, s.curs[i]? = some cur ∧ entry topks i cur = some p ∧
      ((∃ j c, Candidate k topks s.curs j c ∧ 0 < c) → cur < k) ∧
      round k topks s = some ⟨s.merged ++ [(p.1, p.2, i)], s.curs.set i (cur + 1),
        assign s.exceptions s.merged.length p.1⟩ := by
  have hread : ∀ i < topks.length, ∃ cur p, s.curs[i]? = some cur ∧ entry topks i cur = some p := by
    intro i hi
    have hcur := List.getElem?_eq_getElem (hcurs ▸ hi : i < s.curs.length)
    have hle := List.le_sum_of_mem (List.mem_of_getElem? hcur)
    obtain ⟨p, hp⟩ := entry_of_lt hlong hi (hle.trans_lt (hsum ▸ hlt))
    exact ⟨_, p, hcur, hp⟩
  obtain ⟨best, hbest, hsel⟩ : ∃ best, selectMax k topks s.curs topks.length = some best ∧
      Selected k topks s.curs topks.length best :=
    selectMax_spec fun i hi => (hread i hi).imp fun _ ⟨p, hcur, hp⟩ => ⟨hcur, fun _ => ⟨p, hp⟩⟩
  have hi : best.1 < topks.length := by
    rcases Nat.eq_zero_or_pos best.2 with h0 | h0
    · rw [hsel.none_found h0]
      exact Nat.pos_of_mul_pos_left (Nat.zero_lt_of_lt hlt)
    · exact (hsel.found h0).lt hcurs
  obtain ⟨cur, p, hcur, hp⟩ := hread best.1 hi
  refine ⟨best.1, cur, p, hcur, hp, ?_, by simp [round, hbest, hcur, hp]⟩
  rintro ⟨j, c, hc, hpos⟩
  obtain ⟨cur', q, hcur', hk, -⟩ := hsel.found (hpos.trans_le (hsel.max j (hc.lt hcurs) c hc))
  cases hcur.symm.trans hcur'
  exact hk

theorem round_progress (hr : Reports k topks) {s : Merge} (h : Progress k topks s)
    (hlt : s.merged.length < k * topks.length) (h5000 : s.merged.length < 5000) :
    ∃ s', round k topks s = some s' ∧ s'.merged.length = s.merged.length + 1 ∧
      Progress k topks s' := by
  obtain ⟨i, cur, p, hcur, hp, hk, hs'⟩ := round_eq hr.long h.curs_length h.curs_sum hlt
  have hi := (List.getElem?_eq_some_iff.mp hcur).1
  refine ⟨_, hs', by simp, ⟨by simp [h.curs_length], ?_, ?_, ?_⟩⟩
  · simp [sum_set_add hcur, h.curs_sum]
  · rintro ⟨j, c, hc, hpos⟩ cur' hmem
    obtain ⟨c', hc', hle⟩ := hc.of_set hr hcur hp
    have hleft : ∃ j c, Candidate k topks s.curs j c ∧ 0 < c := ⟨j, c', hc', hpos.trans_le hle⟩
    rcases List.mem_or_eq_of_mem_set hmem with hold | rfl
    · exact h.fair hleft cur' hold
    · exact hk hleft
  · intro j cur' n q hcur' hn hq
    rw [mem_assign h5000]
    by_cases hij : i = j
    · subst hij
      rw [List.getElem?_set_self hi] at hcur'
      cases hcur'
      rcases Nat.lt_succ_iff_lt_or_eq.mp hn with hn | rfl
      · exact Or.inr (h.entered i cur n q hcur hn hq)
      · cases hp.symm.trans hq
        exact Or.inl rfl
    · rw [List.getElem?_set_ne hij] at hcur'
      exact Or.inr (h.entered j cur' n q hcur' hn hq)

theorem rounds_progress (hr : Reports k topks) (h5000 : k * topks.length ≤ 5000) {s : Merge}
    (h : Progress k topks s) {n : ℕ} (hn : s.merged.length + n = k * topks.length) :
    ∃ s', rounds k topks n s = some s' ∧ s'.merged.length = k * topks.length ∧
      Progress k topks s' := by
  induction n generalizing s with
  | zero => exact ⟨s, rfl, hn, h⟩
  | succ n ih =>
      obtain ⟨s', hs', hlen, h'⟩ := round_progress hr h (by omega) (by omega)
      obtain ⟨r, hr', hrest⟩ := ih h' (by omega)
      exact ⟨r, by rw [rounds, hs', Option.bind_some, hr'], hrest⟩

theorem progress_start : Progress k topks ⟨[], List.replicate topks.length 0, ∅⟩ where
  curs_length := by simp
  curs_sum := by simp
  fair _ cur hcur := by simp [List.eq_of_mem_replicate hcur]
  entered i cur j p hcur hj _ := by
    rw [List.eq_of_mem_replicate (List.mem_of_getElem? hcur)] at hj
    exact absurd hj (Nat.not_lt_zero j)

/-- After the last round no positive entry among the first `k` is left. -/
theorem Progress.none_left {s : Merge} (h : Progress k topks s)
    (hend : s.merged.length = k * topks.length) {i c : ℕ} (hc : Candidate k topks s.curs i c) :
    c = 0 := by
  by_contra hpos
  have hle := h.fair ⟨i, c, hc, Nat.pos_of_ne_zero hpos⟩
  obtain ⟨cur, p, hcur, hk, -⟩ := hc
  have hset : ∀ x ∈ s.curs.set i (cur + (k - cur)), x ≤ k := fun x hx => by
    rcases List.mem_or_eq_of_mem_set hx with hx | rfl
    · exact hle x hx
    · omega
  have hsum := List.sum_le_card_nsmul _ _ hset
  rw [sum_set_add hcur, h.curs_sum, hend, List.length_set, h.curs_length, smul_eq_mul,
    Nat.mul_comm] at hsum
  omega

/-- Every positive entry among the first `k` of a report is entered into the
exception list, as long as the merge stays within the last tier. -/
theorem repartition_covers (hr : Reports k topks) (h5000 : k * topks.length ≤ 5000) :
    ∃ e, repartition k topks = some e ∧
      ∀ topk ∈ topks, ∀ p ∈ topk.take k, 0 < p.2 → p.1 ∈ e := by
  obtain ⟨s, hs, hend, h⟩ := rounds_progress hr h5000 progress_start (Nat.zero_add _)
  refine ⟨s.exceptions, by simp [repartition, merge, hs], fun topk htopk p hp hpos => ?_⟩
  obtain ⟨i, hi, rfl⟩ := List.getElem_of_mem htopk
  obtain ⟨j, hj, hjp⟩ := List.getElem_of_mem hp
  have hjk : j < k := lt_of_lt_of_le hj (List.length_take_le ..)
  have hentry : entry topks i j = some p := by
    rw [← hjp, List.getElem_take]
    simp [entry, hi]
  have hcur := List.getElem?_eq_getElem (h.curs_length ▸ hi : i < s.curs.length)
  refine h.entered i _ j p hcur ?_ hentry
  -- otherwise the entry under the cursor is at least as large, hence still a candidate
  by_contra hle
  rcases Nat.lt_or_eq_of_le (Nat.le_of_not_lt hle) with hlt | heq
  · obtain ⟨q, hq⟩ := entry_of_lt hr.long hi
      (hlt.trans (hjk.trans_le (Nat.le_mul_of_pos_right k (by omega))))
    have h0 := h.none_left hend ⟨_, q, hcur, hlt.trans hjk, hq, rfl⟩
    have := hr.entry_descends hlt hq hentry
    omega
  · have h0 := h.none_left hend ⟨_, p, hcur, by omega, heq ▸ hentry, rfl⟩
    omega

end PowerLawRocksdb.Partitioner
