import PowerLawRocksdb.HeavyHitters
import PowerLawRocksdb.Partitioner

/-!
# Hot keys reach the exception list

The partitioner asks every instance for its `3 * k` most frequent keys and merges
the first `k` of each report. Behind `k`, the reports only serve as a reserve for
rounds that find no positive count. The guarantee of the trackers and the
fairness of the merge then compose: a key that makes up more than a `k + 1`-th of
the window of some instance is entered into the exception list.
-/
namespace PowerLawRocksdb.HotKeys
open SpaceSaving SpaceSavingWindow HeavyHitters StandardSort Partitioner

variable {m : ℕ}

structure Instance (m : ℕ) where
  spaceSaving : Option (Tracker m)
  sort : StdSort Slot comparePair

def Instance.reportTopk (inst : Instance m) (k : ℕ) : Option (TopkData × Instance m) :=
  match inst.spaceSaving with
  | none => some ([], inst)
  | some t => (t.extractTopK inst.sort k).map fun r => (r.1, { inst with spaceSaving := some r.2 })

/-- `Partitioner::run`: the exceptions that are sent, and the instances afterwards. -/
def run (k : ℕ) (instances : List (Instance m)) : Option (ExceptionList × List (Instance m)) := do
  let reports ← instances.mapM fun inst => inst.reportTopk (3 * k)
  let exceptions ← repartition k (reports.map Prod.fst)
  return (exceptions, reports.map Prod.snd)

structure FullInstance (m : ℕ) where
  start : Tracker m
  start_ok : WindowStart start
  window : Window
  tracker : Tracker m
  processed : processKeys start window.keys = some tracker
  full : tracker.numItems = m
  sort : StdSort Slot comparePair

def FullInstance.toInstance (inst : FullInstance m) : Instance m := ⟨some inst.tracker, inst.sort⟩

/-- Key `x` makes up more than a `k + 1`-th of the window of the instance. -/
def FullInstance.Hot (inst : FullInstance m) (k : ℕ) (x : Key) : Prop :=
  inst.window.keys.length < inst.window.keys.count x * (k + 1)

structure Usable (k : ℕ) (topk : TopkData) : Prop where
  length : topk.length = 3 * k
  descending : topk.Pairwise fun p q => q.2 ≤ p.2

def Covers (k : ℕ) (inst : FullInstance m) (topk : TopkData) : Prop :=
  ∀ x, inst.Hot k x → ∃ c, (x, c) ∈ topk.take k ∧ 0 < c

theorem FullInstance.reportTopk (inst : FullInstance m) {k : ℕ} (hk : 1 ≤ k) (hm : 3 * k ≤ m) :
    ∃ r, inst.toInstance.reportTopk (3 * k) = some r ∧ Usable k r.1 ∧ Covers k inst r.1 := by
  obtain ⟨t, ht, hs⟩ := inst.start_ok.processKeys (by omega) inst.window
  cases inst.processed.symm.trans ht
  obtain ⟨c, hclear, hext⟩ := extractTopK_defined hs.ready.items_le
    (hs.min (hs.ne_nil (by rw [inst.full]; omega))) hm inst.sort
  have hrep : inst.toInstance.reportTopk (3 * k) =
      some ((inst.sort.run c.freqArray).take (3 * k),
        ⟨some (c.sortSlots inst.sort).resetFreqArray, inst.sort⟩) := by
    simp only [Instance.reportTopk, toInstance, hext, Option.map_some]
  refine ⟨_, hrep, ⟨?_, (inst.sort.descends _).sublist (List.take_sublist _ _)⟩, fun x hx => ?_⟩
  · rw [List.length_take, inst.sort.length_run, c.size]
    omega
  · obtain ⟨n, hmem, hle, -⟩ := heavy_mem_take hs inst.full (by omega) hclear inst.sort hx
    have hpos : 0 < inst.window.keys.count x := Nat.pos_of_mul_pos_right (Nat.zero_lt_of_lt hx)
    exact ⟨n, by rwa [List.take_take, Nat.min_eq_left (by omega)], hpos.trans_le hle⟩

theorem reports_of_full {k : ℕ} (hk : 1 ≤ k) (hm : 3 * k ≤ m) (insts : List (FullInstance m)) :
    ∃ rs, (insts.map FullInstance.toInstance).mapM (fun inst => inst.reportTopk (3 * k)) = some rs ∧
      rs.length = insts.length ∧ (∀ topk ∈ rs.map Prod.fst, Usable k topk) ∧
      ∀ inst ∈ insts, ∃ topk ∈ rs.map Prod.fst, Covers k inst topk := by
  induction insts with
  | nil => exact ⟨[], rfl, rfl, by simp, by simp⟩
  | cons inst insts ih =>
      obtain ⟨r, hr, huse, hcov⟩ := inst.reportTopk hk hm
      obtain ⟨rs, hrs, hlen, huses, hcovs⟩ := ih
      refine ⟨r :: rs, by simp [hr, hrs], by simp [hlen], ?_, ?_⟩
      · simpa only [List.map_cons, List.forall_mem_cons] using ⟨huse, huses⟩
      · rintro i (_ | ⟨_, hi⟩)
        · exact ⟨r.1, List.mem_cons_self, hcov⟩
        · obtain ⟨topk, hmem, h⟩ := hcovs i hi
          exact ⟨topk, List.mem_cons_of_mem _ hmem, h⟩

/-- No hot key is missed by a repartition. -/
theorem run_covers_hot {k : ℕ} (hk : 1 ≤ k) (h5000 : 3 * k ≤ 5000) (hm : 3 * k ≤ m)
    (insts : List (FullInstance m)) (h3 : insts.length = 3) :
    ∃ e rest, run k (insts.map FullInstance.toInstance) = some (e, rest) ∧
      ∀ inst ∈ insts, ∀ x, inst.Hot k x → x ∈ e := by
  obtain ⟨rs, hrs, hlen, huse, hcov⟩ := reports_of_full hk hm insts
  have hnum : k * (rs.map Prod.fst).length = 3 * k := by
    rw [List.length_map, hlen, h3, Nat.mul_comm]
  have hreports : Reports k (rs.map Prod.fst) :=
    ⟨fun topk h => by rw [hnum, (huse topk h).length], fun topk h => (huse topk h).descending⟩
  obtain ⟨e, he, hall⟩ := repartition_covers hreports (hnum.trans_le h5000)
  refine ⟨e, rs.map Prod.snd, by simp [run, hrs, he], fun inst hinst x hx => ?_⟩
  obtain ⟨topk, htopk, h⟩ := hcov inst hinst
  obtain ⟨c, hc, hpos⟩ := h x hx
  exact hall topk htopk _ hc hpos

theorem run_covers_hot_evicting :
    ∃ e, (run 1 (List.replicate 3 ⟨processKeys (Tracker.init 3) [5, 5, 7, 9, 5, 5, 2],
        .descending Prod.snd⟩)).map Prod.fst = some e ∧ 5 ∈ e := by
  obtain ⟨t, ht, hfull⟩ : ∃ t, processKeys (Tracker.init 3) [5, 5, 7, 9, 5, 5, 2] = some t ∧
      t.numItems = 3 := ⟨_, rfl, rfl⟩
  have inst : { inst : FullInstance 3 // inst.window.keys = [5, 5, 7, 9, 5, 5, 2] ∧
      inst.toInstance = ⟨some t, .descending Prod.snd⟩ } :=
    ⟨⟨Tracker.init 3, Or.inl rfl, ⟨_, by decide⟩, t, ht, hfull, .descending Prod.snd⟩, rfl, rfl⟩
  obtain ⟨e, rest, he, hall⟩ := run_covers_hot (k := 1) (by decide) (by decide) (by decide)
    (List.replicate 3 inst.1) rfl
  refine ⟨e, ?_, hall inst.1 (by simp) 5 ?_⟩
  · rw [List.map_replicate, inst.2.2] at he
    rw [ht, he]
    rfl
  · rw [FullInstance.Hot, inst.2.1]
    decide

/-- In a longer window a count can wrap. Here the key 5 makes up almost all of it, but
the three instances report only the key 7. -/
theorem hot_key_missed :
    (List.replicate (2 ^ 64) 5 ++ [7, 7, 9, 9] : List Key).length <
        (List.replicate (2 ^ 64) 5 ++ [7, 7, 9, 9] : List Key).count 5 * (1 + 1) ∧
      ∃ t e rest, processKeys (Tracker.init 3) (List.replicate (2 ^ 64) 5 ++ [7, 7, 9, 9]) =
          some t ∧
        t.numItems = 3 ∧
        run 1 (List.replicate 3 ⟨some t, .descending Prod.snd⟩) = some (e, rest) ∧ 5 ∉ e := by
  refine ⟨?_, ⟨[(5, 0), (7, 2), (9, 2)], 3, 0, rfl⟩, _, _, ?_, rfl, rfl, ?_⟩
  · rw [List.count_append, List.count_replicate_self, List.length_append, List.length_replicate]
    decide
  · rw [processKeys_wrapped]
    rfl
  · decide

end PowerLawRocksdb.HotKeys
