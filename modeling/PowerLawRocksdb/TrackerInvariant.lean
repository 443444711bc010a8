import PowerLawRocksdb.ReportWindows

/-!
# The invariant of the array tracker over whole sessions

The first half is about the range of the accesses. `min_key_index_` starts at -1
and is never reset: it survives the sort and `ResetFreqArray`. A session can
therefore fail in two ways only, by a report before the first key and by a report
of more than `m_` pairs.

The second half is about `SetMin`, which stops at the first slot that is smaller
than the current one. It is compared with the search that goes on to the end.
Both end at the same count, as long as no call wraps the count that it increments.
-/
namespace PowerLawRocksdb.TrackerInvariant
open SpaceSaving SpaceSavingUpdate SpaceSavingWindow ReportWindows StandardSort

variable {m : ℕ}

/-! ### The range of the accesses -/

theorem extractTopK_init (m : ℕ) (sort : StdSort Slot comparePair) (k : ℕ) :
    (Tracker.init m).extractTopK sort k = none := rfl

theorem inLength_of_step {s s' : Session m} {call : Call} (hstep : s.step call = some s') :
    InLength m call := by
  intro sort k hcall
  subst hcall
  obtain ⟨⟨topk, t⟩, ht, -⟩ := Option.map_eq_some_iff.mp hstep
  obtain ⟨_, _, hk, _⟩ := extractTopK_eq_some ht
  exact hk

theorem usable_step {s s' : Session m} {call : Call} (h : Coherent s) (hu : Usable s) (h0 : 0 < m)
    (hstep : s.step call = some s') : Usable s' := by
  obtain ⟨s₁, hs₁, -, hu₁⟩ := step_defined h hu h0 (inLength_of_step hstep)
  cases hstep.symm.trans hs₁
  exact hu₁

/-- A session without an access outside the array has not begun or began with a key. -/
theorem usable_of_run (hm : 1 ≤ m) {calls : List Call} {s : Session m}
    (h : Transitions.run Session.step (Session.init m) calls = some s) :
    calls = [] ∨ (∃ key, Call.processKey key ∈ calls) ∧ Usable s := by
  cases calls with
  | nil => exact Or.inl rfl
  | cons call calls =>
      obtain ⟨s₁, hs₁, hrun⟩ := Transitions.run_cons.mp h
      cases call with
      | extractTopK sort k => cases hs₁
      | processKey key =>
          refine Or.inr ⟨⟨key, List.mem_cons_self⟩, ?_⟩
          obtain ⟨s₂, hs₂, hu⟩ := processKey_usable (coherent_init m) hm key
          cases hs₁.symm.trans hs₂
          have hstep : ∀ (s : Session m) (call : Call) (s' : Session m),
              Coherent s ∧ Usable s → s.step call = some s' → Coherent s' ∧ Usable s' :=
            fun s call s' hs hs' => ⟨hs.1.step hs', usable_step hs.1 hs.2 hm hs'⟩
          exact (Transitions.run_preserves hstep ⟨(coherent_init m).step hs₁, hu⟩ hrun).2

theorem admissible_of_run {calls : List Call} {s : Session m}
    (h : Transitions.run Session.step (Session.init m) calls = some s) : Admissible m calls := by
  constructor
  · intro sort k hmem
    obtain ⟨before, after, rfl⟩ := List.append_of_mem hmem
    rw [Transitions.run_append] at h
    obtain ⟨s₁, -, hrun⟩ := Option.bind_eq_some_iff.mp h
    obtain ⟨s₂, hs₂, -⟩ := Transitions.run_cons.mp hrun
    exact inLength_of_step hs₂ sort k rfl
  · rintro sort k rest rfl
    cases h

/-- The sessions without an access outside `freq_array_` are the admissible ones.
After such a session a `ProcessKey` call stays inside the array, and a report
does exactly when a key has been processed and its length is at most `m_`. -/
theorem accesses_in_range_iff (hm : 1 ≤ m) (calls : List Call) :
    ((∃ s, Transitions.run Session.step (Session.init m) calls = some s) ↔
        Admissible m calls) ∧
      ∀ s, Transitions.run Session.step (Session.init m) calls = some s →
        (∀ key, ∃ t, s.tracker.processKey key = some t) ∧
          ∀ sort k, (∃ r, s.tracker.extractTopK sort k = some r) ↔
            (∃ key, Call.processKey key ∈ calls) ∧ k ≤ m := by
  refine ⟨⟨fun ⟨s, hs⟩ => admissible_of_run hs, run_defined hm⟩, fun s hs => ?_⟩
  have hcoherent : Coherent s :=
    Transitions.run_preserves (fun _ _ _ h hstep => h.step hstep) (coherent_init m) hs
  constructor
  · intro key
    obtain ⟨s', hs', -⟩ := processKey_usable hcoherent hm key
    obtain ⟨t, ht, -⟩ := Option.map_eq_some_iff.mp hs'
    exact ⟨t, ht⟩
  · intro sort k
    constructor
    · rintro ⟨⟨topk, t⟩, ht⟩
      obtain ⟨_, _, hk, _⟩ := extractTopK_eq_some ht
      rcases usable_of_run hm hs with rfl | ⟨hkey, -⟩
      · cases hs
        cases (extractTopK_init m sort k).symm.trans ht
      · exact ⟨hkey, hk⟩
    · rintro ⟨⟨key, hkey⟩, hk⟩
      rcases usable_of_run hm hs with rfl | ⟨-, hu⟩
      · cases hkey
      · obtain ⟨s', hs', -⟩ := extractTopK_usable hu sort hk
        obtain ⟨r, hr, -⟩ := Option.map_eq_some_iff.mp hs'
        exact ⟨r, hr⟩

/-- After a key and a report, a report of two pairs is in range and one of three is not. -/
theorem accesses_in_range_iff_two :
    ∃ s : Session 2, Transitions.run Session.step (Session.init 2)
        [.processKey 7, .extractTopK (.descending Prod.snd) 1] = some s ∧
      (∃ r, s.tracker.extractTopK (.descending Prod.snd) 2 = some r) ∧
      ¬ ∃ r, s.tracker.extractTopK (.descending Prod.snd) 3 = some r := by
  have h := accesses_in_range_iff (show 1 ≤ 2 by decide)
    [.processKey 7, .extractTopK (.descending Prod.snd) 1]
  obtain ⟨s, hs⟩ : ∃ s : Session 2, Transitions.run Session.step (Session.init 2)
      [.processKey 7, .extractTopK (.descending Prod.snd) 1] = some s := ⟨_, rfl⟩
  have hreport := (h.2 s hs).2 (.descending Prod.snd)
  refine ⟨s, hs, (hreport 2).mpr ⟨⟨7, List.mem_cons_self⟩, le_rfl⟩, fun hthree => ?_⟩
  exact absurd ((hreport 3).mp hthree).2 (by decide)

/-! ### The search for the minimum -/

/-- `ProcessKey` up to its call of `SetMin`, and whether it makes the call. -/
def updateSlot (t : Tracker m) (key : Key) : Option (Tracker m × Bool) := do
  match ← t.findFrom key t.numItems 0 with
  | some i =>
      let s ← t.read i
      let t ← t.write i (s.1, increment s.2)
      let min ← t.read t.minKeyIndex
      some (t, decide (key = min.1))
  | none =>
      if t.numItems < m then
        let t ← t.write t.numItems (key, 1)
        some ({ t with minKeyIndex := t.numItems, numItems := t.numItems + 1 }, false)
      else
        let min ← t.read t.minKeyIndex
        let t ← t.write t.minKeyIndex (key, increment min.2)
        some (t, true)

/-- The loop of `SetMin` without its early exit. -/
def fullScanFrom (t : Tracker m) : (left i : ℕ) → Option (Tracker m)
  | 0, _ => some t
  | left + 1, i => do
      let s ← t.read i
      let min ← t.read t.minKeyIndex
      fullScanFrom (if s.2 < min.2 then { t with minKeyIndex := i } else t) left (i + 1)

def fullScan (t : Tracker m) : Option (Tracker m) := fullScanFrom t t.numItems 0

def minCount (t : Tracker m) : Option ℕ := (t.read t.minKeyIndex).map Prod.snd

theorem processKey_eq (t : Tracker m) (key : Key) :
    t.processKey key =
      (updateSlot t key).bind fun r => if r.2 then r.1.setMin else some r.1 := by
  unfold Tracker.processKey updateSlot
  cases t.findFrom key t.numItems 0 with
  | none => rfl
  | some found =>
      cases found with
      | some i => simp [Option.bind_assoc]
      | none =>
          by_cases hm : t.numItems < m
          · simp [hm, Option.bind_assoc]
          · simp [hm, Option.bind_assoc]

theorem write_frame {t u : Tracker m} {i : ℤ} {s : Slot} (h : t.write i s = some u) :
    u.minKeyIndex = t.minKeyIndex ∧ u.numItems = t.numItems := by
  unfold Tracker.write at h
  split_ifs at h
  cases h
  exact ⟨rfl, rfl⟩

/-- `SetMin` starts from the index of the call before, in an array with live slots. -/
theorem updateSlot_search {t u : Tracker m} {key : Key} (h0 : 0 < m)
    (h : updateSlot t key = some (u, true)) :
    u.minKeyIndex = t.minKeyIndex ∧ u.numItems = t.numItems ∧ 0 < t.numItems := by
  have hpos : 0 < t.numItems := by
    rcases Nat.eq_zero_or_pos t.numItems with hn | hn
    · simp [updateSlot, hn, Tracker.findFrom, h0, Option.bind_eq_some_iff] at h
    · exact hn
  simp only [updateSlot, Option.bind_eq_bind, Option.bind_eq_some_iff] at h
  obtain ⟨found, -, h⟩ := h
  cases found with
  | some i =>
      simp only [Option.bind_eq_some_iff, Option.some.injEq, Prod.mk.injEq] at h
      obtain ⟨s, -, v, hv, min, -, rfl, -⟩ := h
      obtain ⟨hidx, hn⟩ := write_frame hv
      exact ⟨hidx, hn, hpos⟩
  | none =>
      split_ifs at h with hm
      · simp [Option.bind_eq_some_iff] at h
      · simp only [Option.bind_eq_some_iff, Option.some.injEq, Prod.mk.injEq] at h
        obtain ⟨min, -, v, hv, rfl, -⟩ := h
        obtain ⟨hidx, hn⟩ := write_frame hv
        exact ⟨hidx, hn, hpos⟩

/-- By induction on the slots to go: the current minimum is least among those seen. -/
theorem fullScanFrom_spec {t : Tracker m} {left i j : ℕ} {p : Slot} (hle : i + left ≤ m)
    (hidx : t.minKeyIndex = (j : ℕ)) (hj : j < i + left) (hp : t.freqArray[j]? = some p)
    (hseen : ∀ q ∈ t.freqArray.take i, p.2 ≤ q.2) :
    ∃ k r, k < i + left ∧ t.freqArray[k]? = some r ∧
      fullScanFrom t left i = some { t with minKeyIndex := k } ∧
      ∀ q ∈ t.freqArray.take (i + left), r.2 ≤ q.2 := by
  induction left generalizing t i j p with
  | zero =>
      refine ⟨j, p, hj, hp, ?_, hseen⟩
      rw [fullScanFrom, ← hidx]
  | succ left ih =>
      obtain ⟨s, hread, hs⟩ := t.read_of_lt (show i < m by omega)
      have hmin : t.read t.minKeyIndex = some p := by rw [hidx, t.read_nat, hp]
      have htake : t.freqArray.take (i + 1) = t.freqArray.take i ++ [s] := by
        rw [List.take_add_one, hs, Option.toList_some]
      rw [show i + (left + 1) = i + 1 + left by omega] at hle hj ⊢
      by_cases hlt : s.2 < p.2
      · have hseen' : ∀ q ∈ t.freqArray.take (i + 1), s.2 ≤ q.2 := by
          intro q hq
          rw [htake] at hq
          rcases List.mem_append.mp hq with hq | hq
          · exact hlt.le.trans (hseen q hq)
          · rw [List.mem_singleton.mp hq]
        obtain ⟨k, r, hk, hr, he, hall⟩ :=
          ih (t := { t with minKeyIndex := i }) hle rfl (by omega) hs hseen'
        refine ⟨k, r, hk, hr, ?_, hall⟩
        simpa [fullScanFrom, hread, hmin, hlt] using he
      · have hseen' : ∀ q ∈ t.freqArray.take (i + 1), p.2 ≤ q.2 := by
          intro q hq
          rw [htake] at hq
          rcases List.mem_append.mp hq with hq | hq
          · exact hseen q hq
          · rw [List.mem_singleton.mp hq]
            exact not_lt.mp hlt
        obtain ⟨k, r, hk, hr, he, hall⟩ := ih hle hidx hj hp hseen'
        refine ⟨k, r, hk, hr, ?_, hall⟩
        simpa [fullScanFrom, hread, hmin, hlt] using he

theorem fullScan_least {t : Tracker m} {j : ℕ} (hle : t.numItems ≤ m)
    (hidx : t.minKeyIndex = (j : ℕ)) (hj : j < t.numItems) :
    ∃ u, fullScan t = some u ∧ u.live = t.live ∧ MinIsLive u := by
  obtain ⟨p, -, hp⟩ := t.read_of_lt (show j < m by omega)
  obtain ⟨k, r, hk, hr, he, hall⟩ := fullScanFrom_spec (i := 0)
    (show 0 + t.numItems ≤ m by omega) hidx (by omega) hp (by simp)
  rw [Nat.zero_add] at hk hall
  exact ⟨_, he, rfl, k, r, rfl, hk, hr, hall⟩

/-- Two least indices of the same live slots have one count. -/
theorem minCount_eq {t u : Tracker m} (ht : MinIsLive t) (hu : MinIsLive u)
    (h : t.live = u.live) : ∃ c, minCount t = some c ∧ minCount u = some c := by
  obtain ⟨i, p, hidx, hi, hp, hall⟩ := ht
  obtain ⟨j, q, hidx', hj, hq, hall'⟩ := hu
  have hpq : p.2 ≤ q.2 := hall q (h ▸ mem_live_of_get hj hq)
  have hqp : q.2 ≤ p.2 := hall' p (h ▸ mem_live_of_get hi hp)
  refine ⟨p.2, ?_, ?_⟩
  · rw [minCount, hidx, t.read_nat, hp, Option.map_some]
  · rw [minCount, hidx', u.read_nat, hq, Option.map_some, le_antisymm hpq hqp]

/-- At most `m_` live slots, with distinct keys. -/
structure Representation (t : Tracker m) : Prop where
  items_le : t.numItems ≤ m
  nodup : (t.live.map Prod.fst).Nodup

/-- The call does not wrap the count it increments. -/
def CallFits (s : Session m) : Call → Prop
  | .processKey key => CountFits s.tracker key
  | .extractTopK _ _ => True

instance (t : Tracker m) (key : Key) : Decidable (CountFits t key) :=
  inferInstanceAs (Decidable (∀ c ∈ incremented t key, c + 1 < 2 ^ 64))

instance (s : Session m) : (call : Call) → Decidable (CallFits s call)
  | .processKey key => inferInstanceAs (Decidable (CountFits s.tracker key))
  | .extractTopK _ _ => isTrue trivial

/-- What a call establishes. A `ProcessKey` call leaves the index at a least live
count, and where it runs `SetMin` this ends at the count that the full scan finds. -/
def CallKeeps (s : Session m) : Call → Prop
  | .processKey key =>
      (∃ s', s.step (.processKey key) = some s' ∧ Representation s'.tracker ∧
        MinIsLive s'.tracker) ∧
      ∀ u, updateSlot s.tracker key = some (u, true) →
        ∃ v w c, u.setMin = some v ∧ fullScan u = some w ∧
          minCount v = some c ∧ minCount w = some c
  | .extractTopK sort k =>
      (k ≤ m → ∃ s', s.step (.extractTopK sort k) = some s') ∧
      ∀ s', s.step (.extractTopK sort k) = some s' → Representation s'.tracker

/-- What holds between two calls. -/
structure Kept (s : Session m) : Prop where
  coherent : Coherent s
  least : Least s.tracker

theorem least_of_no_items {t : Tracker m} (hn : t.numItems = 0) : Least t := by
  have hlive : t.live = [] := by rw [Tracker.live, hn, List.take_zero]
  constructor
  · rw [hlive]
    exact List.nodup_nil
  · rw [hlive]
    exact fun _ hp => absurd hp List.not_mem_nil
  · omega

theorem kept_init (m : ℕ) : Kept (Session.init m) :=
  ⟨coherent_init m, least_of_no_items rfl⟩

theorem Kept.step {s s' : Session m} {call : Call} (h : Kept s) (hfits : CallFits s call)
    (hstep : s.step call = some s') : Kept s' := by
  refine ⟨h.coherent.step hstep, ?_⟩
  cases call with
  | processKey key =>
      obtain ⟨t, ht, rfl⟩ := Option.map_eq_some_iff.mp hstep
      obtain ⟨u, hu, -, -, hleast⟩ := processKey_least h.coherent.ready (capacity_pos ht) key
      cases ht.symm.trans hu
      exact hleast h.least hfits
  | extractTopK sort k =>
      obtain ⟨⟨topk, t⟩, ht, rfl⟩ := Option.map_eq_some_iff.mp hstep
      obtain ⟨c, _, _, _, rfl⟩ := extractTopK_eq_some ht
      exact least_of_no_items rfl

theorem Kept.representation {s : Session m} (h : Kept s) : Representation s.tracker :=
  ⟨h.coherent.ready.items_le, h.least.nodup⟩

theorem setMin_live {t u : Tracker m} {j : ℕ} (hle : t.numItems ≤ m)
    (hidx : t.minKeyIndex = (j : ℕ)) (hj : j < t.numItems) (h : t.setMin = some u) :
    u.live = t.live := by
  obtain ⟨p, -, hp⟩ := t.read_of_lt (show j < m by omega)
  obtain ⟨v, hv, harr, hn, -⟩ := setMin_spec hle hidx hj hp
  cases h.symm.trans hv
  rw [Tracker.live, Tracker.live, harr, hn]

theorem Kept.processKey {s : Session m} (h : Kept s) (h0 : 0 < m) {key : Key}
    (hfits : CountFits s.tracker key) : CallKeeps s (.processKey key) := by
  have hready := h.coherent.ready
  obtain ⟨t, ht, hup, hready', hleast⟩ := processKey_least hready h0 key
  have hmin : MinIsLive t := (hleast h.least hfits).min (hup.numItems_pos h0)
  constructor
  · have hstep : s.step (.processKey key) = some ⟨t, s.window ++ [key]⟩ := by
      rw [Session.step, ht, Option.map_some]
    have hkept := h.step (show CallFits s (.processKey key) from hfits) hstep
    exact ⟨_, hstep, hkept.representation, hmin⟩
  · intro u hu
    obtain ⟨hidx, hn, hpos⟩ := updateSlot_search h0 hu
    obtain ⟨j, hj, hlt⟩ := hready.min_lt hpos
    have hle : u.numItems ≤ m := hn.trans_le hready.items_le
    -- the call is what `SetMin` makes of `u`
    have hset : u.setMin = some t := by
      rw [← ht, processKey_eq, hu, Option.bind_some, if_pos rfl]
    obtain ⟨w, hw, hlive, hminw⟩ := fullScan_least hle (hidx.trans hj) (by omega)
    have hlive' : t.live = u.live := setMin_live hle (hidx.trans hj) (by omega) hset
    obtain ⟨c, hc, hc'⟩ := minCount_eq hmin hminw (hlive'.trans hlive.symm)
    exact ⟨t, w, c, hset, hw, hc, hc'⟩

theorem Kept.extractTopK {s : Session m} (h : Kept s) (hu : Usable s)
    (sort : StdSort Slot comparePair) (k : ℕ) : CallKeeps s (.extractTopK sort k) := by
  constructor
  · intro hk
    obtain ⟨s', hs', -⟩ := extractTopK_usable hu sort hk
    exact ⟨s', hs'⟩
  · intro s' hs'
    exact (h.step (show CallFits s (.extractTopK sort k) from trivial) hs').representation

/-- In a session that begins with a key and in which no increment wraps, every
call keeps the representation, and `SetMin` is a search for the minimum. -/
theorem setMin_minimum_along (hm : 1 ≤ m) (key : Key) (calls : List Call)
    (h : Transitions.Along Session.step CallFits (Session.init m) (.processKey key :: calls)) :
    Transitions.Along Session.step CallKeeps (Session.init m) (.processKey key :: calls) := by
  have hinit := kept_init m
  refine ⟨hinit.processKey hm h.1, fun s hs => ?_⟩
  obtain ⟨s₁, hs₁, hu⟩ := processKey_usable (coherent_init m) hm key
  cases hs.symm.trans hs₁
  refine (h.2 s hs).imp (I := fun s => Kept s ∧ Usable s) ?_ ?_ ⟨hinit.step h.1 hs, hu⟩
  · intro s call s' hI hfits hstep
    exact ⟨hI.1.step hfits hstep, usable_step hI.1.coherent hI.2 hm hstep⟩
  · intro s call hI hfits
    cases call with
    | processKey key => exact hI.1.processKey hm hfits
    | extractTopK sort k => exact hI.1.extractTopK hI.2 sort k

/-- A session with an append, a hit on the minimum, an eviction, a report and a
window that starts over its leftovers. -/
theorem setMin_minimum_along_two :
    Transitions.Along Session.step CallKeeps (Session.init 2)
      [.processKey 1, .processKey 2, .processKey 2, .processKey 3, .processKey 3,
        .extractTopK (.descending Prod.snd) 2, .processKey 2, .processKey 5] :=
  setMin_minimum_along (by decide) 1 _ (by decide)

end PowerLawRocksdb.TrackerInvariant
