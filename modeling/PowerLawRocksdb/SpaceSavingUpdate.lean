import PowerLawRocksdb.SpaceSaving

/-!
# What one `ProcessKey` call does

A call either increments the slot of its key, or appends a slot, or takes over
the slot at `min_key_index_`. From a tracker whose indices are in range the call
is defined and leaves them in range, whatever the slots contain and also where a
count wraps.

That the index still designates a least count afterwards needs more: distinct
keys, positive counts that do not wrap, and a least count before the call. Then
the slot from which `SetMin` starts holds at most one more than the least count,
and stopping at the first smaller slot is the same as a full search.
-/
namespace PowerLawRocksdb.SpaceSavingUpdate
open SpaceSaving

variable {m : ℕ}

/-- The indices that a call relies on are in range. -/
structure Ready (t : Tracker m) : Prop where
  items_le : t.numItems ≤ m
  min_lt : 0 < t.numItems → ∃ i : ℕ, t.minKeyIndex = i ∧ i < t.numItems

/-- The index of the minimum points to a live slot with the least count. -/
def MinIsLive (t : Tracker m) : Prop :=
  ∃ i p, t.minKeyIndex = (i : ℕ) ∧ i < t.numItems ∧ t.freqArray[i]? = some p ∧
    ∀ q ∈ t.live, p.2 ≤ q.2

/-- What the early exit of `SetMin` relies on. -/
structure Sound (t : Tracker m) : Prop where
  nodup : (t.live.map Prod.fst).Nodup
  pos : ∀ p ∈ t.live, 0 < p.2
  room : ∀ p ∈ t.live, p.2 + 1 < 2 ^ 64
  min : 0 < t.numItems → MinIsLive t

/-- The part of it that a call keeps unless the count it increments wraps. -/
structure Least (t : Tracker m) : Prop where
  nodup : (t.live.map Prod.fst).Nodup
  pos : ∀ p ∈ t.live, 0 < p.2
  min : 0 < t.numItems → MinIsLive t

theorem Sound.least {t : Tracker m} (h : Sound t) : Least t := ⟨h.nodup, h.pos, h.min⟩

/-- The count that a call increments, if it does not append a slot. -/
def incremented (t : Tracker m) (key : Key) : Option ℕ := do
  match ← t.findFrom key t.numItems 0 with
  | some i => (t.read i).map Prod.snd
  | none => if t.numItems < m then none else (t.read t.minKeyIndex).map Prod.snd

/-- The call increments a count without wrapping it. -/
def CountFits (t : Tracker m) (key : Key) : Prop := ∀ c ∈ incremented t key, c + 1 < 2 ^ 64

theorem length_live {t : Tracker m} (h : t.numItems ≤ m) : t.live.length = t.numItems := by
  rw [Tracker.live, List.length_take, t.size, min_eq_left h]

theorem getElem?_live (t : Tracker m) {i : ℕ} (hi : i < t.numItems) :
    t.live[i]? = t.freqArray[i]? := List.getElem?_take_of_lt hi

theorem mem_live_of_get {t : Tracker m} {i : ℕ} {p : Slot} (hi : i < t.numItems)
    (hp : t.freqArray[i]? = some p) : p ∈ t.live :=
  List.mem_of_getElem? ((getElem?_live t hi).trans hp)

theorem exists_get_of_mem {t : Tracker m} {p : Slot} (hp : p ∈ t.live) :
    ∃ i, i < t.numItems ∧ t.freqArray[i]? = some p := by
  obtain ⟨i, hi, he⟩ := List.getElem_of_mem hp
  have hlt : i < t.numItems := by
    rw [Tracker.live, List.length_take] at hi
    exact hi.trans_le (min_le_left _ _)
  exact ⟨i, hlt, by rw [← getElem?_live t hlt, List.getElem?_eq_getElem hi, he]⟩

theorem nodup_get {t : Tracker m} (hn : (t.live.map Prod.fst).Nodup) {i j : ℕ} {p q : Slot}
    (hi : i < t.numItems) (hj : j < t.numItems) (hp : t.freqArray[i]? = some p)
    (hq : t.freqArray[j]? = some q) (he : p.1 = q.1) : i = j := by
  rw [← getElem?_live t hi] at hp
  rw [← getElem?_live t hj] at hq
  have hlt : i < (t.live.map Prod.fst).length := by
    rw [List.length_map]
    exact (List.getElem?_eq_some_iff.mp hp).choose
  refine (List.getElem?_inj hlt hn).mp ?_
  rw [List.getElem?_map, List.getElem?_map, hp, hq, Option.map_some, Option.map_some, he]

/-- `SetMin` moves the index within the live slots. Where the slot it starts from
is at most one above a lower bound of the live counts, it ends at a least count. -/
theorem setMin_spec {t : Tracker m} {i : ℕ} {p : Slot} (hle : t.numItems ≤ m)
    (hidx : t.minKeyIndex = (i : ℕ)) (hi : i < t.numItems) (hp : t.freqArray[i]? = some p) :
    ∃ u, t.setMin = some u ∧ u.freqArray = t.freqArray ∧ u.numItems = t.numItems ∧ Ready u ∧
      ∀ v, (∀ q ∈ t.live, v ≤ q.2) → p.2 ≤ v + 1 → MinIsLive u := by
  have hread : t.read t.minKeyIndex = some p := by rw [hidx, t.read_nat, hp]
  rcases t.setMinFrom_spec (i := 0) hread (show 0 + t.numItems ≤ m by omega) with
    ⟨he, hall⟩ | ⟨j, s, _, hj, hs, hlt, he⟩
  · refine ⟨t, he, rfl, rfl, ⟨hle, fun _ => ⟨i, hidx, hi⟩⟩, fun v _ _ => ?_⟩
    refine ⟨i, p, hidx, hi, hp, fun q hq => ?_⟩
    obtain ⟨j, hj, hq'⟩ := exists_get_of_mem hq
    exact hall j q (Nat.zero_le j) (by omega) hq'
  · rw [Nat.zero_add] at hj
    refine ⟨_, he, rfl, rfl, ⟨hle, fun _ => ⟨j, rfl, hj⟩⟩, fun v hv hpv => ?_⟩
    refine ⟨j, s, rfl, hj, hs, fun q hq => ?_⟩
    have hvq : v ≤ q.2 := hv q hq
    omega

theorem increment_eq {c : ℕ} (h : c + 1 < 2 ^ 64) : increment c = c + 1 := Nat.mod_eq_of_lt h

theorem Least.le_of_min {t : Tracker m} (h : Least t) {i : ℕ} {p : Slot}
    (hidx : t.minKeyIndex = (i : ℕ)) (hi : i < t.numItems) (hp : t.freqArray[i]? = some p) :
    ∀ q ∈ t.live, p.2 ≤ q.2 := by
  obtain ⟨j, r, hidx', -, hr, hall⟩ := h.min (by omega)
  obtain rfl : i = j := by exact_mod_cast hidx.symm.trans hidx'
  cases hp.symm.trans hr
  exact hall

/-- Replacing a slot by one with a count of at least `v` keeps `v` a lower bound. -/
theorem le_of_mem_set {l : List Slot} {i v : ℕ} {s : Slot} (hv : ∀ q ∈ l, v ≤ q.2)
    (hs : v ≤ s.2) : ∀ q ∈ l.set i s, v ≤ q.2 := by
  intro q hq
  rcases List.mem_or_eq_of_mem_set hq with hq | rfl
  · exact hv q hq
  · exact hs

/-- The tracker with one slot overwritten. -/
def put (t : Tracker m) (i : ℕ) (s : Slot) : Tracker m :=
  { t with freqArray := t.freqArray.set i s, size := by simp [t.size] }

theorem write_eq_put (t : Tracker m) {i : ℕ} (hi : i < m) (s : Slot) :
    t.write i s = some (put t i s) := t.write_of_lt hi s

theorem live_put (t : Tracker m) (i : ℕ) (s : Slot) : (put t i s).live = t.live.set i s :=
  List.take_set ..

theorem getElem?_put_self (t : Tracker m) {i : ℕ} (hi : i < m) (s : Slot) :
    (put t i s).freqArray[i]? = some s := by
  simp [put, show i < t.freqArray.length by rwa [t.size]]

theorem getElem?_put_ne (t : Tracker m) {i j : ℕ} (h : i ≠ j) (s : Slot) :
    (put t i s).freqArray[j]? = t.freqArray[j]? := List.getElem?_set_ne h

theorem processKey_hit {t : Tracker m} {key : Key} {i c : ℕ} (h : Ready t) (hi : i < t.numItems)
    (hs : t.freqArray[i]? = some (key, c))
    (hfind : t.findFrom key t.numItems 0 = some (some i)) :
    ∃ u, t.processKey key = some u ∧ u.freqArray = t.freqArray.set i (key, increment c) ∧
      u.numItems = t.numItems ∧ Ready u ∧ (Least t → c + 1 < 2 ^ 64 → MinIsLive u) := by
  have hle := h.items_le
  obtain ⟨j, hidx, hj⟩ := h.min_lt (by omega)
  set t₁ := put t i (key, increment c) with ht₁
  obtain ⟨r, hr₀, hr⟩ := t₁.read_of_lt (show j < m by omega)
  have hproc : t.processKey key = if key = r.1 then t₁.setMin else some t₁ := by
    simp [Tracker.processKey, hfind, t.read_nat, hs, write_eq_put t (show i < m by omega), ← ht₁,
      show t₁.minKeyIndex = (j : ℤ) from hidx, hr₀]
  by_cases hkey : key = r.1
  · obtain ⟨u, hu, harr, hn, hready, hmin⟩ := setMin_spec (t := t₁) hle hidx hj hr
    refine ⟨u, by rw [hproc, if_pos hkey, hu], harr, hn, hready, fun hleast hc => ?_⟩
    -- distinct keys: the key of the minimum is the one that was incremented
    have hji : i = j := by
      by_contra hij
      rw [getElem?_put_ne t hij] at hr
      exact hij (nodup_get hleast.nodup hi hj hs hr hkey)
    subst hji
    rw [getElem?_put_self t (by omega)] at hr
    cases hr
    have hinc := increment_eq hc
    refine hmin c ?_ hinc.le
    rw [live_put]
    exact le_of_mem_set (hleast.le_of_min hidx hi hs) (hinc ▸ Nat.le_succ c)
  · refine ⟨t₁, by rw [hproc, if_neg hkey], rfl, rfl, ⟨hle, fun _ => ⟨j, hidx, hj⟩⟩,
      fun hleast hc => ?_⟩
    have hij : i ≠ j := by
      rintro rfl
      rw [getElem?_put_self t (by omega)] at hr
      cases hr
      exact hkey rfl
    obtain ⟨j', p, hidx', hj', hp, hall⟩ := hleast.min (by omega)
    obtain rfl : j = j' := by exact_mod_cast hidx.symm.trans hidx'
    refine ⟨j, p, hidx, hj, (getElem?_put_ne t hij _).trans hp, ?_⟩
    rw [live_put]
    have hmem := mem_live_of_get hi hs
    exact le_of_mem_set hall
      ((hall _ hmem).trans ((Nat.le_succ c).trans_eq (increment_eq hc).symm))

theorem live_append (t : Tracker m) (hm : t.numItems < m) (s : Slot) :
    (t.freqArray.set t.numItems s).take (t.numItems + 1) = t.live ++ [s] := by
  rw [List.take_add_one, List.take_set_of_le le_rfl, Tracker.live]
  simp [show t.numItems < t.freqArray.length by rwa [t.size]]

theorem processKey_add {t : Tracker m} {key : Key} (hm : t.numItems < m)
    (hfind : t.findFrom key t.numItems 0 = some none) :
    ∃ u, t.processKey key = some u ∧ u.freqArray = t.freqArray.set t.numItems (key, 1) ∧
      u.numItems = t.numItems + 1 ∧ Ready u ∧ (Least t → MinIsLive u) := by
  set n := t.numItems with hn
  set u : Tracker m := ⟨t.freqArray.set n (key, 1), n + 1, n, by simp [t.size]⟩ with hu
  refine ⟨u, ?_, rfl, rfl, ⟨hm, fun _ => ⟨n, rfl, Nat.lt_succ_self n⟩⟩, fun hleast => ?_⟩
  · simp [Tracker.processKey, hfind, ← hn, hm, t.write_of_lt hm, hu]
  · refine ⟨n, (key, 1), rfl, Nat.lt_succ_self n, getElem?_put_self t hm _, fun q hq => ?_⟩
    have hq' : q ∈ t.live ++ [(key, 1)] := live_append t hm _ ▸ hq
    rcases List.mem_append.mp hq' with hq' | hq'
    · exact hleast.pos q hq'
    · rw [List.mem_singleton.mp hq']

theorem processKey_replace {t : Tracker m} {key : Key} (h : Ready t) (h0 : 0 < m)
    (hm : t.numItems = m) (hfind : t.findFrom key t.numItems 0 = some none) :
    ∃ i y c u, t.processKey key = some u ∧ t.minKeyIndex = (i : ℕ) ∧ i < m ∧
      t.freqArray[i]? = some (y, c) ∧ u.freqArray = t.freqArray.set i (key, increment c) ∧
      u.numItems = t.numItems ∧ Ready u ∧ (Least t → c + 1 < 2 ^ 64 → MinIsLive u) := by
  have hle := h.items_le
  obtain ⟨i, hidx, hi⟩ := h.min_lt (by omega)
  obtain ⟨⟨y, c⟩, hread, hp⟩ := t.read_of_lt (show i < m by omega)
  set t₁ := put t i (key, increment c) with ht₁
  have hr : t₁.freqArray[i]? = some (key, increment c) := getElem?_put_self t (by omega) _
  obtain ⟨u, hu, harr, hn, hready, hmin⟩ := setMin_spec (t := t₁) hle hidx hi hr
  refine ⟨i, y, c, u, ?_, hidx, by omega, hp, harr, hn, hready, fun hleast hc => ?_⟩
  · simp [Tracker.processKey, hfind, show ¬ t.numItems < m by omega, hidx, hread,
      write_eq_put t (show i < m by omega), ← ht₁, hu]
  · have hinc := increment_eq hc
    refine hmin c ?_ hinc.le
    rw [live_put]
    exact le_of_mem_set (hleast.le_of_min hidx hi hp) (hinc ▸ Nat.le_succ c)

/-- Without slots no call is defined. -/
theorem capacity_pos {t u : Tracker m} {key : Key} (h : t.processKey key = some u) : 0 < m := by
  by_contra hm
  have hread : ∀ i, t.read i = none := by
    intro i
    simp [Tracker.read, List.eq_nil_of_length_eq_zero (show t.freqArray.length = 0 by
      rw [t.size]; omega)]
  simp only [Tracker.processKey, hread, Option.bind_eq_bind, Option.bind_none,
    Option.bind_eq_some_iff, if_neg (show ¬ t.numItems < m by omega)] at h
  obtain ⟨r, -, hr⟩ := h
  cases r <;> simp at hr

/-- The three forms of a call. -/
inductive Update (t : Tracker m) (key : Key) (u : Tracker m) : Prop
  | hit (i c : ℕ) : i < t.numItems → t.freqArray[i]? = some (key, c) →
      u.freqArray = t.freqArray.set i (key, increment c) → u.numItems = t.numItems →
      Update t key u
  | add : (∀ p ∈ t.live, p.1 ≠ key) → t.numItems < m →
      u.freqArray = t.freqArray.set t.numItems (key, 1) → u.numItems = t.numItems + 1 →
      Update t key u
  | replace (i : ℕ) (y : Key) (c : ℕ) : (∀ p ∈ t.live, p.1 ≠ key) → t.numItems = m → i < m →
      t.minKeyIndex = (i : ℕ) → t.freqArray[i]? = some (y, c) →
      u.freqArray = t.freqArray.set i (key, increment c) → u.numItems = t.numItems →
      Update t key u

theorem Update.numItems_pos {t u : Tracker m} {key : Key} (h : Update t key u) (h0 : 0 < m) :
    0 < u.numItems := by
  cases h with
  | hit i c hi _ _ hn => omega
  | add _ _ _ hn => omega
  | replace i y c _ hm _ _ _ _ hn => omega

theorem live_eq_set {t u : Tracker m} {i : ℕ} {s : Slot}
    (harr : u.freqArray = t.freqArray.set i s) (hn : u.numItems = t.numItems) :
    u.live = t.live.set i s := by
  rw [Tracker.live, harr, hn]
  exact List.take_set ..

theorem live_eq_append {t u : Tracker m} {s : Slot} (hm : t.numItems < m)
    (harr : u.freqArray = t.freqArray.set t.numItems s) (hn : u.numItems = t.numItems + 1) :
    u.live = t.live ++ [s] := by
  rw [Tracker.live, harr, hn]
  exact live_append t hm s

/-- Overwriting a slot for its own key, or for a key that has none. -/
theorem Least.of_set {t u : Tracker m} (h : Least t) {i c : ℕ} {key : Key}
    (hu : u.live = t.live.set i (key, c)) (hc : 0 < c)
    (hkey : (∀ p ∈ t.live, p.1 ≠ key) ∨ ∃ d, t.live[i]? = some (key, d)) (hmin : MinIsLive u) :
    Least u where
  nodup := by
    rw [hu, List.map_set]
    rcases hkey with hkey | ⟨d, hd⟩
    · exact h.nodup.set fun hmem => by
        obtain ⟨p, hp, he⟩ := List.mem_map.mp hmem
        exact hkey p hp he
    · obtain ⟨hi, he⟩ := List.getElem?_eq_some_iff.mp hd
      have hi' : i < (t.live.map Prod.fst).length := by rwa [List.length_map]
      have hself : (t.live.map Prod.fst)[i] = key := by rw [List.getElem_map, he]
      rw [← hself, List.set_getElem_self]
      exact h.nodup
  pos := hu ▸ fun p hp => by
    rcases List.mem_or_eq_of_mem_set hp with hp | rfl
    · exact h.pos p hp
    · exact hc
  min _ := hmin

theorem Least.of_append {t u : Tracker m} (h : Least t) {key : Key}
    (hu : u.live = t.live ++ [(key, 1)]) (hkey : ∀ p ∈ t.live, p.1 ≠ key) (hmin : MinIsLive u) :
    Least u where
  nodup := by
    rw [hu, List.map_append, List.map_singleton, List.nodup_append]
    refine ⟨h.nodup, List.nodup_singleton _, fun x hx y hy => ?_⟩
    obtain ⟨p, hp, rfl⟩ := List.mem_map.mp hx
    rw [List.mem_singleton.mp hy]
    exact hkey p hp
  pos := hu ▸ fun p hp => by
    rcases List.mem_append.mp hp with hp | hp
    · exact h.pos p hp
    · rw [List.mem_singleton.mp hp]
      exact Nat.one_pos
  min _ := hmin

theorem processKey_least {t : Tracker m} (h : Ready t) (h0 : 0 < m) (key : Key) :
    ∃ u, t.processKey key = some u ∧ Update t key u ∧ Ready u ∧
      (Least t → CountFits t key → Least u) := by
  have hle := h.items_le
  rcases t.findFrom_spec key (i := 0) (show 0 + t.numItems ≤ m by omega) with
    ⟨hfind, hnone⟩ | ⟨i, ⟨x, c⟩, _, hi, hs, rfl, hfind⟩
  · have hkey : ∀ p ∈ t.live, p.1 ≠ key := by
      intro p hp
      obtain ⟨j, hj, hj'⟩ := exists_get_of_mem hp
      exact hnone j p (Nat.zero_le j) (by omega) hj'
    rcases hle.lt_or_eq with hm | hm
    · obtain ⟨u, hu, harr, hn, hready, hmin⟩ := processKey_add hm hfind
      refine ⟨u, hu, .add hkey hm harr hn, hready, fun hleast _ => ?_⟩
      exact hleast.of_append (live_eq_append hm harr hn) hkey (hmin hleast)
    · obtain ⟨i, y, c, u, hu, hidx, hi, hp, harr, hn, hready, hmin⟩ :=
        processKey_replace h h0 hm hfind
      refine ⟨u, hu, .replace i y c hkey hm hi hidx hp harr hn, hready, fun hleast hfits => ?_⟩
      have hc : c + 1 < 2 ^ 64 :=
        hfits c (by simp [incremented, hfind, hm.ge, hidx, t.read_nat, hp])
      exact hleast.of_set (live_eq_set harr hn) (increment_eq hc ▸ c.succ_pos) (.inl hkey)
        (hmin hleast hc)
  · rw [Nat.zero_add] at hi
    obtain ⟨u, hu, harr, hn, hready, hmin⟩ := processKey_hit h hi hs hfind
    refine ⟨u, hu, .hit i c hi hs harr hn, hready, fun hleast hfits => ?_⟩
    have hc : c + 1 < 2 ^ 64 := hfits c (by simp [incremented, hfind, t.read_nat, hs])
    exact hleast.of_set (live_eq_set harr hn) (increment_eq hc ▸ c.succ_pos)
      (.inr ⟨c, (getElem?_live t hi).trans hs⟩) (hmin hleast hc)

/-- A call increments a live count. -/
theorem mem_live_of_incremented {t : Tracker m} (h : Ready t) (h0 : 0 < m) {key : Key} {c : ℕ}
    (hc : incremented t key = some c) : ∃ y, (y, c) ∈ t.live := by
  have hle := h.items_le
  rcases t.findFrom_spec key (i := 0) (show 0 + t.numItems ≤ m by omega) with
    ⟨hfind, -⟩ | ⟨i, ⟨x, c'⟩, _, hi, hs, rfl, hfind⟩
  · simp only [incremented, hfind, Option.bind_eq_bind, Option.bind_some] at hc
    split_ifs at hc with hm
    obtain ⟨i, hidx, hi⟩ := h.min_lt (by omega)
    rw [hidx, t.read_nat] at hc
    obtain ⟨⟨y, c'⟩, hp, rfl⟩ := Option.map_eq_some_iff.mp hc
    exact ⟨y, mem_live_of_get hi hp⟩
  · simp only [incremented, hfind, Option.bind_eq_bind, Option.bind_some, t.read_nat, hs,
      Option.map_some, Option.some.injEq] at hc
    exact ⟨x, hc ▸ mem_live_of_get (by simpa using hi) hs⟩

theorem processKey_update {t : Tracker m} (h : Ready t) (h0 : 0 < m) (key : Key) :
    ∃ u, t.processKey key = some u ∧ Update t key u ∧ Ready u ∧ (Sound t → MinIsLive u) := by
  obtain ⟨u, hu, hupdate, hready, hmin⟩ := processKey_least h h0 key
  refine ⟨u, hu, hupdate, hready, fun hsound => ?_⟩
  have hfits : CountFits t key := by
    intro c hc
    obtain ⟨y, hy⟩ := mem_live_of_incremented h h0 hc
    exact hsound.room _ hy
  exact (hmin hsound.least hfits).min (hupdate.numItems_pos h0)

theorem Update.live_eq {t u : Tracker m} {key : Key} (h : Update t key u) :
    (∃ i c, i < t.numItems ∧ t.live[i]? = some (key, c) ∧
        u.live = t.live.set i (key, increment c)) ∨
      ((∀ p ∈ t.live, p.1 ≠ key) ∧ t.numItems < m ∧ u.live = t.live ++ [(key, 1)]) ∨
      ∃ i y c, (∀ p ∈ t.live, p.1 ≠ key) ∧ t.numItems = m ∧ i < m ∧
        t.minKeyIndex = (i : ℕ) ∧ t.live[i]? = some (y, c) ∧
        u.live = t.live.set i (key, increment c) := by
  cases h with
  | hit i c hi hs harr hn =>
      exact Or.inl ⟨i, c, hi, (getElem?_live t hi).trans hs, live_eq_set harr hn⟩
  | add hkey hm harr hn =>
      exact Or.inr (Or.inl ⟨hkey, hm, live_eq_append hm harr hn⟩)
  | replace i y c hkey hm hi hidx hp harr hn =>
      exact Or.inr (Or.inr ⟨i, y, c, hkey, hm, hi, hidx,
        (getElem?_live t (by omega)).trans hp, live_eq_set harr hn⟩)

end PowerLawRocksdb.SpaceSavingUpdate
