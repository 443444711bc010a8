import PowerLawRocksdb.HashMapSS

/-!
# What the table promises

A table holds a finite map if its slots have the entries of the map, each once, and
every entry is found from its home slot. `Find`, `Insert` and the writes of `Detach`
keep this as long as there are empty slots. `Remove` keeps it where the folding of
distances is right, which is the case for all entries that are `Near` the gap.
-/
namespace PowerLawRocksdb.HashMapSS
open SpaceSaving (Key)
open LinkedTracker (ChildId Fits)
open LinearProbing

variable {t u : HashMapSS} {i j n h d : ℕ} {k : Key} {c : ChildId} {f : Key → Option ChildId}

def slot (t : HashMapSS) (i : ℕ) : Option Key := if t.keyAt i = 0 then none else some (t.keyAt i)

theorem slot_eq_none : t.slot i = none ↔ t.keyAt i = 0 := by
  unfold slot
  split_ifs with h0
  · exact ⟨fun _ => h0, fun _ => rfl⟩
  · exact ⟨fun h => (by cases h), fun h => absurd h h0⟩

theorem slot_eq_some : t.slot i = some k ↔ t.keyAt i = k ∧ k ≠ 0 := by
  unfold slot
  split_ifs with h0
  · constructor
    · intro h
      cases h
    · rintro ⟨rfl, hk⟩
      exact absurd h0 hk
  · constructor
    · intro h
      cases h
      exact ⟨rfl, h0⟩
    · rintro ⟨rfl, -⟩
      rfl

/-- The slots have the entries of the map, each of them once. -/
structure Stored (t : HashMapSS) (f : Key → Option ChildId) : Prop where
  unique : ∀ i < t.size, ∀ j < t.size, t.keyAt i ≠ 0 → t.keyAt i = t.keyAt j → i = j
  sound : ∀ i < t.size, t.keyAt i ≠ 0 → ∃ c, t.valueAt i = some c ∧ f (t.keyAt i) = some c
  complete : ∀ k c, f k = some c → k ≠ 0 ∧ ∃ i < t.size, t.keyAt i = k

structure Holds (n : ℕ) (t : HashMapSS) (f : Key → Option ChildId) : Prop where
  size : t.size = n
  half : t.half = (n / 2 : ℕ)
  stored : Stored t f
  placed : Placed n t.home t.slot

theorem home_lt (hn : 0 < t.size) (k : Key) : t.home k < t.size := Nat.mod_lt _ hn

theorem Stored.value (h : Stored t f) (hi : i < t.size) (hk : t.keyAt i = k) (hf : f k = some c) :
    t.valueAt i = some c := by
  have h0 := (h.complete k c hf).1
  subst hk
  obtain ⟨c', hv, hf'⟩ := h.sound i hi h0
  rw [hv, ← hf', hf]

/-- With fewer keys than slots outside of `Z`, one of these slots is empty. -/
theorem Stored.exists_empty (h : Stored t f) (Z : Finset ℕ) (hfits : Fits (t.size - Z.card) f) :
    ∃ z < t.size, z ∉ Z ∧ t.keyAt z = 0 := by
  by_contra hfull
  push Not at hfull
  obtain ⟨S, hS, hcard⟩ := hfits
  have hle : (Finset.range t.size \ Z).card ≤ S.card := by
    apply Finset.card_le_card_of_injOn t.keyAt
    · intro z hz
      rw [Finset.mem_coe, Finset.mem_sdiff, Finset.mem_range] at hz
      obtain ⟨c, -, hf⟩ := h.sound z hz.1 (hfull z hz.1 hz.2)
      exact hS _ (by rw [hf]; exact Option.some_ne_none c)
    · intro y hy z hz heq
      rw [Finset.mem_coe, Finset.mem_sdiff, Finset.mem_range] at hy hz
      exact h.unique y hy.1 z hz.1 (hfull y hy.1 hy.2) heq
  have hsdiff := Finset.le_card_sdiff Z (Finset.range t.size)
  rw [Finset.card_range] at hsdiff
  omega

theorem Holds.exists_empty (h : Holds n t f) (hfits : Fits (n - 1) f) (i : ℕ) :
    ∃ z < t.size, z ≠ i ∧ t.keyAt z = 0 := by
  obtain rfl := h.size
  obtain ⟨z, hz, hzi, hzero⟩ := h.stored.exists_empty {i} hfits
  exact ⟨z, hz, Finset.notMem_singleton.mp hzi, hzero⟩

theorem exists_pos {z : ℕ} (hh : h < n) (hz : z < n) : ∃ d < n, pos n h d = z :=
  ⟨place n h z, place_lt (by omega) h z, pos_place hh hz⟩

/-- The loop of `Remove` finds a stored key before it comes to an empty slot. -/
theorem Holds.probe_some (h : Holds n t f) (stop : Key → Bool) (hk : stop k)
    (hstop : ∀ j, stop j → j = 0 ∨ j = k) (hi : i < t.size) (hik : t.keyAt i = k) (h0 : k ≠ 0) :
    t.probe stop t.size (t.home k) = some i := by
  obtain rfl := h.size
  have hhome := home_lt (Nat.zero_lt_of_lt hi) k
  obtain ⟨d, hd, hpos, hocc⟩ := h.placed i hi k (slot_eq_some.mpr ⟨hik, h0⟩)
  obtain ⟨e, he, hprobe, hse, hbefore⟩ := probe_eq t stop hhome
    ⟨d, hd, by rw [hpos, hik]; exact hk⟩
  have hed : e = d := by
    rcases Nat.lt_trichotomy e d with hlt | heq | hgt
    · have hne : t.keyAt (pos t.size (t.home k) e) ≠ 0 := slot_eq_none.not.mp (hocc e hlt.le)
      have hkey := (hstop _ hse).resolve_left hne
      have hsame := h.stored.unique _ (pos_lt (Nat.zero_lt_of_lt hi) _ e) i hi hne
        (hkey.trans hik.symm)
      exact pos_inj hhome he hd (hsame.trans hpos.symm)
    · exact heq
    · exact absurd (by rw [hpos, hik]; exact hk) (hbefore d hgt)
  rw [hprobe, hed, hpos]

theorem Holds.find_some (h : Holds n t f) (hf : f k = some c) :
    ∃ i < t.size, t.find k = some (some i) ∧ t.keyAt i = k ∧ t.valueAt i = some c := by
  obtain ⟨h0, i, hi, hik⟩ := h.stored.complete k c hf
  refine ⟨i, hi, ?_, hik, h.stored.value hi hik hf⟩
  have hprobe := h.probe_some (fun j => j = 0 || j = k) (by simp) (by simp) hi hik h0
  simp [find, hprobe, hik, h0]

theorem Holds.find_none (h : Holds n t f) (hempty : ∃ z < t.size, t.keyAt z = 0)
    (hf : f k = none) : t.find k = some none := by
  obtain ⟨z, hz, hzero⟩ := hempty
  have hhome := home_lt (Nat.zero_lt_of_lt hz) k
  obtain ⟨d, hd, hpos⟩ := exists_pos hhome hz
  obtain ⟨e, he, hprobe, hse, -⟩ := probe_eq t (fun j => j = 0 || j = k) hhome
    ⟨d, hd, by simp [hpos, hzero]⟩
  have hempty : t.keyAt (pos t.size (t.home k) e) = 0 := by
    by_contra hne
    obtain ⟨c, -, hc⟩ := h.stored.sound _ (pos_lt (Nat.zero_lt_of_lt hz) _ e) hne
    have hkey : t.keyAt (pos t.size (t.home k) e) = k := by simpa [hne] using hse
    rw [hkey, hf] at hc
    cases hc
  simp [find, hprobe, hempty]

theorem Holds.setValue (h : Holds n t f) (hi : i < t.size) (hik : t.keyAt i = k) (h0 : k ≠ 0)
    (c : ChildId) : Holds n (t.setValue i (some c)) (Function.update f k (some c)) := by
  refine ⟨h.size, h.half, ⟨h.stored.unique, ?_, ?_⟩, h.placed⟩
  · intro j hj hne
    rw [valueAt_setValue hi, keyAt_setValue]
    by_cases hji : j = i
    · subst hji
      exact ⟨c, if_pos rfl, by rw [hik, Function.update_self]⟩
    · obtain ⟨c', hv, hf⟩ := h.stored.sound j hj hne
      refine ⟨c', by rw [if_neg hji, hv], ?_⟩
      rw [Function.update_of_ne, hf]
      rintro heq
      exact hji (h.stored.unique j hj i hi hne (heq.trans hik.symm))
  · intro k' c' hf
    by_cases hkk : k' = k
    · subst hkk
      exact ⟨h0, i, hi, hik⟩
    · rw [Function.update_of_ne hkk] at hf
      exact h.stored.complete k' c' hf

theorem slot_setKey (hi : i < t.size) (h0 : k ≠ 0) (j : ℕ) :
    (t.setKey i k).slot j = if j = i then some k else t.slot j := by
  unfold slot
  rw [keyAt_setKey hi]
  by_cases hji : j = i
  · simp [hji, h0]
  · simp [hji]

theorem Stored.insert (h : Stored t f) (hi : i < t.size) (hempty : t.keyAt i = 0) (h0 : k ≠ 0)
    (hf : f k = none) (c : ChildId) :
    Stored ((t.setKey i k).setValue i (some c)) (Function.update f k (some c)) := by
  have hnew : ∀ j < t.size, t.keyAt j ≠ k := by
    rintro j hj rfl
    obtain ⟨c, -, hc⟩ := h.sound j hj h0
    rw [hf] at hc
    cases hc
  constructor
  · intro a ha b hb hne heq
    simp only [keyAt_setValue, keyAt_setKey hi] at hne heq
    split_ifs at hne heq with h1 h2 h2
    · rw [h1, h2]
    · exact absurd heq.symm (hnew b hb)
    · exact absurd heq (hnew a ha)
    · exact h.unique a ha b hb hne heq
  · intro j hj hne
    rw [keyAt_setValue, keyAt_setKey hi] at hne ⊢
    rw [valueAt_setValue (t := t.setKey i k) hi, valueAt_setKey]
    split_ifs at hne ⊢ with hji
    · exact ⟨c, rfl, Function.update_self ..⟩
    · obtain ⟨c', hv, hc'⟩ := h.sound j hj hne
      exact ⟨c', hv, by rw [Function.update_of_ne (hnew j hj), hc']⟩
  · intro k' c' hf'
    by_cases hkk : k' = k
    · exact ⟨hkk ▸ h0, i, hi, by rw [keyAt_setValue, keyAt_setKey hi, if_pos rfl, hkk]⟩
    · rw [Function.update_of_ne hkk] at hf'
      obtain ⟨h0', j, hj, hjk⟩ := h.complete k' c' hf'
      refine ⟨h0', j, hj, ?_⟩
      rw [keyAt_setValue, keyAt_setKey hi, if_neg, hjk]
      rintro rfl
      rw [hempty] at hjk
      exact h0' hjk.symm

theorem Holds.insert (h : Holds n t f) (hempty : ∃ z < t.size, t.keyAt z = 0) (h0 : k ≠ 0)
    (hf : f k = none) (c : ChildId) :
    ∃ u, t.insert k c = some u ∧ Holds n u (Function.update f k (some c)) := by
  obtain rfl := h.size
  obtain ⟨z, hz, hzero⟩ := hempty
  have hn := Nat.zero_lt_of_lt hz
  have hhome := home_lt hn k
  obtain ⟨q, hq, hqz⟩ := exists_pos hhome hz
  obtain ⟨d, hd, hprobe, hempty, hbefore⟩ := probe_eq t (fun j => j = 0) hhome
    ⟨q, hq, by simp [hqz, hzero]⟩
  have hi := pos_lt hn (t.home k) d
  refine ⟨(t.setKey (pos t.size (t.home k) d) k).setValue (pos t.size (t.home k) d) (some c),
    by simp [HashMapSS.insert, hprobe], rfl, h.half,
    h.stored.insert hi (by simpa using hempty) h0 hf c, ?_⟩
  apply h.placed.insert hd
  · intro e he
    exact slot_eq_none.not.mpr (by simpa using hbefore e he)
  · exact slot_setKey hi h0

/-- So many slots from slot `i` on are told from those before it. In a table of even size
there is one less if the way to slot `j` leads around the end of the table. -/
def reach (n i j : ℕ) : ℕ := if i ≤ j then n / 2 + 1 else n - n / 2

theorem le_reach (n i j : ℕ) : n - n / 2 ≤ reach n i j := by
  unfold reach
  split_ifs <;> omega

/-- Folding tells on which side of the gap a home slot lies, if it is within reach. -/
theorem fold_nonpos_iff {b g q : ℕ} (hb : b < n) (hg : g < n) (hq : q < n)
    (hbehind : g < q → q - g < reach n (pos n b g) (pos n b q))
    (hbefore : q ≤ g → g - q < reach n (pos n b q) (pos n b g)) :
    fold n (n / 2 : ℕ) ((pos n b q : ℤ) - pos n b g) ≤ 0 ↔ q ≤ g := by
  have hposq := pos_cases hb hq
  have hposg := pos_cases hb hg
  unfold reach at hbehind hbefore
  unfold fold
  dsimp only
  split_ifs at * <;> omega

/-- A slot on the way to another one has it within reach, too. -/
theorem reach_of_le {b d g q : ℕ} (hb : b < n) (hdg : d ≤ g) (hgq : g ≤ q) (hq : q < n)
    (h : q - d < reach n (pos n b d) (pos n b q)) : q - g < reach n (pos n b g) (pos n b q) := by
  have hposd := pos_cases hb (d := d) (by omega)
  have hposg := pos_cases hb (d := g) (by omega)
  have hposq := pos_cases hb hq
  have hlt := pos_lt (by omega : 0 < n) b
  have hltd := hlt d
  have hltg := hlt g
  unfold reach at *
  split_ifs at * <;> omega

/-- So has the other one the slots on the way. -/
theorem reach_to_le {b d g q : ℕ} (hb : b < n) (hqg : q ≤ g) (hgd : g < d) (hd : d < n)
    (h : d - q ≤ reach n (pos n b q) (pos n b d)) : g - q < reach n (pos n b q) (pos n b g) := by
  have hposd := pos_cases hb hd
  have hposg := pos_cases hb (d := g) (by omega)
  have hposq := pos_cases hb (d := q) (by omega)
  have hlt := pos_lt (by omega : 0 < n) b
  have hltd := hlt d
  have hltg := hlt g
  unfold reach at *
  split_ifs at * <;> omega

theorem Stored.erase (h : Stored t f) (hi : i < t.size) :
    Stored (t.setKey i 0) (Function.update f (t.keyAt i) none) := by
  constructor
  · intro a ha b hb hne heq
    simp only [keyAt_setKey hi] at hne heq
    split_ifs at hne heq
    · exact absurd rfl hne
    · exact absurd rfl hne
    · exact absurd heq hne
    · exact h.unique a ha b hb hne heq
  · intro j hj hne
    rw [keyAt_setKey hi] at hne ⊢
    split_ifs at hne ⊢ with hji
    · exact absurd rfl hne
    · obtain ⟨c, hv, hc⟩ := h.sound j hj hne
      refine ⟨c, hv, ?_⟩
      rw [Function.update_of_ne, hc]
      intro heq
      exact hji (h.unique j hj i hi hne heq)
  · intro k c hf
    have hki : k ≠ t.keyAt i := by
      rintro rfl
      rw [Function.update_self] at hf
      cases hf
    rw [Function.update_of_ne hki] at hf
    obtain ⟨h0, j, hj, hjk⟩ := h.complete k c hf
    refine ⟨h0, j, hj, ?_⟩
    rw [keyAt_setKey hi, if_neg, hjk]
    rintro rfl
    exact hki hjk.symm

def moved (t : HashMapSS) (i j : ℕ) : HashMapSS :=
  ((t.setKey i (t.keyAt j)).setValue i (t.valueAt j)).setKey j 0

theorem keyAt_moved (hi : i < t.size) (hj : j < t.size) (a : ℕ) :
    (t.moved i j).keyAt a = if a = j then 0 else if a = i then t.keyAt j else t.keyAt a := by
  unfold moved
  rw [keyAt_setKey (by exact hj), keyAt_setValue, keyAt_setKey hi]

theorem valueAt_moved (hi : i < t.size) (a : ℕ) :
    (t.moved i j).valueAt a = if a = i then t.valueAt j else t.valueAt a := by
  unfold moved
  rw [valueAt_setKey, valueAt_setValue (by exact hi), valueAt_setKey]

theorem Stored.move (h : Stored t f) (hi : i < t.size) (hj : j < t.size) (hij : i ≠ j)
    (hgap : t.keyAt i = 0) : Stored (t.moved i j) f := by
  have hkey := keyAt_moved hi hj
  -- where the entry of slot `a` was before
  have horigin : ∀ a < t.size, (t.moved i j).keyAt a ≠ 0 → ∃ a₀ < t.size,
      (t.moved i j).keyAt a = t.keyAt a₀ ∧ (t.moved i j).valueAt a = t.valueAt a₀ ∧
      ((a = i ∧ a₀ = j) ∨ (a ≠ j ∧ a₀ = a)) := by
    intro a ha hne
    rw [hkey] at hne
    rw [hkey, valueAt_moved hi]
    by_cases haj : a = j
    · exact absurd (if_pos haj) hne
    · by_cases hai : a = i
      · exact ⟨j, hj, by rw [if_neg haj, if_pos hai], if_pos hai, Or.inl ⟨hai, rfl⟩⟩
      · exact ⟨a, ha, by rw [if_neg haj, if_neg hai], if_neg hai, Or.inr ⟨haj, rfl⟩⟩
  constructor
  · intro a ha b hb hne heq
    obtain ⟨a₀, ha₀, hka, -, hoa⟩ := horigin a ha hne
    obtain ⟨b₀, hb₀, hkb, -, hob⟩ := horigin b hb (heq ▸ hne)
    have hab := h.unique a₀ ha₀ b₀ hb₀ (hka ▸ hne) (by rw [← hka, ← hkb, heq])
    omega
  · intro a ha hne
    obtain ⟨a₀, ha₀, hka, hva, -⟩ := horigin a ha hne
    rw [hka, hva]
    exact h.sound a₀ ha₀ (hka ▸ hne)
  · intro k c hf
    obtain ⟨h0, a, ha, hak⟩ := h.complete k c hf
    refine ⟨h0, ?_⟩
    by_cases haj : a = j
    · exact ⟨i, hi, by rw [hkey, if_neg hij, if_pos rfl, ← haj, hak]⟩
    · refine ⟨a, ha, ?_⟩
      rw [hkey, if_neg haj, if_neg, hak]
      rintro rfl
      exact h0 (hak.symm.trans hgap)

/-- The loop of `Remove`, in the row of a table from which the entry at place `g₀` has
been taken out. The places from `e` on are still as they were in `row`. -/
structure Filling (n b g₀ : ℕ) (row : ℕ → Option Key) (t : HashMapSS) (g e : ℕ) : Prop where
  shifting : Shifting n b t.home t.slot g e
  le : g₀ ≤ g
  kept : ∀ d, e ≤ d → d < n → t.slot (pos n b d) = row d
  run : ∀ d, g₀ < d → d < e → row d ≠ none

/-- The entries of the run behind place `g₀` and their homes are near enough for folding. -/
def NearRow (n b g₀ : ℕ) (home : Key → ℕ) (row : ℕ → Option Key) : Prop :=
  ∀ d < n, g₀ < d → (∀ m, g₀ < m → m ≤ d → row m ≠ none) → ∀ k, row d = some k →
    (g₀ < place n b (home k) →
        place n b (home k) - g₀ < reach n (pos n b g₀) (home k)) ∧
      d - place n b (home k) ≤ reach n (home k) (pos n b d)

theorem slot_moved (hi : i < t.size) (hj : j < t.size) (a : ℕ) :
    (t.moved i j).slot a = if a = j then none else if a = i then t.slot j else t.slot a := by
  unfold slot
  rw [keyAt_moved hi hj]
  by_cases haj : a = j
  · simp [haj]
  · by_cases hai : a = i
    · simp [hai, hai ▸ haj]
    · simp [haj, hai]

theorem Filling.moved {b g₀ g e : ℕ} {row : ℕ → Option Key} (hb : b < t.size)
    (h : Filling t.size b g₀ row t g e) (he : e < t.size)
    (hk : t.slot (pos t.size b e) = some k) (hrow : row e ≠ none)
    (hhome : place t.size b (t.home k) ≤ g) :
    Filling t.size b g₀ row (t.moved (pos t.size b g) (pos t.size b e)) e (e + 1) := by
  have hn : 0 < t.size := by omega
  have hge := h.shifting.lt
  have hslot := slot_moved (t := t) (pos_lt hn b g) (pos_lt hn b e)
  have hne : ∀ d < t.size, d ≠ e → pos t.size b d ≠ pos t.size b e :=
    fun d hd hde heq => hde (pos_inj hb hd he heq)
  have hold : ∀ d < t.size, d ≠ g → d ≠ e →
      (t.moved (pos t.size b g) (pos t.size b e)).slot (pos t.size b d) =
        t.slot (pos t.size b d) := by
    intro d hd hdg hde
    rw [hslot, if_neg (hne d hd hde), if_neg fun heq => hdg (pos_inj hb hd (by omega) heq)]
  refine ⟨h.shifting.move he hk hhome ?_ ?_ hold, h.le.trans hge.le, ?_, ?_⟩
  · rw [hslot, if_neg (hne g (by omega) hge.ne), if_pos rfl, hk]
  · rw [hslot, if_pos rfl]
  · intro d hd hdn
    rw [hold d hdn (by omega) (by omega)]
    exact h.kept d (by omega) hdn
  · intro d hd hde
    rcases Nat.eq_or_lt_of_le (Nat.le_of_lt_succ hde) with rfl | hlt
    · exact hrow
    · exact h.run d hd hlt

theorem Filling.stay {b g₀ g e : ℕ} {row : ℕ → Option Key} (h : Filling n b g₀ row t g e)
    (hk : t.slot (pos n b e) = some k) (hrow : row e ≠ none) (hhome : g < place n b (t.home k)) :
    Filling n b g₀ row t g (e + 1) := by
  refine ⟨h.shifting.stay hk hhome, h.le, fun d hd => h.kept d (by omega), ?_⟩
  intro d hd hde
  rcases Nat.eq_or_lt_of_le (Nat.le_of_lt_succ hde) with rfl | hlt
  · exact hrow
  · exact h.run d hd hlt

theorem shift_eq {b g₀ g e : ℕ} {row : ℕ → Option Key} (fuel : ℕ) (hb : b < n) (hsize : t.size = n)
    (hhalf : t.half = (n / 2 : ℕ)) (hstored : Stored t f) (hfill : Filling n b g₀ row t g e)
    (hnear : NearRow n b g₀ t.home row) (he : e < n) (hfuel : n ≤ e + fuel) :
    ∃ u, shift fuel t (pos n b g) (pos n b e) = some u ∧ Holds n u f := by
  induction fuel generalizing t g e with
  | zero => omega
  | succ fuel ih =>
      obtain rfl := hsize
      have hn : 0 < t.size := by omega
      have hge := hfill.shifting.lt
      rw [shift]
      by_cases hempty : t.keyAt (pos t.size b e) = 0
      · rw [if_pos hempty]
        exact ⟨t, rfl, rfl, hhalf, hstored,
          hfill.shifting.placed hb (home_lt hn) (slot_eq_none.mpr hempty)⟩
      rw [if_neg hempty, next_pos hn, hhalf]
      have hslot : t.slot (pos t.size b e) = some (t.keyAt (pos t.size b e)) :=
        slot_eq_some.mpr ⟨rfl, hempty⟩
      have hrow := (hfill.kept e le_rfl he).symm.trans hslot
      have hrow' : row e ≠ none := by
        rw [hrow]
        exact Option.some_ne_none _
      have hlast : e + 1 < t.size := by
        have hne : e ≠ t.size - 1 := by
          rintro rfl
          rw [hfill.shifting.last] at hslot
          cases hslot
        omega
      -- the folded distance shows on which side of the gap the home of the entry is
      have hle := hfill.le
      have hq := place_lt hn b (t.home (t.keyAt (pos t.size b e)))
      have hhome := pos_place hb (home_lt hn (t.keyAt (pos t.size b e)))
      obtain ⟨hbehind, hbefore⟩ := hnear e he (by omega)
        (fun m hm hme => by
          rcases Nat.eq_or_lt_of_le hme with rfl | hlt
          · exact hrow'
          · exact hfill.run m hm hlt) _ hrow
      rw [← hhome] at hbehind hbefore
      rw [place_pos hb hq] at hbehind hbefore
      have hfold := fold_nonpos_iff (g := g) hb (by omega) hq
        (fun hgq => reach_of_le hb hle hgq.le hq (hbehind (by omega)))
        (fun hqg => reach_to_le hb hqg hge he hbefore)
      rw [hhome] at hfold
      by_cases hside : place t.size b (t.home (t.keyAt (pos t.size b e))) ≤ g
      · rw [if_pos (hfold.mpr hside)]
        have hgap := slot_eq_none.mp hfill.shifting.gap
        exact ih rfl hhalf
          (hstored.move (pos_lt hn b g) (pos_lt hn b e)
            (fun heq => hge.ne (pos_inj hb (by omega) he heq)) hgap)
          (hfill.moved hb he hslot hrow' hside) hnear hlast (by omega)
      · rw [if_neg (hfold.not.mpr hside)]
        exact ih rfl hhalf hstored (hfill.stay hslot hrow' (by omega)) hnear hlast (by omega)

/-- For each entry of the run behind slot `i`: it is near its home, and its home is near
`i`, if it is behind `i`. -/
def Near (t : HashMapSS) (i : ℕ) : Prop :=
  ∀ m < t.size, 1 ≤ m → (∀ j ≤ m, 1 ≤ j → t.keyAt (pos t.size i j) ≠ 0) →
    place t.size (t.home (t.keyAt (pos t.size i m))) (pos t.size i m) ≤
        reach t.size (t.home (t.keyAt (pos t.size i m))) (pos t.size i m) ∧
    (place t.size i (t.home (t.keyAt (pos t.size i m))) ≤ m →
      place t.size i (t.home (t.keyAt (pos t.size i m))) <
        reach t.size i (t.home (t.keyAt (pos t.size i m))))

theorem Near.row {b g₀ : ℕ} (h : t.Near (pos t.size b g₀)) (hb : b < t.size)
    (hplaced : Placed t.size t.home t.slot) (hlast : t.slot (pos t.size b (t.size - 1)) = none) :
    NearRow t.size b g₀ t.home fun d => t.slot (pos t.size b d) := by
  intro d hd hgd hrun k hk
  have hn : 0 < t.size := by omega
  obtain ⟨hkey, h0⟩ := slot_eq_some.mp hk
  have hq := (hplaced.inRow hb (home_lt hn) hlast hd hk).1
  have hhome : pos t.size b (place t.size b (t.home k)) = t.home k := pos_place hb (home_lt hn k)
  obtain ⟨hback, hfwd⟩ := h (d - g₀) (by omega) (by omega) (by
    intro j hjm hj
    rw [pos_pos]
    exact slot_eq_none.not.mp (hrun (g₀ + j) (by omega) (by omega)))
  rw [pos_pos, Nat.add_sub_cancel' hgd.le, hkey] at hback hfwd
  have hdist : place t.size (t.home k) (pos t.size b d) = d - place t.size b (t.home k) := by
    nth_rewrite 1 [← hhome]
    exact place_pos_pos hq hd
  rw [hdist] at hback
  refine ⟨fun hside => ?_, hback⟩
  have hahead : place t.size (pos t.size b g₀) (t.home k) =
      place t.size b (t.home k) - g₀ := by
    nth_rewrite 1 [← hhome]
    exact place_pos_pos hside.le (hq.trans_lt hd)
  rw [hahead] at hfwd
  exact hfwd (by omega)

theorem Holds.remove (h : Holds n t f) (hempty : ∃ z < t.size, z ≠ i ∧ t.keyAt z = 0)
    (hi : i < t.size) (hsearch : t.search (t.keyAt i) = some i) (hnear : t.Near i) :
    ∃ u, t.remove (t.keyAt i) = some u ∧ Holds n u (Function.update f (t.keyAt i) none) := by
  obtain rfl := h.size
  have hn := Nat.zero_lt_of_lt hi
  obtain ⟨z, hz, hzi, hzero⟩ := hempty
  -- the row begins behind the empty slot `z`
  obtain ⟨b, hb, hlast⟩ := exists_start hz
  obtain ⟨g, hg, rfl⟩ := exists_pos hb hi
  have hempty : t.slot (pos t.size b (t.size - 1)) = none := by
    rw [hlast]
    exact slot_eq_none.mpr hzero
  have hgn : g + 1 < t.size := by
    have hne : g ≠ t.size - 1 := by
      rintro rfl
      exact hzi hlast.symm
    omega
  have hgap : (t.setKey (pos t.size b g) 0).slot (pos t.size b g) = none :=
    slot_eq_none.mpr (by rw [keyAt_setKey hi, if_pos rfl])
  have hold : ∀ d < t.size, d ≠ g →
      (t.setKey (pos t.size b g) 0).slot (pos t.size b d) = t.slot (pos t.size b d) := by
    intro d hd hdg
    unfold slot
    rw [keyAt_setKey hi, if_neg fun heq => hdg (pos_inj hb hd hg heq)]
  have hstart : Filling t.size b g (fun d => t.slot (pos t.size b d))
      (t.setKey (pos t.size b g) 0) g (g + 1) := by
    refine ⟨shifting_start h.placed hb (home_lt hn) hempty hg hgap hold, le_rfl, ?_, ?_⟩
    · intro d hd hdn
      exact hold d hdn (by omega)
    · intro d hd hdg
      omega
  obtain ⟨u, hu, hholds⟩ := shift_eq (t := t.setKey (pos t.size b g) 0) t.size hb rfl
    h.half (h.stored.erase hi) hstart (hnear.row hb h.placed hempty) hgn (by omega)
  refine ⟨u, ?_, hholds⟩
  simp [HashMapSS.remove, hsearch, next_pos hn, hu]

theorem Holds.search_some (h : Holds n t f) (hf : f k = some c) :
    ∃ i < t.size, t.search k = some i ∧ t.keyAt i = k := by
  obtain ⟨h0, i, hi, hik⟩ := h.stored.complete k c hf
  exact ⟨i, hi, h.probe_some (fun j => j = k) (by simp) (by simp) hi hik h0, hik⟩

/-- The search of `Remove` finds a stored key, and for the sentinel an empty slot. -/
theorem Holds.search_eq (h : Holds n t f) (hempty : ∃ z < t.size, t.keyAt z = 0)
    (hk : k ≠ 0 → f k ≠ none) : ∃ i < t.size, t.search k = some i ∧ t.keyAt i = k := by
  by_cases h0 : k = 0
  · obtain ⟨z, hz, hzero⟩ := hempty
    have hn := Nat.zero_lt_of_lt hz
    have hhome := home_lt hn k
    obtain ⟨d, hd, hpos⟩ := exists_pos hhome hz
    obtain ⟨e, -, hprobe, hstop, -⟩ := probe_eq t (fun j => j = k) hhome
      ⟨d, hd, by rw [hpos, hzero]; exact decide_eq_true h0.symm⟩
    exact ⟨_, pos_lt hn _ e, hprobe, by simpa using hstop⟩
  · obtain ⟨c, hc⟩ := Option.ne_none_iff_exists'.mp (hk h0)
    exact h.search_some hc

theorem Holds.some_empty (h : Holds n t f) (hfits : Fits (n - 1) f) :
    ∃ z < t.size, t.keyAt z = 0 := by
  obtain ⟨z, hz, -, hzero⟩ := h.exists_empty hfits 0
  exact ⟨z, hz, hzero⟩

/-- The contract of a table with `n` slots. A key can be removed if the run behind its slot
is near enough. -/
def contract (n : ℕ) : hashMap.Contract (n - 1) where
  Holds := Holds n
  Removable t k := ∀ i, t.search k = some i → t.Near i
  find_none h hfits _ hf := h.find_none (h.some_empty hfits) hf
  find_some := by
    intro t f k c h _ hf
    obtain ⟨i, hi, hfind, hik, hvalue⟩ := h.find_some hf
    refine ⟨i, hfind, hvalue, fun y => ⟨_, if_pos hi, h.setValue hi hik ?_ y⟩⟩
    exact (h.stored.complete k c hf).1
  insert c h hfits h0 hf := h.insert (h.some_empty hfits) h0 hf c
  remove := by
    intro t f k h hfits hk hnear
    obtain ⟨i, hi, hsearch, rfl⟩ := h.search_eq (h.some_empty hfits) hk
    exact h.remove (h.exists_empty hfits i) hi hsearch (hnear i hsearch)

/-- A run of slots has at most as many entries as the map, and one more if it begins at an
empty slot. -/
theorem Stored.run_lt (h : Stored t f) {S : Finset Key} (hS : ∀ k, f k ≠ none → k ∈ S) {b m : ℕ}
    (hb : b < t.size) (hm : m < t.size) (hfirst : t.keyAt (pos t.size b 0) ∈ S)
    (hrun : ∀ j ≤ m, 1 ≤ j → t.keyAt (pos t.size b j) ≠ 0) : m < S.card := by
  have hn := Nat.zero_lt_of_lt hb
  have hle : (Finset.range (m + 1)).card ≤ S.card := by
    apply Finset.card_le_card_of_injOn fun j => t.keyAt (pos t.size b j)
    · intro j hj
      rw [Finset.mem_coe, Finset.mem_range] at hj
      cases j with
      | zero => exact hfirst
      | succ j =>
          obtain ⟨c, -, hc⟩ := h.sound _ (pos_lt hn b (j + 1)) (hrun _ (by omega) (by omega))
          exact hS _ (by rw [hc]; exact Option.some_ne_none c)
    · intro x hx y hy heq
      rw [Finset.mem_coe, Finset.mem_range] at hx hy
      dsimp only at heq
      by_cases hx0 : x = 0
      · by_cases hy0 : y = 0
        · rw [hx0, hy0]
        · have hne := hrun y (by omega) (by omega)
          exact (pos_inj hb (by omega) (by omega)
            (h.unique _ (pos_lt hn b y) _ (pos_lt hn b x) hne heq.symm)).symm
      · have hne := hrun x (by omega) (by omega)
        exact pos_inj hb (by omega) (by omega)
          (h.unique _ (pos_lt hn b x) _ (pos_lt hn b y) hne heq)
  rw [Finset.card_range] at hle
  exact hle

/-- If all keys fit into half of the table, every run is near. -/
theorem Holds.near (h : Holds n t f) {S : Finset Key} (hS : ∀ k, f k ≠ none → k ∈ S)
    (hcard : S.card ≤ n - n / 2) (hi : i < t.size) (hfirst : t.keyAt i ∈ S) : t.Near i := by
  obtain rfl := h.size
  have hn := Nat.zero_lt_of_lt hi
  intro m hm hm1 hrun
  have hlt := h.stored.run_lt hS hi hm (by rwa [pos_zero hi]) hrun
  have hne := hrun m le_rfl hm1
  have hhome := home_lt hn (t.keyAt (pos t.size i m))
  obtain ⟨d, hd, hpos, hocc⟩ := h.placed _ (pos_lt hn i m) _ (slot_eq_some.mpr ⟨rfl, hne⟩)
  have hocc' : ∀ e ≤ d, t.keyAt (pos t.size (t.home (t.keyAt (pos t.size i m))) e) ≠ 0 :=
    fun e he => slot_eq_none.not.mp (hocc e he)
  have hltd := h.stored.run_lt hS hhome hd (by
    obtain ⟨c, -, hc⟩ := h.stored.sound _ (pos_lt hn _ 0) (hocc' 0 (Nat.zero_le d))
    exact hS _ (by rw [hc]; exact Option.some_ne_none c)) fun j hj _ => hocc' j hj
  constructor
  · have hdist : place t.size (t.home (t.keyAt (pos t.size i m))) (pos t.size i m) = d := by
      nth_rewrite 2 [← hpos]
      exact place_pos hhome hd
    rw [hdist]
    exact le_trans (by omega) (le_reach ..)
  · intro hle
    exact lt_of_lt_of_le (by omega) (le_reach ..)

theorem holds_sized (n : ℕ) : Holds n (sized n) fun _ => none := by
  have hzero : ∀ i, (sized n).keyAt i = 0 := by
    intro i
    unfold keyAt sized
    rw [List.getD_eq_getElem?_getD, List.getElem?_replicate]
    split_ifs
    · rfl
    · rfl
  refine ⟨rfl, rfl, ⟨?_, ?_, ?_⟩, ?_⟩
  · intro i _ j _ hne
    exact absurd (hzero i) hne
  · intro i _ hne
    exact absurd (hzero i) hne
  · intro k c hf
    cases hf
  · intro i _ k hk
    rw [slot_eq_none.mpr (hzero i)] at hk
    cases hk

theorem holds_init (buckets : ℕ) : Holds (init buckets).size (init buckets) fun _ => none :=
  holds_sized _

end PowerLawRocksdb.HashMapSS
