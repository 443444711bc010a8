import PowerLawRocksdb.HashMapContract
import PowerLawRocksdb.Transitions

/-!
# Histories of the table

A history inserts keys that are not present and removes keys that are, and never
fills the table. Beside the table runs the finite map that the history describes.
Where the run of occupied slots around a removed key takes at most half of the
table, the distances that `Remove` folds are all shorter than half of it, and the
table represents the map after every step.
-/
namespace PowerLawRocksdb.HashMapSS
open SpaceSaving (Key)
open LinkedTracker (ChildId Fits)
open LinearProbing

variable {t u : HashMapSS} {i n : ℕ} {k : Key} {c : ChildId} {f : Key → Option ChildId}

inductive Op where
  | insert (key : Key) (value : ChildId)
  | remove (key : Key)

/-- A table and the map that its history describes. -/
structure History where
  table : HashMapSS
  map : Key → Option ChildId

def History.init (n : ℕ) : History := ⟨sized n, fun _ => none⟩

def History.step (s : History) : Op → Option History
  | .insert key value =>
      (s.table.insert key value).map fun t => ⟨t, Function.update s.map key (some value)⟩
  | .remove key => (s.table.remove key).map fun t => ⟨t, Function.update s.map key none⟩

/-- Every run of occupied slots that contains slot `i` has at most `half_` slots. -/
def ShortRun (t : HashMapSS) (i : ℕ) : Prop :=
  ∀ b < t.size, ∀ len ≤ t.size, (∀ e < len, t.keyAt (pos t.size b e) ≠ 0) →
    (∃ e < len, pos t.size b e = i) → (len : ℤ) ≤ t.half

instance (t : HashMapSS) (i : ℕ) : Decidable (t.ShortRun i) :=
  inferInstanceAs (Decidable (∀ b < t.size, ∀ len ≤ t.size,
    (∀ e < len, t.keyAt (pos t.size b e) ≠ 0) → (∃ e < len, pos t.size b e = i) →
      (len : ℤ) ≤ t.half))

/-- An insertion leaves an empty slot, and a removal happens in a short run. -/
def Legal (s : History) : Op → Prop
  | .insert key _ => key ≠ 0 ∧ s.map key = none ∧
      ∃ i < s.table.size, ∃ j < s.table.size, i ≠ j ∧ s.table.keyAt i = 0 ∧ s.table.keyAt j = 0
  | .remove key => s.map key ≠ none ∧
      ∀ i < s.table.size, s.table.keyAt i = key → s.table.ShortRun i

instance (s : History) : (op : Op) → Decidable (Legal s op)
  | .insert key _ => inferInstanceAs (Decidable (key ≠ 0 ∧ s.map key = none ∧
      ∃ i < s.table.size, ∃ j < s.table.size, i ≠ j ∧ s.table.keyAt i = 0 ∧ s.table.keyAt j = 0))
  | .remove key => inferInstanceAs (Decidable (s.map key ≠ none ∧
      ∀ i < s.table.size, s.table.keyAt i = key → s.table.ShortRun i))

/-- `Find` ends for every key. It finds exactly the keys of the map, with their values. -/
def Represents (s : History) : Prop :=
  ∀ key, (s.table.find key = some none ∧ s.map key = none) ∨
    ∃ i value, s.table.find key = some (some i) ∧ s.map key = some value ∧
      s.table.valueAt i = some value

/-- The table holds the map and is not full. -/
structure Kept (n : ℕ) (s : History) : Prop where
  holds : Holds n s.table s.map
  fits : Fits n s.map

theorem Kept.some_empty {s : History} (h : Kept n s) :
    ∃ z < s.table.size, s.table.keyAt z = 0 := by
  obtain ⟨z, hz, -, hzero⟩ := h.holds.stored.exists_empty ∅ (by
    rw [h.holds.size]
    exact h.fits)
  exact ⟨z, hz, hzero⟩

theorem Kept.represents {s : History} (h : Kept n s) : Represents s := by
  intro key
  cases hf : s.map key with
  | none => exact Or.inl ⟨h.holds.find_none h.some_empty hf, rfl⟩
  | some value =>
      obtain ⟨i, -, hfind, -, hvalue⟩ := h.holds.find_some hf
      exact Or.inr ⟨i, value, hfind, rfl, hvalue⟩

/-- Each empty slot leaves room for one more key. -/
theorem Stored.card_add_empty (h : Stored t f) {Z : Finset ℕ}
    (hZ : ∀ z ∈ Z, z < t.size ∧ t.keyAt z = 0) :
    ∃ S : Finset Key, (∀ k, f k ≠ none → k ∈ S) ∧ S.card + Z.card ≤ t.size := by
  refine ⟨(Finset.range t.size \ Z).image t.keyAt, ?_, ?_⟩
  · intro k hk
    obtain ⟨c, hc⟩ := Option.ne_none_iff_exists'.mp hk
    obtain ⟨h0, i, hi, rfl⟩ := h.complete k c hc
    refine Finset.mem_image_of_mem _ (Finset.mem_sdiff.mpr ⟨Finset.mem_range.mpr hi, ?_⟩)
    intro hiZ
    exact h0 (hZ i hiZ).2
  · have hsub : Z ⊆ Finset.range t.size := fun z hz => Finset.mem_range.mpr (hZ z hz).1
    have himage : ((Finset.range t.size \ Z).image t.keyAt).card ≤ (Finset.range t.size \ Z).card :=
      Finset.card_image_le
    have hcard := Finset.card_sdiff_add_card_eq_card hsub
    rw [Finset.card_range] at hcard
    omega

theorem fits_update {m : ℕ} (h : Fits m f) (k : Key) (c : ChildId) :
    Fits (m + 1) (Function.update f k (some c)) := by
  obtain ⟨S, hS, hcard⟩ := h
  refine ⟨Insert.insert k S, ?_, (Finset.card_insert_le k S).trans_lt (Nat.succ_lt_succ hcard)⟩
  intro k' hk'
  by_cases hkk : k' = k
  · exact hkk ▸ Finset.mem_insert_self k S
  · rw [Function.update_of_ne hkk] at hk'
    exact Finset.mem_insert_of_mem (hS k' hk')

theorem fits_erase {m : ℕ} (h : Fits m f) (k : Key) : Fits m (Function.update f k none) := by
  obtain ⟨S, hS, hcard⟩ := h
  refine ⟨S, ?_, hcard⟩
  intro k' hk'
  by_cases hkk : k' = k
  · rw [hkk, Function.update_self] at hk'
    exact absurd rfl hk'
  · rw [Function.update_of_ne hkk] at hk'
    exact hS k' hk'

theorem Kept.insert {s : History} (h : Kept n s) {value : ChildId}
    (hlegal : Legal s (.insert k value)) :
    ∃ s', s.step (.insert k value) = some s' ∧ Kept n s' := by
  obtain ⟨h0, hnew, i, hi, j, hj, hij, hempty⟩ := hlegal
  obtain ⟨u, hu, hholds⟩ := h.holds.insert h.some_empty h0 hnew value
  refine ⟨⟨u, Function.update s.map k (some value)⟩, ?_, hholds, ?_⟩
  · rw [History.step, hu]
    rfl
  · obtain ⟨S, hS, hcard⟩ := h.holds.stored.card_add_empty (Z := {i, j}) (by
      intro z hz
      rcases Finset.mem_insert.mp hz with rfl | hz
      · exact ⟨hi, hempty.1⟩
      · rw [Finset.mem_singleton.mp hz]
        exact ⟨hj, hempty.2⟩)
    rw [Finset.card_pair hij, h.holds.size] at hcard
    have hroom := fits_update (f := s.map) (m := n - 1) ⟨S, hS, by omega⟩ k value
    rwa [Nat.sub_add_cancel (by omega)] at hroom

/-- In a short run, the home of every entry and the entry itself are within half of the
table from the removed slot. -/
theorem Holds.near_of_shortRun (h : Holds n t f) (hi : i < t.size) (hocc : t.keyAt i ≠ 0)
    (hshort : t.ShortRun i) : t.Near i := by
  obtain rfl := h.size
  have hn := Nat.zero_lt_of_lt hi
  have hhalf := h.half
  intro m hm hm1 hrun
  -- the run from slot `i` to the entry
  have hocc' : ∀ e < m + 1, t.keyAt (pos t.size i e) ≠ 0 := by
    intro e he
    cases e with
    | zero => rwa [pos_zero hi]
    | succ e => exact hrun (e + 1) (by omega) (by omega)
  have hlen := hshort i hi (m + 1) hm hocc' ⟨0, Nat.succ_pos m, pos_zero hi⟩
  -- the run from the home of the entry to the entry, which contains slot `i` if it is longer
  have hhome := home_lt hn (t.keyAt (pos t.size i m))
  obtain ⟨d, hd, hpos, hreach⟩ :=
    h.placed _ (pos_lt hn i m) _ (slot_eq_some.mpr ⟨rfl, hrun m le_rfl hm1⟩)
  have hdist : place t.size (t.home (t.keyAt (pos t.size i m))) (pos t.size i m) = d := by
    nth_rewrite 2 [← hpos]
    exact place_pos hhome hd
  have hback : m ≤ d → ((d + 1 : ℕ) : ℤ) ≤ t.half := by
    intro hmd
    apply hshort _ hhome (d + 1) hd
    · intro e he
      exact slot_eq_none.not.mp (hreach e (by omega))
    · exact ⟨d - m, by omega, pos_sub hi hmd hpos⟩
  constructor
  · rw [hdist]
    exact le_trans (by omega) (le_reach ..)
  · intro hle
    exact lt_of_lt_of_le (by omega) (le_reach ..)

theorem Kept.remove {s : History} (h : Kept n s) (hlegal : Legal s (.remove k)) :
    ∃ s', s.step (.remove k) = some s' ∧ Kept n s' := by
  obtain ⟨hpresent, hshort⟩ := hlegal
  obtain ⟨c, hc⟩ := Option.ne_none_iff_exists'.mp hpresent
  have h0 := (h.holds.stored.complete k c hc).1
  obtain ⟨i, hi, hsearch, rfl⟩ := h.holds.search_some hc
  obtain ⟨z, hz, hzero⟩ := h.some_empty
  have hzi : z ≠ i := by
    rintro rfl
    exact h0 hzero
  have hnear := h.holds.near_of_shortRun hi h0 (hshort i hi rfl)
  obtain ⟨u, hu, hholds⟩ := h.holds.remove ⟨z, hz, hzi, hzero⟩ hi hsearch hnear
  refine ⟨⟨u, Function.update s.map (s.table.keyAt i) none⟩, ?_, hholds, fits_erase h.fits _⟩
  rw [History.step, hu]
  rfl

theorem Kept.step {s : History} (h : Kept n s) {op : Op} (hlegal : Legal s op) :
    ∃ s', s.step op = some s' ∧ Kept n s' := by
  cases op with
  | insert key value => exact h.insert hlegal
  | remove key => exact h.remove hlegal

theorem kept_init (hn : 0 < n) : Kept n (History.init n) :=
  ⟨holds_sized n, ∅, fun _ hk => absurd rfl hk, hn⟩

/-- With removals in short runs only, every call returns, and the table represents the map
of its history after every step. -/
theorem represents_throughout (hn : 2 ≤ n) {ops : List Op}
    (hlegal : Transitions.Along History.step Legal (History.init n) ops) :
    (∃ s, Transitions.run History.step (History.init n) ops = some s) ∧
      Transitions.Throughout History.step Represents (History.init n) ops :=
  Transitions.run_defined (fun _ _ h hop => h.step hop) (fun _ h => h.represents)
    (kept_init (show 0 < n by omega)) hlegal

/-- In a table of five slots, key 4 is removed from a run that goes around the end. -/
theorem represents_throughout_wrapping :
    ∃ s, Transitions.run History.step (History.init 5)
        [.insert 4 1, .insert 9 2, .remove 4, .insert 3 7] = some s ∧
      Transitions.Throughout History.step Represents (History.init 5)
        [.insert 4 1, .insert 9 2, .remove 4, .insert 3 7] := by
  obtain ⟨⟨s, hrun⟩, hthrough⟩ := represents_throughout (n := 5) (by decide)
    (show Transitions.Along History.step Legal (History.init 5)
      [.insert 4 1, .insert 9 2, .remove 4, .insert 3 7] by decide)
  exact ⟨s, hrun, hthrough⟩

end PowerLawRocksdb.HashMapSS
