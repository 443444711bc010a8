import PowerLawRocksdb.StandardSort
import Mathlib.Algebra.Group.Nat.Defs
import Mathlib.Logic.Function.Iterate

/-!
# The array tracker of `SpaceSaving`

This is the part of the class that `WalManager` feeds: `ProcessKey`, `SetMin`,
`ExtractTopK` and `ResetFreqArray` over `freq_array_`, `num_items_` and
`min_key_index_`. The capacity `m_` is a parameter. Counts are 64-bit and wrap.

Every access to `freq_array_` is checked, and an access outside `[0, m_)` makes
the call undefined (`none`). The index of the minimum is the source's signed
integer and starts at -1. The output order of `std::sort` is not fixed, so the
sorting routine is an argument of `extractTopK`.
-/
namespace PowerLawRocksdb.SpaceSaving
open StandardSort

abbrev Key := UInt64

/-- An entry of `freq_array_`: a key and its count. -/
abbrev Slot := Key × ℕ

/-- `second++` on an `unsigned long long`. -/
def increment (count : ℕ) : ℕ := (count + 1) % 2 ^ 64

theorem iterate_increment (n : ℕ) {v : ℕ} (hv : v < 2 ^ 64) :
    increment^[n] v = (v + n) % 2 ^ 64 := by
  induction n with
  | zero => exact (Nat.mod_eq_of_lt hv).symm
  | succ n ih => rw [Function.iterate_succ_apply', ih, increment, Nat.mod_add_mod, Nat.add_assoc]

def comparePair : Slot → Slot → Bool := higher Prod.snd

structure Tracker (m : ℕ) where
  freqArray : List Slot
  numItems : ℕ
  minKeyIndex : ℤ
  size : freqArray.length = m

variable {m : ℕ}

def Tracker.init (m : ℕ) : Tracker m :=
  ⟨List.replicate m (0, 0), 0, -1, List.length_replicate⟩

def Tracker.read (t : Tracker m) (i : ℤ) : Option Slot :=
  if 0 ≤ i then t.freqArray[i.toNat]? else none

def Tracker.write (t : Tracker m) (i : ℤ) (s : Slot) : Option (Tracker m) :=
  if 0 ≤ i ∧ i < m then
    some { t with freqArray := t.freqArray.set i.toNat s, size := by simp [t.size] }
  else none

/-- The loop of `SetMin` from slot `i` on, with `left` slots to go. It stops at
the first slot that is smaller than the current minimum. -/
def Tracker.setMinFrom (t : Tracker m) : (left i : ℕ) → Option (Tracker m)
  | 0, _ => some t
  | left + 1, i => do
      let s ← t.read i
      let min ← t.read t.minKeyIndex
      if s.2 < min.2 then some { t with minKeyIndex := i } else t.setMinFrom left (i + 1)

def Tracker.setMin (t : Tracker m) : Option (Tracker m) := t.setMinFrom t.numItems 0

/-- The search loop of `ProcessKey`: `some none` is a completed search without a hit. -/
def Tracker.findFrom (t : Tracker m) (key : Key) : (left i : ℕ) → Option (Option ℕ)
  | 0, _ => some none
  | left + 1, i => do
      let s ← t.read i
      if s.1 = key then some (some i) else t.findFrom key left (i + 1)

def Tracker.processKey (t : Tracker m) (key : Key) : Option (Tracker m) := do
  match ← t.findFrom key t.numItems 0 with
  | some i =>
      let s ← t.read i
      let t ← t.write i (s.1, increment s.2)
      let min ← t.read t.minKeyIndex
      if key = min.1 then t.setMin else some t
  | none =>
      if t.numItems < m then
        let t ← t.write t.numItems (key, 1)
        some { t with minKeyIndex := t.numItems, numItems := t.numItems + 1 }
      else
        let min ← t.read t.minKeyIndex
        let t ← t.write t.minKeyIndex (key, increment min.2)
        t.setMin

def Tracker.resetFreqArray (t : Tracker m) : Tracker m := { t with numItems := 0 }

/-- The copy loop of `ExtractTopK`. -/
def readFirst : List Slot → ℕ → Option (List Slot)
  | _, 0 => some []
  | [], _ + 1 => none
  | s :: slots, k + 1 => (readFirst slots k).map (s :: ·)

/-- The array with the count at `min_key_index_` cleared, as it is passed to
`std::sort`. All `m_` slots are sorted, not only the first `num_items_`. -/
def Tracker.clearMin (t : Tracker m) : Option (Tracker m) := do
  let min ← t.read t.minKeyIndex
  t.write t.minKeyIndex (min.1, 0)

def Tracker.sortSlots (t : Tracker m) (sort : StdSort Slot comparePair) : Tracker m :=
  { t with freqArray := sort.run t.freqArray, size := by simp [t.size] }

def Tracker.extractTopK (t : Tracker m) (sort : StdSort Slot comparePair) (k : ℕ) :
    Option (List Slot × Tracker m) := do
  let t ← t.clearMin
  let t := t.sortSlots sort
  let topk ← readFirst t.freqArray k
  some (topk, t.resetFreqArray)

/-- The slots that are in use. -/
def Tracker.live (t : Tracker m) : List Slot := t.freqArray.take t.numItems

@[simp] theorem Tracker.live_reset (t : Tracker m) : t.resetFreqArray.live = [] := rfl

theorem Tracker.read_nat (t : Tracker m) (i : ℕ) : t.read i = t.freqArray[i]? := by
  simp [Tracker.read]

theorem Tracker.read_of_lt (t : Tracker m) {i : ℕ} (hi : i < m) :
    ∃ s, t.read i = some s ∧ t.freqArray[i]? = some s := by
  have h : i < t.freqArray.length := t.size.symm ▸ hi
  exact ⟨t.freqArray[i], by rw [t.read_nat, List.getElem?_eq_getElem h],
    List.getElem?_eq_getElem h⟩

theorem Tracker.write_of_lt (t : Tracker m) {i : ℕ} (hi : i < m) (s : Slot) :
    t.write i s =
      some { t with freqArray := t.freqArray.set i s, size := by simp [t.size] } := by
  simp [Tracker.write, hi]

/-- A loop over the slots that ends at the first one with `P` either finds such a slot
or has seen every slot it was asked to. -/
theorem Tracker.scan_spec (t : Tracker m) {β : Type} {loop : ℕ → ℕ → Option β} {P : Slot → Prop}
    [DecidablePred P] {found : ℕ → Option β} {done : Option β} (hdone : ∀ i, loop 0 i = done)
    (hstep : ∀ left i s, t.read (i : ℕ) = some s →
      loop (left + 1) i = if P s then found i else loop left (i + 1))
    {left i : ℕ} (hle : i + left ≤ m) :
    (loop left i = done ∧
        ∀ j s, i ≤ j → j < i + left → t.freqArray[j]? = some s → ¬ P s) ∨
      ∃ j s, i ≤ j ∧ j < i + left ∧ t.freqArray[j]? = some s ∧ P s ∧ loop left i = found j := by
  induction left generalizing i with
  | zero => exact Or.inl ⟨hdone i, fun j s hj hj' => by omega⟩
  | succ left ih =>
      obtain ⟨s, hr, hs⟩ := t.read_of_lt (show i < m by omega)
      rw [hstep left i s hr]
      split_ifs with hP
      · exact Or.inr ⟨i, s, le_rfl, by omega, hs, hP, rfl⟩
      · rcases ih (show i + 1 + left ≤ m by omega) with ⟨he, hall⟩ | ⟨j, r, hj, hj', hr', hPr, he⟩
        · refine Or.inl ⟨he, fun j r hj hj' hr' => ?_⟩
          rcases Nat.eq_or_lt_of_le hj with rfl | hj
          · cases hs.symm.trans hr'
            exact hP
          · exact hall j r hj (by omega) hr'
        · exact Or.inr ⟨j, r, by omega, by omega, hr', hPr, he⟩

/-- `SetMin` either finds a smaller slot or has compared every slot it was asked to. -/
theorem Tracker.setMinFrom_spec (t : Tracker m) {min : Slot} {left i : ℕ}
    (hmin : t.read t.minKeyIndex = some min) (hle : i + left ≤ m) :
    (t.setMinFrom left i = some t ∧
        ∀ j s, i ≤ j → j < i + left → t.freqArray[j]? = some s → min.2 ≤ s.2) ∨
      ∃ j s, i ≤ j ∧ j < i + left ∧ t.freqArray[j]? = some s ∧ s.2 < min.2 ∧
        t.setMinFrom left i = some { t with minKeyIndex := j } := by
  have hstep : ∀ left i s, t.read (i : ℕ) = some s → t.setMinFrom (left + 1) i =
      if s.2 < min.2 then some { t with minKeyIndex := i } else t.setMinFrom left (i + 1) := by
    intro left i s hs
    rw [Tracker.setMinFrom, hs, hmin]
    rfl
  rcases t.scan_spec (fun _ => rfl) hstep hle with ⟨he, hall⟩ | hfound
  · exact Or.inl ⟨he, fun j s hj hj' hs => not_lt.mp (hall j s hj hj' hs)⟩
  · exact Or.inr hfound

theorem Tracker.findFrom_spec (t : Tracker m) (key : Key) {left i : ℕ} (hle : i + left ≤ m) :
    (t.findFrom key left i = some none ∧
        ∀ j s, i ≤ j → j < i + left → t.freqArray[j]? = some s → s.1 ≠ key) ∨
      ∃ j s, i ≤ j ∧ j < i + left ∧ t.freqArray[j]? = some s ∧ s.1 = key ∧
        t.findFrom key left i = some (some j) := by
  have hstep : ∀ left i s, t.read (i : ℕ) = some s → t.findFrom key (left + 1) i =
      if s.1 = key then some (some i) else t.findFrom key left (i + 1) := by
    intro left i s hs
    rw [Tracker.findFrom, hs]
    rfl
  exact t.scan_spec (fun _ => rfl) hstep hle

theorem readFirst_eq (slots : List Slot) (k : ℕ) :
    readFirst slots k = if k ≤ slots.length then some (slots.take k) else none := by
  induction slots generalizing k with
  | nil => cases k <;> simp [readFirst]
  | cons s slots ih =>
      cases k with
      | zero => simp [readFirst]
      | succ k =>
          simp only [readFirst, ih, List.length_cons, Nat.succ_le_succ_iff, List.take_succ_cons]
          split_ifs <;> rfl

end PowerLawRocksdb.SpaceSaving
