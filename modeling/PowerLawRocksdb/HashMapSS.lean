import PowerLawRocksdb.LinearProbing
import PowerLawRocksdb.LinkedSteps

/-!
# The table of the linked tracker

`HashMapSS` stores keys and child pointers in two arrays with linear probing; the
key 0 marks an empty slot. `Remove` fills the gap that it leaves: it looks at the
entries behind the gap up to the next empty slot, and moves those whose home slot is
not behind the gap. To see on which side a home slot lies on the circle, it folds the
difference of the two indices into the range from `-half_` to `half_`.

The loops are cut off after one round of the table. The searches that find nothing in
one round never end. The shifting of `Remove` ends within one round if there is an
empty slot besides the gap.
-/
namespace PowerLawRocksdb
open SpaceSaving (Key)
open LinkedTracker (ChildId Fits)
open LinearProbing

structure HashMapSS where
  size : ℕ
  half : ℤ
  keys : List Key
  values : List (Option ChildId)
  keys_length : keys.length = size
  values_length : values.length = size

namespace HashMapSS

/-- What the constructor makes of a size. -/
def sized (n : ℕ) : HashMapSS :=
  ⟨n, (n / 2 : ℕ), List.replicate n 0, List.replicate n none, List.length_replicate,
    List.length_replicate⟩

/-- The constructor for the load factor 0.75. Its size is computed as a floating-point
number and cut off, which gives this number for up to `2 ^ 50` buckets. -/
def init (buckets : ℕ) : HashMapSS := sized (10 + 4 * buckets / 3)

def keyAt (t : HashMapSS) (i : ℕ) : Key := t.keys.getD i 0

def valueAt (t : HashMapSS) (i : ℕ) : Option ChildId := t.values.getD i none

def next (t : HashMapSS) (i : ℕ) : ℕ := if i = t.size - 1 then 0 else i + 1

def setKey (t : HashMapSS) (i : ℕ) (key : Key) : HashMapSS :=
  { t with keys := t.keys.set i key, keys_length := by simp [t.keys_length] }

def setValue (t : HashMapSS) (i : ℕ) (value : Option ChildId) : HashMapSS :=
  { t with values := t.values.set i value, values_length := by simp [t.values_length] }

def home (t : HashMapSS) (key : Key) : ℕ := key.toNat % t.size

/-- The search loop of all three operations: the first slot from `i` on whose key is one
to stop at. -/
def probe (t : HashMapSS) (stop : Key → Bool) : (fuel i : ℕ) → Option ℕ
  | 0, _ => none
  | fuel + 1, i => if stop (t.keyAt i) then some i else t.probe stop fuel (t.next i)

def find (t : HashMapSS) (key : Key) : Option (Option ℕ) := do
  let i ← t.probe (fun k => k = 0 || k = key) t.size (t.home key)
  some (if t.keyAt i = 0 then none else some i)

def insert (t : HashMapSS) (key : Key) (value : ChildId) : Option HashMapSS := do
  let i ← t.probe (fun k => k = 0) t.size (t.home key)
  some ((t.setKey i key).setValue i (some value))

/-- The first loop of `Remove`. The sentinel 0 stops at an empty slot. -/
def search (t : HashMapSS) (key : Key) : Option ℕ :=
  t.probe (fun k => k = key) t.size (t.home key)

/-- The difference `dis`, folded once from below and once from above. -/
def fold (size half dis : ℤ) : ℤ :=
  let dis := if dis < -half then dis + size else dis
  if dis > half then dis - size else dis

/-- The second loop of `Remove`, with the gap at `i`. -/
def shift : (fuel : ℕ) → (t : HashMapSS) → (i j : ℕ) → Option HashMapSS
  | 0, _, _, _ => none
  | fuel + 1, t, i, j =>
      if t.keyAt j = 0 then some t
      else if fold t.size t.half ((t.home (t.keyAt j) : ℤ) - i) ≤ 0 then
        shift fuel (((t.setKey i (t.keyAt j)).setValue i (t.valueAt j)).setKey j 0) j (t.next j)
      else shift fuel t i (t.next j)

def remove (t : HashMapSS) (key : Key) : Option HashMapSS := do
  let i ← t.search key
  shift t.size (t.setKey i 0) i (t.next i)

/-- The table as the tracker uses it. A write outside the array is undefined. -/
def hashMap : LinkedTracker.MapOps HashMapSS where
  find := HashMapSS.find
  value t i := t.valueAt i
  setValue t i child := if i < t.size then some (t.setValue i (some child)) else none
  insert := HashMapSS.insert
  remove := HashMapSS.remove

variable {t : HashMapSS} {i j n h : ℕ} {k : Key} {f : Key → Option ChildId}

@[simp] theorem size_setKey : (t.setKey i k).size = t.size := rfl

@[simp] theorem half_setKey : (t.setKey i k).half = t.half := rfl

@[simp] theorem valueAt_setKey : (t.setKey i k).valueAt j = t.valueAt j := rfl

variable {v : Option ChildId}

@[simp] theorem size_setValue : (t.setValue i v).size = t.size := rfl

@[simp] theorem half_setValue : (t.setValue i v).half = t.half := rfl

@[simp] theorem keyAt_setValue : (t.setValue i v).keyAt j = t.keyAt j := rfl

theorem getD_set {α : Type} {l : List α} {x d : α} (hi : i < l.length) (j : ℕ) :
    (l.set i x).getD j d = if j = i then x else l.getD j d := by
  rw [List.getD_eq_getElem?_getD, List.getD_eq_getElem?_getD, List.getElem?_set]
  by_cases hij : i = j
  · subst hij
    simp [hi]
  · rw [if_neg hij, if_neg (Ne.symm hij)]

theorem keyAt_setKey (hi : i < t.size) (k : Key) (j : ℕ) :
    (t.setKey i k).keyAt j = if j = i then k else t.keyAt j :=
  getD_set (t.keys_length ▸ hi) j

theorem valueAt_setValue (hi : i < t.size) (v : Option ChildId) (j : ℕ) :
    (t.setValue i v).valueAt j = if j = i then v else t.valueAt j :=
  getD_set (t.values_length ▸ hi) j

theorem next_eq (hi : i < t.size) : t.next i = (i + 1) % t.size := by
  unfold next
  split_ifs with hlast
  · rw [hlast, Nat.sub_add_cancel (by omega), Nat.mod_self]
  · rw [Nat.mod_eq_of_lt (by omega)]

theorem next_pos (hn : 0 < t.size) (b d : ℕ) :
    t.next (pos t.size b d) = pos t.size b (d + 1) := by
  rw [next_eq (pos_lt hn b d), pos_succ]

/-- A search that has a slot to stop at stops at the first one. -/
theorem probeFrom_eq {stop : Key → Bool} (hn : 0 < t.size) (fuel a : ℕ)
    (hex : ∃ d < fuel, stop (t.keyAt (pos t.size h (a + d)))) :
    ∃ d < fuel, t.probe stop fuel (pos t.size h a) = some (pos t.size h (a + d)) ∧
      stop (t.keyAt (pos t.size h (a + d))) ∧
      ∀ e < d, ¬ stop (t.keyAt (pos t.size h (a + e))) := by
  induction fuel generalizing a with
  | zero =>
      obtain ⟨d, hd, -⟩ := hex
      omega
  | succ fuel ih =>
      rw [probe]
      by_cases hstop : stop (t.keyAt (pos t.size h a))
      · rw [if_pos hstop]
        exact ⟨0, Nat.succ_pos fuel, rfl, hstop, fun e he => absurd he (Nat.not_lt_zero e)⟩
      · have hshift : ∀ e, a + 1 + e = a + (e + 1) := by omega
        have hnext : ∃ d < fuel, stop (t.keyAt (pos t.size h (a + 1 + d))) := by
          obtain ⟨d, hd, hs⟩ := hex
          cases d with
          | zero => exact absurd hs hstop
          | succ d => exact ⟨d, by omega, by rwa [hshift]⟩
        obtain ⟨d, hd, hprobe, hs, hbefore⟩ := ih (a + 1) hnext
        rw [if_neg hstop, next_pos hn, hprobe]
        refine ⟨d + 1, by omega, by rw [hshift], by rwa [← hshift], ?_⟩
        intro e he
        cases e with
        | zero => exact hstop
        | succ e =>
            rw [← hshift]
            exact hbefore e (by omega)

theorem probe_eq (t : HashMapSS) (stop : Key → Bool) (hh : h < t.size)
    (hex : ∃ d < t.size, stop (t.keyAt (pos t.size h d))) :
    ∃ d < t.size, t.probe stop t.size h = some (pos t.size h d) ∧
      stop (t.keyAt (pos t.size h d)) ∧ ∀ e < d, ¬ stop (t.keyAt (pos t.size h e)) := by
  obtain ⟨d, hd, hprobe, hstop, hbefore⟩ := probeFrom_eq (h := h) (Nat.zero_lt_of_lt hh) t.size 0
    (by simpa using hex)
  simp only [Nat.zero_add, pos_zero hh] at hprobe hstop hbefore
  exact ⟨d, hd, hprobe, hstop, hbefore⟩

end HashMapSS

end PowerLawRocksdb
