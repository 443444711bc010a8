import Mathlib.Data.List.Basic
import Mathlib.Data.List.Perm.Basic
import Mathlib.Data.List.Sort

/-!
# Unstable sorting by a comparison

`StdSort` is a sorting routine known only by its contract: the output is a
permutation of the input in which no element is less than an earlier one. The
order of equivalent elements is not fixed, so a result about all routines is a
result about every order that the routine may give to ties.

For a comparison by descending rank it is determined exactly which elements can
occur among the first `k` of the output, and which must occur there.
-/
namespace PowerLawRocksdb.StandardSort

variable {α : Type*}

structure StdSort (α : Type*) (less : α → α → Bool) where
  run : List α → List α
  perm : ∀ l, (run l).Perm l
  sorted : ∀ l, (run l).Pairwise fun a b => less b a = false

@[simp] theorem StdSort.length_run {less : α → α → Bool} (s : StdSort α less) (l : List α) :
    (s.run l).length = l.length := (s.perm l).length_eq

/-- An insertion sort by any total refinement of the comparison is such a routine. -/
def StdSort.ofLe {less : α → α → Bool} (le : α → α → Prop) [DecidableRel le] [Std.Total le]
    [IsTrans α le] (refines : ∀ a b, le a b → less b a = false) : StdSort α less where
  run l := l.insertionSort le
  perm l := List.perm_insertionSort le l
  sorted l := (List.pairwise_insertionSort le l).imp fun h => refines _ _ h

/-- The comparison that puts a higher rank first. -/
def higher (rank : α → ℕ) (a b : α) : Bool := decide (rank b < rank a)

variable {rank : α → ℕ}

/-- Rank `a` is at least rank `b`. -/
def Ranks (rank : α → ℕ) (a b : α) : Prop := rank b ≤ rank a

instance (rank : α → ℕ) : DecidableRel (Ranks rank) := fun a b => Nat.decLe (rank b) (rank a)
instance (rank : α → ℕ) : Std.Total (Ranks rank) := ⟨fun a b => Nat.le_total (rank b) (rank a)⟩
instance (rank : α → ℕ) : IsTrans α (Ranks rank) := ⟨fun _ _ _ hab hbc => Nat.le_trans hbc hab⟩

def StdSort.descending (rank : α → ℕ) : StdSort α (higher rank) :=
  .ofLe (Ranks rank) fun _ _ h => decide_eq_false (Nat.not_lt_of_le h)

theorem StdSort.descends (s : StdSort α (higher rank)) (l : List α) :
    (s.run l).Pairwise fun a b => rank b ≤ rank a :=
  (s.sorted l).imp fun h => by simpa [higher] using h

theorem StdSort.take_drop (s : StdSort α (higher rank)) {l : List α} {k : ℕ} {p q : α}
    (hp : p ∈ (s.run l).take k) (hq : q ∈ (s.run l).drop k) : rank q ≤ rank p := by
  have h := s.descends l
  rw [← List.take_append_drop k (s.run l), List.pairwise_append] at h
  exact h.2.2 p hp q hq

theorem StdSort.mem_take_or_drop (s : StdSort α (higher rank)) {l : List α} {p : α}
    (hp : p ∈ l) (k : ℕ) : p ∈ (s.run l).take k ∨ p ∈ (s.run l).drop k := by
  rw [← List.mem_append, List.take_append_drop]
  exact (s.perm l).mem_iff.mpr hp

theorem length_take_of_mem_drop {l : List α} {k : ℕ} {p : α} (h : p ∈ l.drop k) :
    (l.take k).length = k := by
  have := List.length_pos_of_mem h
  rw [List.length_drop] at this
  rw [List.length_take]
  omega

/-- If at most `k` elements rank as high as `p`, then `p` is among the first `k`. -/
theorem StdSort.mem_take_of_countP_le (s : StdSort α (higher rank)) {l : List α} {k : ℕ} {p : α}
    (hp : p ∈ l) (hk : l.countP (fun q => decide (rank p ≤ rank q)) ≤ k) :
    p ∈ (s.run l).take k := by
  rcases s.mem_take_or_drop hp k with h | h
  · exact h
  · exfalso
    have htake : ((s.run l).take k).countP (fun q => decide (rank p ≤ rank q)) = k := by
      rw [List.countP_eq_length.mpr fun q hq => decide_eq_true (s.take_drop hq h),
        length_take_of_mem_drop h]
    have hdrop : 0 < ((s.run l).drop k).countP (fun q => decide (rank p ≤ rank q)) :=
      List.countP_pos_iff.mpr ⟨p, h, decide_eq_true le_rfl⟩
    have hsum := (s.perm l).countP_eq (fun q => decide (rank p ≤ rank q))
    rw [← List.take_append_drop k (s.run l), List.countP_append] at hsum
    omega

/-- An element that `k` others outrank is never among the first `k`. -/
theorem StdSort.countP_lt_of_mem_take (s : StdSort α (higher rank)) {l : List α} {k : ℕ} {p : α}
    (hp : p ∈ (s.run l).take k) : l.countP (fun q => decide (rank p < rank q)) < k := by
  have hdrop : ((s.run l).drop k).countP (fun q => decide (rank p < rank q)) = 0 :=
    List.countP_eq_zero.mpr fun q hq => by
      simpa using s.take_drop hp hq
  have htake : ((s.run l).take k).countP (fun q => decide (rank p < rank q)) <
      ((s.run l).take k).length := by
    refine lt_of_le_of_ne List.countP_le_length fun he => ?_
    simpa using List.countP_eq_length.mp he p hp
  have hlen : ((s.run l).take k).length ≤ k := List.length_take_le ..
  have hsum := (s.perm l).countP_eq (fun q => decide (rank p < rank q))
  rw [← List.take_append_drop k (s.run l), List.countP_append] at hsum
  omega

/-- The rank is positive. -/
def ranked (rank : α → ℕ) (a : α) : Bool := decide (0 < rank a)

/-- In a descending list the positive ranks come first. -/
theorem pos_iff_lt_countP {l : List α} (hdesc : l.Pairwise fun a b => rank b ≤ rank a) {j : ℕ}
    {p : α} (hp : l[j]? = some p) : 0 < rank p ↔ j < l.countP (ranked rank) := by
  induction l generalizing j with
  | nil => cases hp
  | cons a l ih =>
      obtain ⟨ha, hl⟩ := List.pairwise_cons.mp hdesc
      cases j with
      | zero =>
          cases hp
          rw [List.countP_pos_iff]
          constructor
          · intro hpos
            exact ⟨p, List.mem_cons_self, decide_eq_true hpos⟩
          · rintro ⟨q, hq, hpos⟩
            have hpos := of_decide_eq_true hpos
            rcases List.mem_cons.mp hq with rfl | hq
            · exact hpos
            · exact hpos.trans_le (ha q hq)
      | succ j =>
          rw [List.getElem?_cons_succ] at hp
          have hle := ha p (List.mem_of_getElem? hp)
          by_cases hpos : 0 < rank a
          · have hranked : ranked rank a = true := decide_eq_true hpos
            rw [List.countP_cons_of_pos hranked, Nat.add_lt_add_iff_right]
            exact ih hl hp
          · have hnone : l.countP (ranked rank) = 0 := by
              rw [List.countP_eq_zero]
              intro q hq hq'
              exact hpos ((of_decide_eq_true hq').trans_le (ha q hq))
            rw [List.countP_cons_of_neg (by simpa [ranked] using hpos), hnone]
            omega

/-- The positive ranks of a sorted list, in its order. -/
theorem filter_eq_take_countP {l : List α} (hdesc : l.Pairwise fun a b => rank b ≤ rank a) :
    l.filter (ranked rank) = l.take (l.countP (ranked rank)) := by
  induction l with
  | nil => rfl
  | cons a l ih =>
      obtain ⟨ha, hl⟩ := List.pairwise_cons.mp hdesc
      by_cases hpos : ranked rank a = true
      · rw [List.filter_cons_of_pos hpos, List.countP_cons_of_pos hpos, List.take_succ_cons, ih hl]
      · have hnone : ∀ q ∈ l, ¬ ranked rank q = true := fun q hq hq' =>
          hpos (decide_eq_true ((of_decide_eq_true hq').trans_le (ha q hq)))
        rw [List.filter_cons_of_neg hpos, List.countP_cons_of_neg hpos,
          List.countP_eq_zero.mpr hnone, List.filter_eq_nil_iff.mpr hnone, List.take_zero]

theorem countP_take {l : List α} (hdesc : l.Pairwise fun a b => rank b ≤ rank a) (k : ℕ) :
    (l.take k).countP (ranked rank) = min k (l.countP (ranked rank)) := by
  rw [← List.take_append_drop k l, List.pairwise_append] at hdesc
  have hsum : (l.take k).countP (ranked rank) + (l.drop k).countP (ranked rank) =
      l.countP (ranked rank) := by
    rw [← List.countP_append, List.take_append_drop]
  have hle : (l.take k).countP (ranked rank) ≤ (l.take k).length := List.countP_le_length
  have hlen : (l.take k).length ≤ k := List.length_take_le ..
  rcases Nat.eq_zero_or_pos ((l.drop k).countP (ranked rank)) with hzero | hpos
  · omega
  · obtain ⟨q, hq, hqpos⟩ := List.countP_pos_iff.mp hpos
    have hall : ∀ p ∈ l.take k, ranked rank p = true := fun p hp =>
      decide_eq_true ((of_decide_eq_true hqpos).trans_le (hdesc.2.2 p hp q hq))
    rw [List.countP_eq_length.mpr hall, length_take_of_mem_drop hq] at hsum ⊢
    omega

variable [DecidableEq α]

/-- Descending rank, with every tie resolved in favour of `p`. -/
def Favours (rank : α → ℕ) (p a b : α) : Prop :=
  rank b < rank a ∨ (rank b = rank a ∧ (b = p → a = p))

instance (rank : α → ℕ) (p : α) : DecidableRel (Favours rank p) := fun _ _ =>
  inferInstanceAs (Decidable (_ ∨ _))

instance (rank : α → ℕ) (p : α) : IsTrans α (Favours rank p) where
  trans a b c hab hbc := by
    rcases hab with hab | ⟨hab, hp⟩ <;> rcases hbc with hbc | ⟨hbc, hq⟩
    · exact Or.inl (hbc.trans hab)
    · exact Or.inl (hbc.trans_lt hab)
    · exact Or.inl (hbc.trans_eq hab)
    · exact Or.inr ⟨hbc.trans hab, fun h => hp (hq h)⟩

instance (rank : α → ℕ) (p : α) : Std.Total (Favours rank p) where
  total a b := by
    rcases lt_trichotomy (rank a) (rank b) with h | h | h
    · exact Or.inr (Or.inl h)
    · by_cases ha : a = p
      · exact Or.inl (Or.inr ⟨h.symm, fun _ => ha⟩)
      · exact Or.inr (Or.inr ⟨h, fun h' => absurd h' ha⟩)
    · exact Or.inl (Or.inl h)

def StdSort.favouring (rank : α → ℕ) (p : α) : StdSort α (higher rank) :=
  .ofLe (Favours rank p) fun a b h => by
    simp only [Favours] at h
    simp only [higher, decide_eq_false_iff_not]
    omega

theorem StdSort.favouring_mem_take {l : List α} {k : ℕ} {p : α} (hp : p ∈ l)
    (hk : l.countP (fun q => decide (rank p < rank q)) < k) :
    p ∈ ((StdSort.favouring rank p).run l).take k := by
  set s := StdSort.favouring rank p
  have hs : (s.run l).Pairwise (Favours rank p) := List.pairwise_insertionSort _ l
  by_contra hnot
  have hdrop := (s.mem_take_or_drop hp k).resolve_left hnot
  rw [← List.take_append_drop k (s.run l), List.pairwise_append] at hs
  -- all of the first `k` precede `p`, and none of them is `p`
  have habove : ∀ q ∈ (s.run l).take k, decide (rank p < rank q) = true := by
    intro q hq
    rcases hs.2.2 q hq p hdrop with h | ⟨_, h⟩
    · exact decide_eq_true h
    · exact absurd (h rfl ▸ hq) hnot
  have hsum := (s.perm l).countP_eq (fun q => decide (rank p < rank q))
  rw [← List.take_append_drop k (s.run l), List.countP_append,
    List.countP_eq_length.mpr habove, length_take_of_mem_drop hdrop] at hsum
  omega

end PowerLawRocksdb.StandardSort
