import Mathlib.Algebra.BigOperators.Intervals
import Mathlib.Algebra.BigOperators.Ring.Finset
import Mathlib.Data.List.DropRight
import Mathlib.Data.List.GetD
import Mathlib.Data.List.Rotate
import Mathlib.Tactic.Ring

/-!
# Polynomial hashes of a moving window

The polynomial hash of a list weighs its elements with the powers of a base, the
last one with 1. Leading zeros do not count. A list of fixed length is a window:
when an element enters at its end, the first one leaves, and the new hash is known
from the old one and from the element that left.

The window is kept in a circular buffer, which is read from a position on. Writing
at the position and moving it on lets an element enter.
-/
namespace PowerLawRocksdb.PolynomialHash

def poly {R : Type*} [CommSemiring R] (b : R) (l : List R) : R := l.foldl (fun h c => h * b + c) 0

section Semiring
variable {R : Type*} [CommSemiring R] {b : R}

theorem poly_concat (b : R) (l : List R) (c : R) : poly b (l ++ [c]) = poly b l * b + c := by
  unfold poly
  rw [List.foldl_append]
  rfl

theorem poly_cons (b : R) (c : R) (l : List R) :
    poly b (c :: l) = c * b ^ l.length + poly b l := by
  induction l using List.reverseRecOn with
  | nil => simp [poly]
  | append_singleton l d ih =>
      rw [← List.cons_append, poly_concat, poly_concat, ih, List.length_append,
        List.length_singleton, pow_succ]
      ring

theorem poly_zeros (b : R) (k : ℕ) (l : List R) : poly b (List.replicate k 0 ++ l) = poly b l := by
  induction k with
  | zero => rfl
  | succ k ih => rw [List.replicate_succ, List.cons_append, poly_cons, zero_mul, zero_add, ih]

theorem poly_eq_sum (b : R) (l : List R) :
    poly b l = ∑ j ∈ Finset.range l.length, l.getD (l.length - 1 - j) 0 * b ^ j := by
  induction l using List.reverseRecOn with
  | nil => rfl
  | append_singleton l c ih =>
      rw [poly_concat, ih, List.length_append, List.length_singleton, Finset.sum_range_succ',
        Finset.sum_mul]
      congr 1
      · refine Finset.sum_congr rfl fun j hj => ?_
        have hlt : l.length - 1 - j < l.length := by
          have := Finset.mem_range.mp hj
          omega
        have hidx : l.length + 1 - 1 - (j + 1) = l.length - 1 - j := by omega
        rw [hidx, List.getD_append _ _ _ _ hlt, pow_succ, mul_assoc]
      · simp

/-- The hash of the last `s` elements. -/
theorem poly_rtake (b : R) (l : List R) (s : ℕ) :
    poly b (l.rtake s) =
      ∑ j ∈ Finset.range (min l.length s), l.getD (l.length - 1 - j) 0 * b ^ j := by
  have hlen : (l.rtake s).length = min l.length s := by
    rw [List.rtake, List.length_drop]
    omega
  rw [poly_eq_sum, hlen]
  refine Finset.sum_congr rfl fun j hj => ?_
  have hj := Finset.mem_range.mp hj
  have hidx : l.length - s + (min l.length s - 1 - j) = l.length - 1 - j := by omega
  rw [List.rtake, List.getD_eq_getElem?_getD, List.getElem?_drop, hidx,
    ← List.getD_eq_getElem?_getD]

theorem map_poly {S : Type*} [CommSemiring S] (f : R →+* S) (b : R) (l : List R) :
    f (poly b l) = poly (f b) (l.map f) := by
  induction l using List.reverseRecOn with
  | nil => exact map_zero f
  | append_singleton l c ih =>
      rw [poly_concat, List.map_append, List.map_singleton, poly_concat, map_add, map_mul, ih]

end Semiring

/-- The hash of a window after `c` has entered and `old` has left. -/
theorem poly_roll {R : Type*} [CommRing R] (b old c : R) (l : List R) :
    poly b (old :: l) * b + c - b ^ (l.length + 1) * old = poly b (l ++ [c]) := by
  rw [poly_cons, poly_concat, pow_succ]
  ring

section Window
variable {α : Type*} {l : List α} {p : ℕ}

/-- Writing at the position of a circular buffer and moving the position on. -/
theorem rotate_set (hp : p < l.length) (c : α) :
    (l.set p c).rotate ((p + 1) % l.length) = (l.rotate p).tail ++ [c] := by
  have hlen : (l.set p c).length = l.length := List.length_set
  have hold : l.rotate p = l[p] :: (l.drop (p + 1) ++ l.take p) := by
    rw [List.rotate_eq_drop_append_take hp.le, List.drop_eq_getElem_cons hp, List.cons_append]
  rw [← hlen, List.rotate_mod, List.rotate_eq_drop_append_take (by omega), hold, List.tail_cons,
    List.drop_set_of_lt (Nat.lt_succ_self p), List.take_add_one, List.take_set_of_le le_rfl,
    List.append_assoc]
  simp [hp]

/-- What is in a window of `s` elements `z` once `xs` has entered it. -/
theorem drop_replicate_append (z : α) (s : ℕ) (xs : List α) :
    (List.replicate s z ++ xs).drop xs.length =
      List.replicate (s - xs.length) z ++ xs.rtake s := by
  rw [List.drop_append, List.drop_replicate, List.length_replicate, List.rtake]

end Window

end PowerLawRocksdb.PolynomialHash
