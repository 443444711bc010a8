import Mathlib.Data.UInt
import PowerLawRocksdb.PolynomialHash

/-!
# The rolling hash

`Hasher` keeps the last inputs in a circular array and updates its hash with each
input, without reading the array again. All arithmetic is on 64 bits and wraps.
`Hash` and `HashLong` share the array. `Hash` takes a byte and also reads the old
value back as a byte, so the two are not meant to be mixed.

The position of the array and its length are part of the type of a hasher, so the
access to the array is never out of range.
-/
namespace PowerLawRocksdb.RollingHash
open PolynomialHash
open scoped UInt64.CommRing

def kPower : UInt64 := 31

/-- A hasher for a context of `s` inputs, with `value` for `hash_`. -/
structure Hasher (s : ℕ) where
  pow : UInt64
  context : List UInt64
  contextPos : ℕ
  value : UInt64
  size : context.length = s
  pos_lt : contextPos < s

variable {s : ℕ}

def Hasher.init (s : ℕ) (hs : 1 ≤ s) : Hasher s :=
  ⟨(· * kPower)^[s] 1, List.replicate s 0, 0, 0, List.length_replicate, hs⟩

/-- The body of `Hash` and of `HashLong`, which differ in how they read the old value.
The result is the hasher with the value that the call returns. -/
def Hasher.roll (h : Hasher s) (readBack : UInt64 → UInt64) (c : UInt64) : Hasher s × UInt64 :=
  let value := h.value * kPower + c
  let old := readBack (h.context.get ⟨h.contextPos, h.size.symm ▸ h.pos_lt⟩)
  let value := value - h.pow * old
  (⟨h.pow, h.context.set h.contextPos c, (h.contextPos + 1) % s, value,
    List.length_set.trans h.size, Nat.mod_lt _ (Nat.zero_lt_of_lt h.pos_lt)⟩, value)

def Hasher.hash (h : Hasher s) (c : UInt8) : Hasher s × UInt64 :=
  h.roll (fun old => old.toUInt8.toUInt64) c.toUInt64

def Hasher.hashLong (h : Hasher s) (c : UInt64) : Hasher s × UInt64 := h.roll id c

def Hasher.clear (h : Hasher s) : Hasher s :=
  ⟨h.pow, List.replicate s 0, 0, 0, List.length_replicate, Nat.zero_lt_of_lt h.pos_lt⟩

inductive Call where
  | hash (c : UInt8)
  | hashLong (c : UInt64)
  | clear

def Hasher.step (h : Hasher s) : Call → Hasher s
  | .hash c => (h.hash c).1
  | .hashLong c => (h.hashLong c).1
  | .clear => h.clear

def Hasher.run (h : Hasher s) (calls : List Call) : Hasher s := calls.foldl Hasher.step h

/-- The inputs of a sequence of calls of the same kind. -/
def Hasher.rollAll (h : Hasher s) (readBack : UInt64 → UInt64) (xs : List UInt64) : Hasher s :=
  xs.foldl (fun h c => (h.roll readBack c).1) h

def Hasher.hashAll (h : Hasher s) (xs : List UInt8) : Hasher s :=
  xs.foldl (fun h c => (h.hash c).1) h

def Hasher.hashLongAll (h : Hasher s) (xs : List UInt64) : Hasher s :=
  xs.foldl (fun h c => (h.hashLong c).1) h

/-- A hasher that has just been constructed, or cleared after any calls. -/
def Fresh (h : Hasher s) : Prop :=
  ∃ hs, h = .init s hs ∨ ∃ calls, h = ((Hasher.init s hs).run calls).clear

/-- The polynomial of the last `s` inputs, as a natural number. -/
def windowSum (s : ℕ) (inputs : List ℕ) : ℕ :=
  ∑ j ∈ Finset.range (min inputs.length s), inputs.getD (inputs.length - 1 - j) 0 * 31 ^ j

/-- The array, read from the position on, is the window `w`, and the hash is its polynomial. -/
structure Rolls (h : Hasher s) (w : List UInt64) : Prop where
  window : h.context.rotate h.contextPos = w
  value : h.value = poly kPower w
  pow : h.pow = kPower ^ s

theorem iterate_mul (n : ℕ) (x : UInt64) : (· * kPower)^[n] x = x * kPower ^ n := by
  induction n with
  | zero => exact (mul_one x).symm
  | succ n ih => rw [Function.iterate_succ_apply', ih, pow_succ, mul_assoc]

theorem pow_step (h : Hasher s) (call : Call) : (h.step call).pow = h.pow := by
  cases call <;> rfl

theorem pow_run (h : Hasher s) (calls : List Call) : (h.run calls).pow = h.pow := by
  induction calls generalizing h with
  | nil => rfl
  | cons call calls ih => exact (ih (h.step call)).trans (pow_step h call)

theorem poly_replicate_zero (s : ℕ) : poly kPower (List.replicate s 0) = 0 := by
  have hzeros := poly_zeros kPower s []
  rwa [List.append_nil] at hzeros

theorem Fresh.rolls {h : Hasher s} (hh : Fresh h) : Rolls h (List.replicate s 0) := by
  obtain ⟨hs, hcase⟩ := hh
  have hpow : (Hasher.init s hs).pow = kPower ^ s := (iterate_mul s 1).trans (one_mul _)
  rcases hcase with rfl | ⟨calls, rfl⟩
  · exact ⟨List.rotate_zero _, (poly_replicate_zero s).symm, hpow⟩
  · exact ⟨List.rotate_zero _, (poly_replicate_zero s).symm, (pow_run _ calls).trans hpow⟩

/-- A call moves the window on if it reads back the value that leaves. -/
theorem Rolls.roll {h : Hasher s} {old : UInt64} {rest : List UInt64} (hr : Rolls h (old :: rest))
    {readBack : UInt64 → UInt64} (hold : readBack old = old) (c : UInt64) :
    Rolls (h.roll readBack c).1 (rest ++ [c]) := by
  have hp : h.contextPos < h.context.length := h.size.symm ▸ h.pos_lt
  have hlen : rest.length + 1 = s := by
    rw [← List.length_cons, ← hr.window, List.length_rotate, h.size]
  have hget : h.context.get ⟨h.contextPos, hp⟩ = old := by
    have hhead := congrArg List.head? hr.window
    rw [List.head?_rotate hp] at hhead
    exact Option.some.inj ((List.getElem?_eq_getElem hp).symm.trans hhead)
  refine ⟨?_, ?_, hr.pow⟩
  · have hset := rotate_set hp c
    rw [hr.window, h.size] at hset
    exact hset
  · unfold Hasher.roll
    dsimp only
    rw [hget, hold, hr.value, hr.pow, ← poly_roll kPower old c rest, hlen]

theorem Rolls.rollAll {h : Hasher s} {w xs : List UInt64} (hr : Rolls h w)
    {readBack : UInt64 → UInt64} (hw : ∀ x ∈ w, readBack x = x) (hxs : ∀ x ∈ xs, readBack x = x) :
    Rolls (h.rollAll readBack xs) ((w ++ xs).drop xs.length) := by
  induction xs generalizing h w with
  | nil =>
      rw [List.append_nil]
      exact hr
  | cons x xs ih =>
      cases w with
      | nil =>
          have hlen := congrArg List.length hr.window
          rw [List.length_rotate, h.size, List.length_nil] at hlen
          exact absurd hlen (Nat.ne_of_gt (Nat.zero_lt_of_lt h.pos_lt))
      | cons old rest =>
          obtain ⟨hold, hrest⟩ := List.forall_mem_cons.mp hw
          obtain ⟨hx, hxs⟩ := List.forall_mem_cons.mp hxs
          have hnext : ∀ y ∈ rest ++ [x], readBack y = y := by
            intro y hy
            rcases List.mem_append.mp hy with hy | hy
            · exact hrest y hy
            · rw [List.mem_singleton.mp hy]
              exact hx
          have hrolls := ih (hr.roll hold x) hnext hxs
          rwa [List.append_assoc] at hrolls

theorem toNat_poly (l : List UInt64) :
    (poly kPower l).toNat = poly 31 (l.map UInt64.toNat) % 2 ^ 64 := by
  have hcast : Nat.castRingHom UInt64 ∘ UInt64.toNat = id :=
    funext fun x => UInt64.ofNat_toNat
  have hmap := map_poly (Nat.castRingHom UInt64) 31 (l.map UInt64.toNat)
  rw [List.map_map, hcast, List.map_id] at hmap
  calc (poly kPower l).toNat
      = (UInt64.ofNat (poly 31 (l.map UInt64.toNat))).toNat := congrArg UInt64.toNat hmap.symm
    _ = poly 31 (l.map UInt64.toNat) % 2 ^ 64 := UInt64.toNat_ofNat'

/-- The value of the last of a sequence of calls that read back what they wrote. -/
theorem returned_eq {h : Hasher s} (hh : Fresh h) {readBack : UInt64 → UInt64}
    (hzero : readBack 0 = 0) {xs : List UInt64} {c : UInt64}
    (hxs : ∀ x ∈ xs ++ [c], readBack x = x) :
    ((h.rollAll readBack xs).roll readBack c).2 = poly kPower ((xs ++ [c]).rtake s) := by
  have hrolls := hh.rolls.rollAll
    (fun x hx => by rw [List.eq_of_mem_replicate hx, hzero]) hxs
  have hlast : h.rollAll readBack (xs ++ [c]) = ((h.rollAll readBack xs).roll readBack c).1 := by
    unfold Hasher.rollAll
    rw [List.foldl_append]
    rfl
  have hvalue := hrolls.value
  rw [hlast, drop_replicate_append, poly_zeros] at hvalue
  exact hvalue

theorem windowSum_eq (s : ℕ) (inputs : List ℕ) :
    windowSum s inputs = poly 31 (inputs.rtake s) := (poly_rtake 31 inputs s).symm

theorem map_rtake {α β : Type*} (f : α → β) (l : List α) (s : ℕ) :
    (l.map f).rtake s = (l.rtake s).map f := by
  rw [List.rtake, List.rtake, List.length_map, List.map_drop]

/-- The returned value as a number. -/
theorem toNat_poly_rtake (l : List UInt64) :
    (poly kPower (l.rtake s)).toNat = windowSum s (l.map UInt64.toNat) % 2 ^ 64 := by
  rw [toNat_poly, windowSum_eq, map_rtake]

theorem hashLong_eq {h : Hasher s} (hh : Fresh h) (xs : List UInt64) (c : UInt64) :
    ((h.hashLongAll xs).hashLong c).2 = poly kPower ((xs ++ [c]).rtake s) :=
  returned_eq hh rfl fun _ _ => rfl

theorem hashAll_eq (h : Hasher s) (xs : List UInt8) :
    h.hashAll xs = h.rollAll (fun old => old.toUInt8.toUInt64) (xs.map UInt8.toUInt64) := by
  unfold Hasher.hashAll Hasher.rollAll Hasher.hash
  rw [List.foldl_map]

/-- Bytes are read back as they were written. -/
theorem hash_eq {h : Hasher s} (hh : Fresh h) (xs : List UInt8) (c : UInt8) :
    ((h.hashAll xs).hash c).2 = poly kPower (((xs ++ [c]).map UInt8.toUInt64).rtake s) := by
  rw [hashAll_eq, List.map_append]
  refine returned_eq hh rfl fun x hx => ?_
  rw [← List.map_singleton, ← List.map_append] at hx
  obtain ⟨b, -, rfl⟩ := List.mem_map.mp hx
  exact congrArg UInt8.toUInt64 (UInt8.toUInt8_toUInt64 b)

/-- The value of the last call is the polynomial of the last `s` inputs modulo `2 ^ 64`,
and depends on nothing else. -/
theorem hash_window {h : Hasher s} (hh : Fresh h) :
    (∀ xs c, ((h.hashLongAll xs).hashLong c).2.toNat =
      windowSum s ((xs ++ [c]).map UInt64.toNat) % 2 ^ 64) ∧
    (∀ xs c, ((h.hashAll xs).hash c).2.toNat =
      windowSum s ((xs ++ [c]).map UInt8.toNat) % 2 ^ 64) ∧
    ∀ h' : Hasher s, Fresh h' →
      (∀ xs c ys d, (xs ++ [c]).rtake s = (ys ++ [d]).rtake s →
        ((h.hashLongAll xs).hashLong c).2 = ((h'.hashLongAll ys).hashLong d).2) ∧
      ∀ xs c ys d, (xs ++ [c]).rtake s = (ys ++ [d]).rtake s →
        ((h.hashAll xs).hash c).2 = ((h'.hashAll ys).hash d).2 := by
  refine ⟨?_, ?_, ?_⟩
  · intro xs c
    rw [hashLong_eq hh, toNat_poly_rtake]
  · intro xs c
    have htoNat : UInt64.toNat ∘ UInt8.toUInt64 = UInt8.toNat :=
      funext fun b => UInt8.toNat_toUInt64 b
    rw [hash_eq hh, toNat_poly_rtake, List.map_map, htoNat]
  · intro h' hh'
    constructor
    · intro xs c ys d hlast
      rw [hashLong_eq hh, hashLong_eq hh', hlast]
    · intro xs c ys d hlast
      rw [hash_eq hh, hash_eq hh', map_rtake, map_rtake, hlast]

/-- A context of two inputs, with a product that wraps: the third call no longer sees
the first input. -/
theorem hash_window_two :
    (((Hasher.init 2 (by decide)).hashLongAll [7, 18446744073709551615]).hashLong 5).2.toNat =
      windowSum 2 (([7, 18446744073709551615] ++ [5] : List UInt64).map UInt64.toNat) % 2 ^ 64 :=
  (hash_window ⟨by decide, Or.inl rfl⟩).1 [7, 18446744073709551615] 5

end PowerLawRocksdb.RollingHash
