import Mathlib.Data.Nat.Digits.Lemmas
import Mathlib.Data.List.Basic

/-!
# Numerals in byte strings

Two ways to write a natural number as a string of bytes: in little-endian binary
of a fixed width, and in decimal digits that are filled up with zeros on the left.
For both, reading is a fold over the bytes, and reading what was written gives
the number back as far as the width allows.
-/
namespace PowerLawRocksdb.Numerals

abbrev Bytes := List UInt8

/-- The lowest `w` bytes of `n`, least significant first. -/
def littleEndian : ℕ → ℕ → Bytes
  | 0, _ => []
  | w + 1, n => n.toUInt8 :: littleEndian w (n / 256)

def ofLittleEndian (bytes : Bytes) : ℕ := bytes.foldr (fun b n => b.toNat + 256 * n) 0

@[simp] theorem length_littleEndian (w n : ℕ) : (littleEndian w n).length = w := by
  induction w generalizing n with
  | zero => rfl
  | succ w ih => rw [littleEndian, List.length_cons, ih]

theorem ofLittleEndian_littleEndian (w n : ℕ) :
    ofLittleEndian (littleEndian w n) = n % 256 ^ w := by
  induction w generalizing n with
  | zero => exact (Nat.mod_one n).symm
  | succ w ih =>
      unfold ofLittleEndian at ih ⊢
      rw [littleEndian, List.foldr_cons, ih, Nat.pow_succ', Nat.mod_mul]
      rfl

/-- The character of a decimal digit. -/
def digit (d : ℕ) : UInt8 := (48 + d).toUInt8

def IsDigit (b : UInt8) : Prop := 48 ≤ b ∧ b ≤ 57

instance (b : UInt8) : Decidable (IsDigit b) := inferInstanceAs (Decidable (_ ∧ _))

/-- The number that a string of digits denotes. -/
def value (bytes : Bytes) : ℕ := bytes.foldl (fun n b => 10 * n + (b.toNat - 48)) 0

/-- The shortest decimal numeral. -/
def numeral (n : ℕ) : Bytes :=
  if n = 0 then [digit 0] else ((Nat.digits 10 n).map digit).reverse

/-- The decimal numeral, filled with zeros on the left up to width `w`. -/
def padded (w n : ℕ) : Bytes := (numeral n).leftpad w (digit 0)

theorem toNat_digit {d : ℕ} (hd : d < 10) : (digit d).toNat = 48 + d := by
  unfold digit
  rw [Nat.toUInt8, UInt8.toNat_ofNat']
  omega

theorem isDigit_digit {d : ℕ} (hd : d < 10) : IsDigit (digit d) := by
  constructor
  · rw [UInt8.le_iff_toNat_le, toNat_digit hd]
    exact Nat.le_add_right 48 d
  · rw [UInt8.le_iff_toNat_le, toNat_digit hd]
    show 48 + d ≤ 57
    omega

theorem isDigit_of_mem_numeral {n : ℕ} {b : UInt8} (hb : b ∈ numeral n) : IsDigit b := by
  unfold numeral at hb
  split_ifs at hb
  · rw [List.mem_singleton.mp hb]
    exact isDigit_digit (by omega)
  · rw [List.mem_reverse] at hb
    obtain ⟨d, hd, rfl⟩ := List.mem_map.mp hb
    exact isDigit_digit (Nat.digits_lt_base (by omega) hd)

theorem isDigit_of_mem_padded {w n : ℕ} {b : UInt8} (hb : b ∈ padded w n) : IsDigit b := by
  rcases List.mem_append.mp hb with hb | hb
  · rw [List.eq_of_mem_replicate hb]
    exact isDigit_digit (by omega)
  · exact isDigit_of_mem_numeral hb

theorem value_append_zeros (k : ℕ) (bytes : Bytes) :
    value (List.replicate k (digit 0) ++ bytes) = value bytes := by
  induction k with
  | zero => rfl
  | succ k ih => exact ih

theorem value_digits {ds : List ℕ} (h : ∀ d ∈ ds, d < 10) :
    value ((ds.map digit).reverse) = Nat.ofDigits 10 ds := by
  induction ds with
  | nil => rfl
  | cons d ds ih =>
      have hd := toNat_digit (h d List.mem_cons_self)
      have ih := ih fun e he => h e (List.mem_cons_of_mem d he)
      unfold value at ih ⊢
      rw [List.map_cons, List.reverse_cons, List.foldl_append, ih, Nat.ofDigits_cons,
        List.foldl_cons, List.foldl_nil, hd]
      omega

theorem foldl_digits_lt {bytes : Bytes} (h : ∀ b ∈ bytes, IsDigit b) (n : ℕ) :
    bytes.foldl (fun n b => 10 * n + (b.toNat - 48)) n < (n + 1) * 10 ^ bytes.length := by
  induction bytes generalizing n with
  | nil => simp
  | cons b bytes ih =>
      have hb : b.toNat ≤ 57 := UInt8.le_iff_toNat_le.mp (h b List.mem_cons_self).2
      have ih := ih (fun c hc => h c (List.mem_cons_of_mem b hc)) (10 * n + (b.toNat - 48))
      rw [List.foldl_cons, List.length_cons, Nat.pow_succ']
      calc _ < (10 * n + (b.toNat - 48) + 1) * 10 ^ bytes.length := ih
        _ ≤ ((n + 1) * 10) * 10 ^ bytes.length := Nat.mul_le_mul_right _ (by omega)
        _ = (n + 1) * (10 * 10 ^ bytes.length) := Nat.mul_assoc ..

theorem value_lt {bytes : Bytes} (h : ∀ b ∈ bytes, IsDigit b) :
    value bytes < 10 ^ bytes.length := by
  have hlt := foldl_digits_lt h 0
  rwa [Nat.zero_add, Nat.one_mul] at hlt

theorem value_numeral (n : ℕ) : value (numeral n) = n := by
  unfold numeral
  split_ifs with h
  · exact h.symm
  · rw [value_digits fun d hd => Nat.digits_lt_base (by omega) hd, Nat.ofDigits_digits]

theorem value_padded (w n : ℕ) : value (padded w n) = n := by
  unfold padded List.leftpad
  rw [value_append_zeros, value_numeral]

theorem length_numeral_le {w n : ℕ} (hw : 0 < w) (hn : n < 10 ^ w) : (numeral n).length ≤ w := by
  unfold numeral
  split_ifs
  · exact hw
  · rw [List.length_reverse, List.length_map]
    exact (Nat.digits_length_le_iff (by omega) n).mpr hn

theorem length_padded {w n : ℕ} (hw : 0 < w) (hn : n < 10 ^ w) : (padded w n).length = w := by
  have := length_numeral_le hw hn
  rw [padded, List.length_leftpad]
  omega

theorem le_length_padded (w n : ℕ) : w ≤ (padded w n).length := by
  rw [padded, List.length_leftpad]
  exact le_max_left ..

theorem length_padded_le {w v n : ℕ} (hwv : w ≤ v) (hv : 0 < v) (hn : n < 10 ^ v) :
    (padded w n).length ≤ v := by
  rw [padded, List.length_leftpad]
  exact max_le hwv (length_numeral_le hv hn)

end PowerLawRocksdb.Numerals
