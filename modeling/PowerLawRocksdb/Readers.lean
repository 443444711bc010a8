import Mathlib.Data.List.Basic

/-!
# Readers

A reader takes a value off the front of a string, or fails. It is local if it decides
by what it takes alone, so that the same symbols give the same value in front of any
other rest. No proper prefix of what a local reader takes can be read.

`many` repeats a reader as long as something is left. A string that is put together
from spellings is read back, and if it is cut short then exactly the values whose
spellings are still complete are read.
-/
namespace PowerLawRocksdb.Readers
variable {σ α β : Type*}

abbrev Reader (σ α : Type*) := List σ → Option (α × List σ)

/-- The reader takes `taken` off any string and returns `x`. -/
def Spells (read : Reader σ α) (taken : List σ) (x : α) : Prop :=
  ∀ rest, read (taken ++ rest) = some (x, rest)

def Local (read : Reader σ α) : Prop :=
  ∀ ⦃s x rest⦄, read s = some (x, rest) → ∃ taken, s = taken ++ rest ∧ Spells read taken x

/-- One reader after another. -/
def Reader.bind (read : Reader σ α) (next : α → Reader σ β) : Reader σ β :=
  fun s => (read s).bind fun r => next r.1 r.2

def Reader.pure (x : α) : Reader σ α := fun s => some (x, s)

/-- The next `n` symbols. -/
def Reader.take (n : ℕ) : Reader σ (List σ) :=
  fun s => if n ≤ s.length then some (s.take n, s.drop n) else none

theorem Spells.bind {read : Reader σ α} {next : α → Reader σ β} {a b : List σ} {x : α} {y : β}
    (ha : Spells read a x) (hb : Spells (next x) b y) : Spells (read.bind next) (a ++ b) y := by
  intro rest
  rw [Reader.bind, List.append_assoc, ha, Option.bind_some]
  exact hb rest

theorem Spells.pure (x : α) : Spells (Reader.pure x : Reader σ α) [] x := fun _ => rfl

theorem Local.pure (x : α) : Local (Reader.pure x : Reader σ α) := by
  intro s y rest h
  cases h
  exact ⟨[], rfl, Spells.pure x⟩

theorem Spells.take (s : List σ) : Spells (Reader.take s.length) s s := by
  intro rest
  have hlen : s.length ≤ (s ++ rest).length := by
    rw [List.length_append]
    exact Nat.le_add_right ..
  rw [Reader.take, if_pos hlen, List.take_left, List.drop_left]

theorem Local.take (n : ℕ) : Local (Reader.take n : Reader σ (List σ)) := by
  intro s x rest h
  unfold Reader.take at h
  split_ifs at h with hlen
  cases h
  have htaken := Spells.take (s.take n)
  rw [List.length_take, Nat.min_eq_left hlen] at htaken
  exact ⟨s.take n, (List.take_append_drop n s).symm, htaken⟩

theorem Local.bind {read : Reader σ α} {next : α → Reader σ β} (hread : Local read)
    (hnext : ∀ x, Local (next x)) : Local (read.bind next) := by
  intro s y rest h
  obtain ⟨⟨x, mid⟩, hx, hy⟩ := Option.bind_eq_some_iff.mp h
  obtain ⟨a, rfl, ha⟩ := hread hx
  obtain ⟨b, rfl, hb⟩ := hnext x hy
  exact ⟨a ++ b, (List.append_assoc ..).symm, ha.bind hb⟩

/-- What a local reader takes has no shorter spelling in front. -/
theorem Local.eq_none {read : Reader σ α} (hread : Local read) {a b : List σ} {x : α}
    (hspells : Spells read (a ++ b) x) (hb : b ≠ []) : read a = none := by
  cases ha : read a with
  | none => rfl
  | some r =>
      obtain ⟨taken, htaken, hshort⟩ := @hread _ r.1 r.2 ha
      have hfull := hspells []
      rw [htaken, List.append_assoc, List.append_assoc, hshort] at hfull
      have hrest := congrArg Prod.snd (Option.some.inj hfull)
      simp only [List.append_nil, List.append_eq_nil_iff] at hrest
      exact absurd hrest.2 hb

/-- Reads values until nothing is left or the reader fails, at most `fuel` of them.
Returns the values and the rest. -/
def many (read : Reader σ α) : ℕ → List σ → List α × List σ
  | 0, s => ([], s)
  | fuel + 1, s =>
      if s.isEmpty then ([], [])
      else
        match read s with
        | none => ([], s)
        | some (x, rest) =>
            let r := many read fuel rest
            (x :: r.1, r.2)

/-- Each string is a spelling of the value, and none is empty. -/
def Spelling (read : Reader σ α) (spell : α → List σ) (xs : List α) : Prop :=
  ∀ x ∈ xs, Spells read (spell x) x ∧ spell x ≠ []

section
variable {read : Reader σ α} {spell : α → List σ}

theorem many_of_none {s : List σ} (h : read s = none) (fuel : ℕ) :
    many read (fuel + 1) s = ([], s) := by
  unfold many
  split_ifs with hs
  · rw [List.isEmpty_iff.mp hs]
  · rw [h]

theorem many_cons {a s : List σ} {x : α} (ha : Spells read a x) (hne : a ≠ []) (fuel : ℕ) :
    many read (fuel + 1) (a ++ s) = (x :: (many read fuel s).1, (many read fuel s).2) := by
  have hnonempty : (a ++ s).isEmpty = false := by simp [hne]
  rw [many, hnonempty, ha]
  rfl

/-- The spellings of values are read, and then what follows. -/
theorem many_append {xs : List α} (hxs : Spelling read spell xs) (s : List σ) (fuel : ℕ) :
    many read (xs.length + fuel) ((xs.map spell).flatten ++ s) =
      (xs ++ (many read fuel s).1, (many read fuel s).2) := by
  induction xs with
  | nil => rw [List.length_nil, Nat.zero_add]; rfl
  | cons x xs ih =>
      obtain ⟨hx, hne⟩ := hxs x List.mem_cons_self
      have hfuel : (x :: xs).length + fuel = xs.length + fuel + 1 := by
        rw [List.length_cons]
        omega
      rw [hfuel, List.map_cons, List.flatten_cons, List.append_assoc, many_cons hx hne,
        ih fun y hy => hxs y (List.mem_cons_of_mem x hy)]
      rfl

theorem many_nil (fuel : ℕ) : many read fuel [] = ([], []) := by
  cases fuel <;> rfl

/-- There is a symbol for each value. -/
theorem length_le_flatten {xs : List α} (hxs : Spelling read spell xs) :
    xs.length ≤ (xs.map spell).flatten.length := by
  induction xs with
  | nil => exact Nat.le_refl 0
  | cons x xs ih =>
      have hpos := List.length_pos_of_ne_nil (hxs x List.mem_cons_self).2
      have ih := ih fun y hy => hxs y (List.mem_cons_of_mem x hy)
      rw [List.map_cons, List.flatten_cons, List.length_append, List.length_cons]
      omega

theorem many_flatten {xs : List α} (hxs : Spelling read spell xs) :
    many read (xs.map spell).flatten.length (xs.map spell).flatten = (xs, []) := by
  obtain ⟨fuel, hfuel⟩ := Nat.exists_eq_add_of_le (length_le_flatten hxs)
  have hmany := many_append hxs [] fuel
  rw [List.append_nil, ← hfuel, many_nil] at hmany
  rw [hmany, List.append_nil]

/-- A cut leaves complete spellings and a part of the next one. -/
theorem exists_cut (spell : α → List σ) (xs : List α) (n : ℕ) :
    ∃ kept lost part, xs = kept ++ lost ∧
      (xs.map spell).flatten.take n = (kept.map spell).flatten ++ part ∧
      (part = [] ∨ ∃ x rest missing, lost = x :: rest ∧ spell x = part ++ missing ∧
        missing ≠ []) := by
  induction xs generalizing n with
  | nil => exact ⟨[], [], [], rfl, List.take_nil, .inl rfl⟩
  | cons x xs ih =>
      rw [List.map_cons, List.flatten_cons]
      rcases Nat.lt_or_ge n (spell x).length with hn | hn
      · refine ⟨[], x :: xs, (spell x).take n, rfl, ?_, .inr ⟨x, xs, (spell x).drop n, rfl, ?_, ?_⟩⟩
        · rw [List.take_append_of_le_length (Nat.le_of_lt hn)]
          rfl
        · exact (List.take_append_drop ..).symm
        · exact List.drop_eq_nil_iff.not.mpr (Nat.not_le_of_lt hn)
      · obtain ⟨kept, lost, part, rfl, htake, hpart⟩ := ih (n - (spell x).length)
        refine ⟨x :: kept, lost, part, rfl, ?_, hpart⟩
        rw [List.take_append, List.take_of_length_le hn, htake, List.map_cons, List.flatten_cons,
          List.append_assoc]

/-- Of a string that is cut short, the values with complete spellings are read. -/
theorem many_take (hread : Local read) {xs : List α} (hxs : Spelling read spell xs) (n : ℕ) :
    ∃ kept lost part, xs = kept ++ lost ∧
      (xs.map spell).flatten.take n = (kept.map spell).flatten ++ part ∧
      many read ((xs.map spell).flatten.take n).length ((xs.map spell).flatten.take n) =
        (kept, part) ∧
      (part ≠ [] → read part = none) := by
  obtain ⟨kept, lost, part, rfl, htake, hpart⟩ := exists_cut spell xs n
  have hkept : Spelling read spell kept := fun x hx => hxs x (List.mem_append_left lost hx)
  have hnone : part ≠ [] → read part = none := by
    intro hne
    rcases hpart with hempty | ⟨x, rest, missing, rfl, hspell, hmissing⟩
    · exact absurd hempty hne
    · have hx := (hxs x (List.mem_append_right kept List.mem_cons_self)).1
      rw [hspell] at hx
      exact hread.eq_none hx hmissing
  refine ⟨kept, lost, part, rfl, htake, ?_, hnone⟩
  rw [htake, List.length_append]
  obtain ⟨fuel, hfuel⟩ := Nat.exists_eq_add_of_le (length_le_flatten hkept)
  rw [hfuel, Nat.add_assoc, many_append hkept]
  cases part with
  | nil => rw [many_nil, List.append_nil]
  | cons b part =>
      rw [List.length_cons, ← Nat.add_assoc, many_of_none (hnone (List.cons_ne_nil b part)),
        List.append_nil]

end

end PowerLawRocksdb.Readers
