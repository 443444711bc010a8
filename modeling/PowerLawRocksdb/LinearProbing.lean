import Mathlib.Data.Nat.ModEq
import Mathlib.Tactic.Ring

/-!
# Open addressing with linear probing

A table has `n` slots in a circle, and each entry has a home slot. An entry is found
if it can be reached from its home through occupied slots; the table is `Placed` if
that holds for all of them.

The circle is cut behind an empty slot and read as a row, in which no entry stands
before its home. Taking an entry out leaves a gap; the entries behind it are looked
at in turn, and one whose home is not behind the gap is moved into the gap, which
thereby moves on. `Shifting` is the invariant of this loop.
-/
namespace PowerLawRocksdb.LinearProbing

variable {n b d i : ℕ}

/-- The slot at place `d` of the row that begins at slot `b`. -/
def pos (n b d : ℕ) : ℕ := (b + d) % n

/-- The place of slot `i` in the row that begins at slot `b`. -/
def place (n b i : ℕ) : ℕ := (i + (n - b)) % n

theorem pos_lt (hn : 0 < n) (b d : ℕ) : pos n b d < n := Nat.mod_lt _ hn

theorem place_lt (hn : 0 < n) (b i : ℕ) : place n b i < n := Nat.mod_lt _ hn

theorem pos_place (hb : b < n) (hi : i < n) : pos n b (place n b i) = i := by
  unfold pos place
  rw [Nat.add_mod_mod, show b + (i + (n - b)) = i + n by omega, Nat.add_mod_right,
    Nat.mod_eq_of_lt hi]

theorem place_pos (hb : b < n) (hd : d < n) : place n b (pos n b d) = d := by
  unfold pos place
  rw [Nat.mod_add_mod, show b + d + (n - b) = d + n by omega, Nat.add_mod_right,
    Nat.mod_eq_of_lt hd]

theorem pos_zero (hb : b < n) : pos n b 0 = b := by
  unfold pos
  rw [Nat.add_zero, Nat.mod_eq_of_lt hb]

/-- A place of the row lies before the end of the table or has wrapped around. -/
theorem pos_cases {b d : ℕ} (hb : b < n) (hd : d < n) :
    pos n b d = b + d ∨ pos n b d + n = b + d := by
  unfold pos
  by_cases hlt : b + d < n
  · exact Or.inl (Nat.mod_eq_of_lt hlt)
  · rw [Nat.mod_eq_sub_mod (by omega), Nat.mod_eq_of_lt (by omega)]
    omega

theorem exists_start {z : ℕ} (hz : z < n) : ∃ b < n, pos n b (n - 1) = z := by
  refine ⟨(z + 1) % n, Nat.mod_lt _ (by omega), ?_⟩
  have hsum : z + 1 + (n - 1) = z + n := by omega
  unfold pos
  rw [Nat.mod_add_mod, hsum, Nat.add_mod_right, Nat.mod_eq_of_lt hz]

theorem pos_inj {e : ℕ} (hb : b < n) (hd : d < n) (he : e < n) (h : pos n b d = pos n b e) :
    d = e := by
  rw [← place_pos hb hd, h, place_pos hb he]

theorem pos_succ (n b d : ℕ) : pos n b (d + 1) = (pos n b d + 1) % n := by
  unfold pos
  rw [Nat.mod_add_mod, Nat.add_assoc]

theorem pos_pos (n b d e : ℕ) : pos n (pos n b d) e = pos n b (d + e) := by
  unfold pos
  rw [Nat.mod_add_mod, Nat.add_assoc]

theorem place_pos_pos {e : ℕ} (hde : d ≤ e) (he : e < n) :
    place n (pos n b d) (pos n b e) = e - d := by
  have hn : 0 < n := by omega
  have hpos : pos n b e = pos n (pos n b d) (e - d) := by
    rw [pos_pos, Nat.add_sub_cancel' hde]
  rw [hpos, place_pos (pos_lt hn b d) (by omega)]

/-- Two rows that meet have also met at an earlier place. -/
theorem pos_sub {h m : ℕ} (hi : i < n) (hmd : m ≤ d) (heq : pos n h d = pos n i m) :
    pos n h (d - m) = i := by
  have hmod : (h + (d - m) + m) % n = (i + m) % n := by
    rw [Nat.add_assoc, Nat.sub_add_cancel hmd]
    exact heq
  have hcancel : (h + (d - m)) % n = i % n := Nat.ModEq.add_right_cancel' m hmod
  rwa [Nat.mod_eq_of_lt hi] at hcancel

variable {α : Type*} {home : α → ℕ} {slot slot' : ℕ → Option α} {x : α} {g e : ℕ}

/-- Slot `i` is reached from the slot `h` through occupied slots. -/
def Reached (n : ℕ) (slot : ℕ → Option α) (h i : ℕ) : Prop :=
  ∃ d < n, pos n h d = i ∧ ∀ e ≤ d, slot (pos n h e) ≠ none

def Placed (n : ℕ) (home : α → ℕ) (slot : ℕ → Option α) : Prop :=
  ∀ i < n, ∀ x, slot i = some x → Reached n slot (home x) i

/-- An entry is put into the first empty slot from its home on. -/
theorem Placed.insert (h : Placed n home slot) (hd : d < n)
    (hocc : ∀ e < d, slot (pos n (home x) e) ≠ none)
    (hslot : ∀ j, slot' j = if j = pos n (home x) d then some x else slot j) :
    Placed n home slot' := by
  have hkept : ∀ j, slot j ≠ none → slot' j ≠ none := by
    intro j hj
    rw [hslot]
    split_ifs
    · exact Option.some_ne_none x
    · exact hj
  intro i hi y hy
  rw [hslot] at hy
  split_ifs at hy with hid
  · cases hy
    refine ⟨d, hd, hid.symm, ?_⟩
    intro e he
    rcases Nat.eq_or_lt_of_le he with rfl | hlt
    · rw [hslot, if_pos rfl]
      exact Option.some_ne_none x
    · exact hkept _ (hocc e hlt)
  · obtain ⟨q, hq, hpos, hreach⟩ := h i hi y hy
    exact ⟨q, hq, hpos, fun e he => hkept _ (hreach e he)⟩

/-- In a row, an entry stands at its home or behind it, and no slot between is empty. -/
def InRow (n b : ℕ) (home : α → ℕ) (slot : ℕ → Option α) (x : α) (d : ℕ) : Prop :=
  place n b (home x) ≤ d ∧ ∀ e, place n b (home x) ≤ e → e ≤ d → slot (pos n b e) ≠ none

theorem Placed.inRow (h : Placed n home slot) (hb : b < n) (hhome : ∀ x, home x < n)
    (hlast : slot (pos n b (n - 1)) = none) (hd : d < n) (hx : slot (pos n b d) = some x) :
    InRow n b home slot x d := by
  have hn : 0 < n := by omega
  obtain ⟨q, hq, hpos, hocc⟩ := h _ (pos_lt hn b d) x hx
  have hrow : ∀ r, pos n (home x) r = pos n b (place n b (home x) + r) := by
    intro r
    rw [← pos_pos, pos_place hb (hhome x)]
  -- the way from the home to the entry does not pass the empty slot at the end
  have hlt : place n b (home x) + q < n := by
    by_contra hge
    have hp := place_lt hn b (home x)
    have := hocc (n - 1 - place n b (home x)) (by omega)
    rw [hrow, show place n b (home x) + (n - 1 - place n b (home x)) = n - 1 by omega] at this
    exact this hlast
  rw [hrow] at hpos
  have hdq := pos_inj hb hlt hd hpos
  constructor
  · omega
  · intro e he hed
    have := hocc (e - place n b (home x)) (by omega)
    rwa [hrow, show place n b (home x) + (e - place n b (home x)) = e by omega] at this

theorem placed_of_inRow (hb : b < n) (hhome : ∀ x, home x < n)
    (h : ∀ d < n, ∀ x, slot (pos n b d) = some x → InRow n b home slot x d) :
    Placed n home slot := by
  intro i hi x hx
  have hn : 0 < n := by omega
  have hd := place_lt hn b i
  obtain ⟨hle, hocc⟩ := h (place n b i) hd x (by rwa [pos_place hb hi])
  have hrow : ∀ r, pos n (home x) r = pos n b (place n b (home x) + r) := by
    intro r
    rw [← pos_pos, pos_place hb (hhome x)]
  refine ⟨place n b i - place n b (home x), by omega, ?_, ?_⟩
  · rw [hrow, Nat.add_sub_cancel' hle, pos_place hb hi]
  · intro e he
    rw [hrow]
    exact hocc _ (by omega) (by omega)

/-- The gap is at place `g`, and the entries before place `e` have been dealt with: those
that still need the gap filled stand at `e` or behind. -/
structure Shifting (n b : ℕ) (home : α → ℕ) (slot : ℕ → Option α) (g e : ℕ) : Prop where
  gap : slot (pos n b g) = none
  lt : g < e
  last : slot (pos n b (n - 1)) = none
  home_le : ∀ d < n, ∀ x, slot (pos n b d) = some x → place n b (home x) ≤ d
  filled : ∀ d < n, ∀ x, slot (pos n b d) = some x →
    ∀ f, place n b (home x) ≤ f → f ≤ d → f ≠ g → slot (pos n b f) ≠ none
  ahead : ∀ d < n, ∀ x, slot (pos n b d) = some x → place n b (home x) ≤ g → g < d → e ≤ d

theorem Shifting.stay (h : Shifting n b home slot g e) (hx : slot (pos n b e) = some x)
    (hhome : g < place n b (home x)) : Shifting n b home slot g (e + 1) := by
  refine ⟨h.gap, Nat.lt_succ_of_lt h.lt, h.last, h.home_le, h.filled, ?_⟩
  intro d hd y hy hyg hgd
  have hed := h.ahead d hd y hy hyg hgd
  rcases Nat.eq_or_lt_of_le hed with rfl | hlt
  · cases hx.symm.trans hy
    omega
  · exact hlt

theorem Shifting.move (h : Shifting n b home slot g e) (he : e < n)
    (hx : slot (pos n b e) = some x) (hhome : place n b (home x) ≤ g)
    (hg' : slot' (pos n b g) = some x) (he' : slot' (pos n b e) = none)
    (hold : ∀ d < n, d ≠ g → d ≠ e → slot' (pos n b d) = slot (pos n b d)) :
    Shifting n b home slot' e (e + 1) := by
  have hge := h.lt
  have hen : e ≠ n - 1 := by
    rintro rfl
    rw [h.last] at hx
    cases hx
  have hmoved : ∀ d < n, ∀ y, slot' (pos n b d) = some y →
      (d = g ∧ y = x) ∨ (d ≠ g ∧ d ≠ e ∧ slot (pos n b d) = some y) := by
    intro d hd y hy
    by_cases hdg : d = g
    · subst hdg
      exact Or.inl ⟨rfl, Option.some.inj (hy.symm.trans hg')⟩
    · by_cases hde : d = e
      · subst hde
        rw [he'] at hy
        cases hy
      · exact Or.inr ⟨hdg, hde, (hold d hd hdg hde).symm.trans hy⟩
  have hocc : ∀ f < n, f ≠ e → f = g ∨ slot (pos n b f) ≠ none → slot' (pos n b f) ≠ none := by
    intro f hf hfe hor
    by_cases hfg : f = g
    · rw [hfg, hg']
      exact Option.some_ne_none x
    · rw [hold f hf hfg hfe]
      exact hor.resolve_left hfg
  refine ⟨he', Nat.lt_succ_self e, ?_, ?_, ?_, ?_⟩
  · rw [hold (n - 1) (by omega) (by omega) (Ne.symm hen), h.last]
  · intro d hd y hy
    rcases hmoved d hd y hy with ⟨rfl, rfl⟩ | ⟨-, -, hy⟩
    · exact hhome
    · exact h.home_le d hd y hy
  · intro d hd y hy f hf hfd hfe
    rcases hmoved d hd y hy with ⟨rfl, rfl⟩ | ⟨-, -, hy⟩
    · apply hocc f (by omega) hfe
      by_cases hfg : f = d
      · exact Or.inl hfg
      · exact Or.inr (h.filled e he y hx f hf (by omega) hfg)
    · apply hocc f (by omega) hfe
      by_cases hfg : f = g
      · exact Or.inl hfg
      · exact Or.inr (h.filled d hd y hy f hf hfd hfg)
  · intro d hd y hy _ hed
    exact hed

/-- Behind the last entry of the run the gap can stay. -/
theorem Shifting.placed (h : Shifting n b home slot g e) (hb : b < n) (hhome : ∀ x, home x < n)
    (he : slot (pos n b e) = none) : Placed n home slot := by
  apply placed_of_inRow hb hhome
  intro d hd x hx
  refine ⟨h.home_le d hd x hx, ?_⟩
  intro f hf hfd
  by_cases hfg : f = g
  · subst hfg
    have hdf : d ≠ f := by
      rintro rfl
      rw [h.gap] at hx
      cases hx
    have hed := h.ahead d hd x hx hf (by omega)
    exact absurd he (h.filled d hd x hx e (hf.trans h.lt.le) hed h.lt.ne')
  · exact h.filled d hd x hx f hf hfd hfg

theorem shifting_start (h : Placed n home slot) (hb : b < n) (hhome : ∀ x, home x < n)
    (hlast : slot (pos n b (n - 1)) = none) (hg : g < n)
    (hgap : slot' (pos n b g) = none)
    (hold : ∀ d < n, d ≠ g → slot' (pos n b d) = slot (pos n b d)) :
    Shifting n b home slot' g (g + 1) := by
  have hn : 0 < n := by omega
  have hkept : ∀ d < n, ∀ x, slot' (pos n b d) = some x → InRow n b home slot x d := by
    intro d hd x hx
    by_cases hdg : d = g
    · subst hdg
      rw [hgap] at hx
      cases hx
    · exact h.inRow hb hhome hlast hd ((hold d hd hdg).symm.trans hx)
  refine ⟨hgap, Nat.lt_succ_self g, ?_, ?_, ?_, ?_⟩
  · by_cases hgn : n - 1 = g
    · rw [hgn, hgap]
    · rw [hold (n - 1) (by omega) hgn, hlast]
  · intro d hd x hx
    exact (hkept d hd x hx).1
  · intro d hd x hx f hf hfd hfg
    rw [hold f (by omega) hfg]
    exact (hkept d hd x hx).2 f hf hfd
  · intro d _ x _ _ hgd
    exact hgd

end PowerLawRocksdb.LinearProbing
