import Mathlib.Algebra.Order.BigOperators.Group.Multiset
import Mathlib.Data.Multiset.Bind
import Mathlib.Data.Finset.Card
import Mathlib.Tactic.Linarith

/-!
# Bounded counter summaries of a stream

A summary monitors at most `m` keys of a stream and keeps one counter for each.
A monitored key increments its own counter. A new key takes a free counter while
there is one; after that it takes over a minimal counter and increments it. Which
of several minimal counters is taken is left open, so every implementation of the
scheme makes a step of this relation.

`Tracks` collects what such a summary knows about the stream that built it. All
of it is preserved by one step, and it gives the error bounds and the bound on
the number of heavy keys.
-/
namespace PowerLawRocksdb.CounterSummary

variable {K : Type*}

abbrev Summary (K : Type*) := Multiset (K × ℕ)

def keys (S : Summary K) : Multiset K := S.map Prod.fst

def total (S : Summary K) : ℕ := (S.map Prod.snd).sum

@[simp] theorem keys_cons (p : K × ℕ) (S : Summary K) : keys (p ::ₘ S) = p.1 ::ₘ keys S :=
  Multiset.map_cons ..
@[simp] theorem card_keys (S : Summary K) : (keys S).card = S.card := Multiset.card_map ..
@[simp] theorem total_cons (p : K × ℕ) (S : Summary K) : total (p ::ₘ S) = p.2 + total S := by
  simp [total]

theorem mem_keys_of_mem {S : Summary K} {p : K × ℕ} (h : p ∈ S) : p.1 ∈ keys S :=
  Multiset.mem_map_of_mem Prod.fst h

theorem mem_keys {S : Summary K} {x : K} : x ∈ keys S ↔ ∃ c, (x, c) ∈ S := by
  simp [keys]

theorem seen_cons {xs : List K} {x : K} {d : ℕ} {S : Summary K} (h : ∀ p ∈ S, p.1 ∈ xs) :
    ∀ p ∈ (x, d) ::ₘ S, p.1 ∈ xs ++ [x] := by
  intro p hp
  rcases Multiset.mem_cons.mp hp with rfl | hp
  · exact List.mem_append_right _ (List.mem_singleton_self x)
  · exact List.mem_append_left _ (h p hp)

/-- One arrival of `x`. The three forms exclude each other. -/
inductive Step (m : ℕ) (x : K) : Summary K → Summary K → Prop
  | hit (c : ℕ) (S : Summary K) : Step m x ((x, c) ::ₘ S) ((x, c + 1) ::ₘ S)
  | add (S : Summary K) : x ∉ keys S → S.card < m → Step m x S ((x, 1) ::ₘ S)
  | replace (y : K) (c : ℕ) (S : Summary K) : x ∉ keys ((y, c) ::ₘ S) →
      ((y, c) ::ₘ S).card = m → (∀ q ∈ S, c ≤ q.2) →
      Step m x ((y, c) ::ₘ S) ((x, c + 1) ::ₘ S)

theorem Step.total {m : ℕ} {x : K} {S T : Summary K} (h : Step m x S T) :
    CounterSummary.total T = CounterSummary.total S + 1 := by
  cases h with
  | hit c S => simp only [total_cons]; omega
  | add S _ _ => simp only [total_cons]; omega
  | replace y c S _ _ _ => simp only [total_cons]; omega

theorem card_mul_le_total {S : Summary K} {c : ℕ} (h : ∀ q ∈ S, c ≤ q.2) :
    S.card * c ≤ total S := by
  have := Multiset.card_nsmul_le_sum (s := S.map Prod.snd) (a := c) (by
    intro d hd
    obtain ⟨q, hq, rfl⟩ := Multiset.mem_map.mp hd
    exact h q hq)
  simpa [total] using this

theorem le_total {S : Summary K} {p : K × ℕ} (h : p ∈ S) : p.2 ≤ total S :=
  Multiset.single_le_sum (fun _ _ => Nat.zero_le _) _ (Multiset.mem_map_of_mem Prod.snd h)

theorem total_mono {S T : Summary K} (h : T ≤ S) : total T ≤ total S := by
  obtain ⟨U, rfl⟩ := Multiset.le_iff_exists_add.mp h
  simp [total]

/-- At most `k` counters can each hold more than a `k + 1`-th of the total. -/
theorem card_heavy_le {S T : Summary K} {k : ℕ} (hT : T ≤ S)
    (h : ∀ p ∈ T, total S < p.2 * (k + 1)) : T.card ≤ k := by
  by_contra hk
  have hle := total_mono hT
  obtain ⟨p, hp⟩ := Multiset.card_pos_iff_exists_mem.mp (show 0 < T.card by omega)
  have hmin : ∀ q ∈ T, total S / (k + 1) + 1 ≤ q.2 := fun q hq =>
    (Nat.div_lt_iff_lt_mul (Nat.succ_pos k)).mpr (h q hq)
  have hsum := card_mul_le_total hmin
  have hdiv : total S < (k + 1) * (total S / (k + 1) + 1) := Nat.lt_mul_div_succ _ (Nat.succ_pos k)
  have hcard := Nat.mul_le_mul_right (total S / (k + 1) + 1) (show k + 1 ≤ T.card by omega)
  omega

variable [DecidableEq K]

/-- What the summary `S` with capacity `m` knows about the stream `xs`. -/
structure Tracks (m : ℕ) (xs : List K) (S : Summary K) : Prop where
  card_le : S.card ≤ m
  nodup : (keys S).Nodup
  total_eq : total S = xs.length
  seen : ∀ p ∈ S, p.1 ∈ xs
  covers : S.card < m → ∀ x ∈ xs, x ∈ keys S
  exact : xs.toFinset.card ≤ m → ∀ p ∈ S, p.2 = xs.count p.1
  lower : ∀ p ∈ S, xs.count p.1 ≤ p.2
  upper : ∀ p ∈ S, ∀ q ∈ S, p.2 ≤ xs.count p.1 + q.2
  missed : ∀ x ∉ keys S, ∀ q ∈ S, xs.count x ≤ q.2

theorem Tracks.empty (m : ℕ) : Tracks m ([] : List K) 0 where
  card_le := Nat.zero_le m
  nodup := Multiset.nodup_zero
  total_eq := rfl
  seen := by simp
  covers := by simp
  exact := by simp
  lower := by simp
  upper := by simp
  missed := by simp

theorem Tracks.keys_subset {m : ℕ} {xs : List K} {S : Summary K} (h : Tracks m xs S) :
    (keys S).toFinset ⊆ xs.toFinset := by
  intro x hx
  obtain ⟨c, hc⟩ := mem_keys.mp (Multiset.mem_toFinset.mp hx)
  exact List.mem_toFinset.mpr (h.seen _ hc)

theorem Tracks.keys_le {m : ℕ} {xs : List K} {S : Summary K} (h : Tracks m xs S) :
    S.card ≤ xs.toFinset.card := by
  calc S.card = (keys S).toFinset.card := by
        rw [Multiset.toFinset_card_of_nodup h.nodup, card_keys]
    _ ≤ xs.toFinset.card := Finset.card_le_card h.keys_subset

/-- The summary holds all distinct keys, or as many as it has room for. -/
theorem Tracks.card_eq {m : ℕ} {xs : List K} {S : Summary K} (h : Tracks m xs S) :
    S.card = min xs.toFinset.card m := by
  have hle := h.keys_le
  rcases Nat.lt_or_eq_of_le h.card_le with hlt | heq
  · have hsub : xs.toFinset ⊆ (keys S).toFinset := fun x hx =>
      Multiset.mem_toFinset.mpr (h.covers hlt x (List.mem_toFinset.mp hx))
    have hge := Finset.card_le_card hsub
    rw [Multiset.toFinset_card_of_nodup h.nodup, card_keys] at hge
    omega
  · omega

theorem Tracks.mem_keys_of_le {m : ℕ} {xs : List K} {S : Summary K} (h : Tracks m xs S)
    (hm : xs.toFinset.card ≤ m) {x : K} (hx : x ∈ xs) : x ∈ keys S := by
  have hcard : xs.toFinset.card ≤ (keys S).toFinset.card := by
    rw [Multiset.toFinset_card_of_nodup h.nodup, card_keys, h.card_eq, min_eq_left hm]
  have heq := Finset.eq_of_subset_of_card_le h.keys_subset hcard
  exact Multiset.mem_toFinset.mp (heq ▸ List.mem_toFinset.mpr hx)

/-- While a counter is free, the monitored keys are the keys of the stream. -/
theorem Tracks.distinct_eq {m : ℕ} {xs : List K} {S : Summary K} (h : Tracks m xs S)
    (hm : S.card < m) : xs.toFinset.card = S.card := by
  refine le_antisymm ?_ h.keys_le
  rw [← card_keys S, ← Multiset.toFinset_card_of_nodup h.nodup]
  refine Finset.card_le_card fun x hx => ?_
  exact Multiset.mem_toFinset.mpr (h.covers hm x (List.mem_toFinset.mp hx))

private theorem count_concat (xs : List K) (x y : K) :
    (xs ++ [x]).count y = xs.count y + if x = y then 1 else 0 := by
  rw [List.count_append, List.count_singleton]
  simp only [beq_iff_eq]

private theorem distinct_mono (xs : List K) (x : K) :
    xs.toFinset.card ≤ (xs ++ [x]).toFinset.card :=
  Finset.card_le_card fun y hy => by
    simp only [List.mem_toFinset, List.mem_append] at hy ⊢
    exact Or.inl hy

theorem count_self (xs : List K) (x : K) : (xs ++ [x]).count x = xs.count x + 1 := by
  rw [count_concat, if_pos rfl]

/-- The arrival of a key that `S` does not monitor leaves the frequencies of `S`. -/
theorem count_monitored {x : K} {S : Summary K} (hx : x ∉ keys S) (xs : List K) :
    ∀ p ∈ S, (xs ++ [x]).count p.1 = xs.count p.1 := by
  intro p hp
  have hne : x ≠ p.1 := fun he => hx (he ▸ mem_keys_of_mem hp)
  rw [count_concat, if_neg hne, Nat.add_zero]

theorem lower_cons {xs : List K} {x : K} {c : ℕ} {S : Summary K} (hx : x ∉ keys S)
    (hc : xs.count x ≤ c) (h : ∀ p ∈ S, xs.count p.1 ≤ p.2) :
    ∀ p ∈ (x, c + 1) ::ₘ S, (xs ++ [x]).count p.1 ≤ p.2 := by
  intro p hp
  rcases Multiset.mem_cons.mp hp with rfl | hp
  · rw [count_self]
    exact Nat.succ_le_succ hc
  · rw [count_monitored hx xs p hp]
    exact h p hp

/-- A key that is not monitored is distinct from all the keys that are. -/
theorem Tracks.lt_distinct {m : ℕ} {xs : List K} {x : K} {S : Summary K} (h : Tracks m xs S)
    (hx : x ∉ keys S) : S.card < (xs ++ [x]).toFinset.card := by
  have hsub : insert x (keys S).toFinset ⊆ (xs ++ [x]).toFinset := by
    intro z hz
    rw [List.mem_toFinset, List.mem_append, List.mem_singleton]
    rcases Finset.mem_insert.mp hz with rfl | hz
    · exact Or.inr rfl
    · obtain ⟨d, hzd⟩ := mem_keys.mp (Multiset.mem_toFinset.mp hz)
      exact Or.inl (h.seen _ hzd)
  have hcard := Finset.card_le_card hsub
  rwa [Finset.card_insert_of_notMem fun hx' => hx (Multiset.mem_toFinset.mp hx'),
    Multiset.toFinset_card_of_nodup h.nodup, card_keys] at hcard

theorem Tracks.hit {m : ℕ} {xs : List K} {x : K} {c : ℕ} {S : Summary K}
    (h : Tracks m xs ((x, c) ::ₘ S)) : Tracks m (xs ++ [x]) ((x, c + 1) ::ₘ S) := by
  have hx : x ∉ keys S := by
    have := h.nodup
    rw [keys_cons, Multiset.nodup_cons] at this
    exact this.1
  have hold := count_monitored hx xs
  have hself : (x, c) ∈ (x, c) ::ₘ S := Multiset.mem_cons_self ..
  -- the counter of `x` only grew, so bounds by the old counters still hold
  have hgrow : ∀ q ∈ (x, c + 1) ::ₘ S, ∃ p ∈ (x, c) ::ₘ S, p.2 ≤ q.2 := by
    intro q hq
    rcases Multiset.mem_cons.mp hq with rfl | hq
    · exact ⟨(x, c), hself, Nat.le_succ c⟩
    · exact ⟨q, Multiset.mem_cons_of_mem hq, le_rfl⟩
  refine ⟨?_, ?_, ?_, seen_cons fun p hp => h.seen p (Multiset.mem_cons_of_mem hp), ?_, ?_,
    lower_cons hx (h.lower _ hself) fun p hp => h.lower p (Multiset.mem_cons_of_mem hp), ?_, ?_⟩
  · simpa using h.card_le
  · simpa using h.nodup
  · have := h.total_eq
    simp only [total_cons, List.length_append, List.length_singleton] at this ⊢
    omega
  · intro hm y hy
    rcases List.mem_append.mp hy with hy | hy
    · simpa using h.covers (by simpa using hm) y hy
    · simp [List.mem_singleton.mp hy]
  · intro hd p hp
    have he := h.exact ((distinct_mono xs x).trans hd)
    rcases Multiset.mem_cons.mp hp with rfl | hp
    · rw [count_self xs x, ← he _ hself]
    · rw [hold p hp, he p (Multiset.mem_cons_of_mem hp)]
  · intro p hp q hq
    obtain ⟨r, hr, hrq⟩ := hgrow q hq
    rcases Multiset.mem_cons.mp hp with rfl | hp
    · have : c ≤ xs.count x + r.2 := h.upper _ hself r hr
      rw [count_self xs x]
      omega
    · have := h.upper p (Multiset.mem_cons_of_mem hp) r hr
      rw [hold p hp]
      omega
  · intro y hy q hq
    obtain ⟨r, hr, hrq⟩ := hgrow q hq
    have hxy : x ≠ y := fun he => hy (by simp [he])
    rw [count_concat, if_neg hxy, Nat.add_zero]
    exact (h.missed y (by simpa using hy) r hr).trans hrq

theorem Tracks.add {m : ℕ} {xs : List K} {x : K} {S : Summary K} (h : Tracks m xs S)
    (hx : x ∉ keys S) (hm : S.card < m) : Tracks m (xs ++ [x]) ((x, 1) ::ₘ S) := by
  have hxs : x ∉ xs := fun hx' => hx (h.covers hm x hx')
  have hexact := h.exact ((h.distinct_eq hm).trans_le hm.le)
  -- no key has been replaced yet, so every counter is exact
  have hall : ∀ p ∈ (x, 1) ::ₘ S, p.2 = (xs ++ [x]).count p.1 := by
    intro p hp
    rcases Multiset.mem_cons.mp hp with rfl | hp
    · rw [count_self, List.count_eq_zero_of_not_mem hxs]
    · rw [count_monitored hx xs p hp, hexact p hp]
  have hcover : ∀ y ∈ xs ++ [x], y ∈ keys ((x, 1) ::ₘ S) := by
    intro y hy
    rcases List.mem_append.mp hy with hy | hy
    · rw [keys_cons]
      exact Multiset.mem_cons_of_mem (h.covers hm y hy)
    · simp [List.mem_singleton.mp hy]
  refine ⟨?_, ?_, ?_, seen_cons h.seen, fun _ => hcover, fun _ => hall,
    fun p hp => (hall p hp).ge, ?_, ?_⟩
  · rw [Multiset.card_cons]
    exact hm
  · simpa using ⟨hx, h.nodup⟩
  · simp [h.total_eq, Nat.add_comm]
  · intro p hp q _
    have := hall p hp
    omega
  · intro y hy q _
    rw [List.count_eq_zero_of_not_mem fun hy' => hy (hcover y hy')]
    exact Nat.zero_le _

theorem Tracks.replace {m : ℕ} {xs : List K} {x y : K} {c : ℕ} {S : Summary K}
    (h : Tracks m xs ((y, c) ::ₘ S)) (hx : x ∉ keys ((y, c) ::ₘ S))
    (hm : ((y, c) ::ₘ S).card = m) (hmin : ∀ q ∈ S, c ≤ q.2) :
    Tracks m (xs ++ [x]) ((x, c + 1) ::ₘ S) := by
  have hyS : (y, c) ∈ (y, c) ::ₘ S := Multiset.mem_cons_self ..
  have hxS : x ∉ keys S := fun hx' => hx (by simp [hx'])
  have hxc : xs.count x ≤ c := h.missed x hx _ hyS
  have hmin' : ∀ q ∈ (x, c + 1) ::ₘ S, c ≤ q.2 := by
    intro q hq
    rcases Multiset.mem_cons.mp hq with rfl | hq
    · exact Nat.le_succ c
    · exact hmin q hq
  refine ⟨?_, ?_, ?_, seen_cons fun p hp => h.seen p (Multiset.mem_cons_of_mem hp), ?_, ?_,
    lower_cons hxS hxc fun p hp => h.lower p (Multiset.mem_cons_of_mem hp), ?_, ?_⟩
  · simpa using h.card_le
  · have := h.nodup
    rw [keys_cons, Multiset.nodup_cons] at this ⊢
    exact ⟨hxS, this.2⟩
  · have := h.total_eq
    simp only [total_cons, List.length_append, List.length_singleton] at this ⊢
    omega
  · intro hlt
    simp only [Multiset.card_cons] at hm hlt
    omega
  · -- a replacement means that more than `m` distinct keys have arrived
    intro hd
    have hlt := h.lt_distinct hx
    omega
  · intro p hp q hq
    have hq' := hmin' q hq
    rcases Multiset.mem_cons.mp hp with rfl | hp
    · rw [count_self xs x]
      simp only
      omega
    · have := h.upper p (Multiset.mem_cons_of_mem hp) _ hyS
      rw [count_monitored hxS xs p hp]
      simp only at this
      omega
  · intro z hz q hq
    have hxz : x ≠ z := fun he => hz (by simp [he])
    have hzc : xs.count z ≤ c := by
      by_cases hzy : z = y
      · exact hzy ▸ h.lower _ hyS
      · refine h.missed z ?_ _ hyS
        rw [keys_cons, Multiset.mem_cons, not_or] at hz ⊢
        exact ⟨hzy, hz.2⟩
    rw [count_concat, if_neg hxz, Nat.add_zero]
    exact hzc.trans (hmin' q hq)

theorem Step.tracks {m : ℕ} {xs : List K} {x : K} {S T : Summary K} (h : Step m x S T)
    (hS : Tracks m xs S) : Tracks m (xs ++ [x]) T := by
  cases h with
  | hit c S => exact hS.hit
  | add S hx hm => exact hS.add hx hm
  | replace y c S hx hm hmin => exact hS.replace hx hm hmin

end PowerLawRocksdb.CounterSummary
