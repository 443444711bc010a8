import PowerLawRocksdb.HashMapContract
import PowerLawRocksdb.LinkedSpaceSaving

/-!
# Monitored elements in the table

The linked tracker with its real table. As long as each removal finds the entries
behind the gap near enough for its folded distances, the table has every nonzero
element of a child, with the child as its value. With at most 16 counters the
table is so large that this is always the case.
-/
namespace PowerLawRocksdb.LinkedTracker
open HashMapSS LinearProbing
open SpaceSaving (Key)

variable {s : State HashMapSS} {gs : List Group} {c n : ℕ} {e : Key}

/-- Every nonzero element of a child is found, and the value at its index is the child. -/
def Found (s : State HashMapSS) : Prop :=
  ∀ x < s.children.length, s.element x ≠ 0 →
    ∃ i, s.map.find (s.element x) = some (some i) ∧ s.map.valueAt i = some x

/-- If `Process` has to evict, the run behind the slot that `Remove` empties is near. -/
def RemovesNear (s : State HashMapSS) (e : Key) : Prop :=
  (∀ x < s.children.length, s.element x ≠ e) →
    ∀ k ∈ s.victim, ∀ i ∈ s.map.search k, s.map.Near i

theorem Sound.found (hs : Sound (contract n) c s gs) : Found s := by
  intro x hx h0
  obtain ⟨f, hf, hidx⟩ := hs.indexed
  rw [hs.length] at hx
  obtain ⟨i, -, hfind, -, hvalue⟩ := Holds.find_some hf ((hidx _ x).mpr ⟨h0, hx, rfl⟩)
  exact ⟨i, hfind, hvalue⟩

theorem Sound.processNear (hs : Sound (contract n) c s gs) (hc : 0 < c) (hn : c < n - 1)
    (he : e ≠ 0) (hnear : RemovesNear s e) :
    ∃ s' gs', s.process hashMap e = some s' ∧ Sound (contract n) c s' gs' := by
  obtain ⟨s', gs', hstep, hs', -⟩ := hs.process hc hn he (by
    intro hnew k hk i hi
    exact hnear (hs.length.symm ▸ hnew) k hk i hi)
  exact ⟨s', gs', hstep, hs'⟩

theorem Sound.runNear (hs : Sound (contract n) c s gs) (hc : 0 < c) (hn : c < n - 1)
    {xs : List Key} (h0 : ∀ x ∈ xs, x ≠ 0)
    (hnear : Transitions.Along (State.process hashMap) RemovesNear s xs) :
    (∃ s', Transitions.run (State.process hashMap) s xs = some s') ∧
      Transitions.Throughout (State.process hashMap) Found s xs := by
  apply Transitions.run_defined (I := fun s => ∃ gs, Sound (contract n) c s gs)
    (C := fun s x => x ≠ 0 ∧ RemovesNear s x)
  · rintro s x ⟨gs, hs⟩ ⟨hx, hx'⟩
    obtain ⟨s', gs', hstep, hs'⟩ := hs.processNear hc hn hx hx'
    exact ⟨s', hstep, gs', hs'⟩
  · rintro s ⟨gs, hs⟩
    exact hs.found
  · exact ⟨gs, hs⟩
  · exact (Transitions.along_of_forall h0 s).and hnear

theorem Sound.removesNear (hs : Sound (contract n) c s gs) (hc : 0 < c) (hn : c < n - 1)
    (hfew : c ≤ n - n / 2) (e : Key) : RemovesNear s e := by
  intro _ k hk i hi
  obtain ⟨f, hf, hidx⟩ := hs.indexed
  have hholds : Holds n s.map f := hf
  obtain ⟨g, bs, p, q, m, rfl, -, -, -, hq, hm, hvictim⟩ := hs.exists_first hc
  have hqc := hs.lt_of_mem List.mem_cons_self hq
  have hkq : k = s.element q := by
    rw [State.element_eq hm]
    exact Option.some.inj (hk.symm.trans hvictim)
  have hkey : k ≠ 0 → f k ≠ none := by
    intro h0
    rw [(hidx k q).mpr ⟨h0, hqc, hkq.symm⟩]
    exact Option.some_ne_none q
  obtain ⟨j, hj, hsearch, hjk⟩ := hholds.search_eq (hholds.some_empty (hidx.fits hn)) hkey
  obtain rfl := Option.some.inj (hsearch.symm.trans hi)
  have hS : ∀ k, f k ≠ none → k ∈ (Finset.range c).image s.element := by
    intro k hk
    obtain ⟨x, hx⟩ := Option.ne_none_iff_exists'.mp hk
    obtain ⟨-, hxc, hxk⟩ := (hidx k x).mp hx
    exact Finset.mem_image.mpr ⟨x, Finset.mem_range.mpr hxc, hxk⟩
  have hcard : ((Finset.range c).image s.element).card ≤ n - n / 2 :=
    (Finset.card_image_le.trans (Finset.card_range c).le).trans hfew
  apply hholds.near hS hcard hj
  rw [hjk, hkq]
  exact Finset.mem_image_of_mem _ (Finset.mem_range.mpr hqc)

theorem Sound.alongNear (hs : Sound (contract n) c s gs) (hc : 0 < c) (hn : c < n - 1)
    (hfew : c ≤ n - n / 2) {xs : List Key} (h0 : ∀ x ∈ xs, x ≠ 0) :
    Transitions.Along (State.process hashMap) RemovesNear s xs := by
  apply Transitions.Along.imp (I := fun s => ∃ gs, Sound (contract n) c s gs)
    (C := fun _ x => x ≠ 0)
  · rintro s x t ⟨gs, hs⟩ hx ht
    obtain ⟨s₁, gs₁, hstep, hs₁⟩ := hs.processNear hc hn hx (hs.removesNear hc hn hfew x)
    cases hstep.symm.trans ht
    exact ⟨gs₁, hs₁⟩
  · rintro s x ⟨gs, hs⟩ _
    exact hs.removesNear hc hn hfew x
  · exact ⟨gs, hs⟩
  · exact Transitions.along_of_forall h0 s

theorem init_tracker (hc : 1 ≤ c) :
    ∃ s g, State.init (HashMapSS.init c) c = some s ∧
      Sound (contract (10 + 4 * c / 3)) c s [g] := by
  have hempty : (contract (10 + 4 * c / 3)).Holds (HashMapSS.init c) fun _ => none := holds_init c
  obtain ⟨s, g, hinit, hs, -⟩ := init_sound hc hempty
  exact ⟨s, g, hinit, hs⟩

/-- In every run in which each eviction finds a near run, every call returns and leaves all
nonzero elements in the table. -/
theorem found_throughout (hc : 1 ≤ c) {xs : List Key} (h0 : ∀ x ∈ xs, x ≠ 0) :
    ∃ s₀, State.init (HashMapSS.init c) c = some s₀ ∧
      (Transitions.Along (State.process hashMap) RemovesNear s₀ xs →
        (∃ s, Transitions.run (State.process hashMap) s₀ xs = some s) ∧
          Transitions.Throughout (State.process hashMap) Found s₀ xs) := by
  obtain ⟨s₀, g, hinit, hs₀⟩ := init_tracker hc
  exact ⟨s₀, hinit, hs₀.runNear hc (by omega) h0⟩

theorem found_few_counters (hc : 1 ≤ c) (hfew : c ≤ 16) {xs : List Key} (h0 : ∀ x ∈ xs, x ≠ 0) :
    ∃ s₀, State.init (HashMapSS.init c) c = some s₀ ∧
      Transitions.Throughout (State.process hashMap) Found s₀ xs := by
  obtain ⟨s₀, g, hinit, hs₀⟩ := init_tracker hc
  have hnear := hs₀.alongNear hc (by omega) (by omega) h0
  exact ⟨s₀, hinit, (hs₀.runNear hc (by omega) h0 hnear).2⟩

/-- Two counters and three elements, so that one is evicted. -/
theorem found_throughout_evicting :
    ∃ s₀ s, State.init (HashMapSS.init 2) 2 = some s₀ ∧
      Transitions.run (State.process hashMap) s₀ [5, 7, 9] = some s ∧
      Transitions.Throughout (State.process hashMap) Found s₀ [5, 7, 9] := by
  have h0 : ∀ x ∈ ([5, 7, 9] : List Key), x ≠ 0 := by simp
  obtain ⟨s₀, hinit, hfound⟩ := found_throughout (c := 2) (by decide) h0
  obtain ⟨s₁, g, hinit', hs₁⟩ := init_tracker (c := 2) (by decide)
  cases hinit.symm.trans hinit'
  obtain ⟨⟨s, hrun⟩, hthrough⟩ :=
    hfound (hs₁.alongNear (by decide) (by decide) (by decide) h0)
  exact ⟨s₀, s, hinit, hrun, hthrough⟩

/-- The 20 counters of `WalManager` and the elements 1 to 20. The last call removes the
sentinel at slot 0, and the run behind it ends with the element 19 in its home slot. Its
distance 19 is folded to -17, so it is moved to slot 0, where it is not found any more. -/
theorem monitored_lost :
    ∃ s₀ s, State.init (HashMapSS.init 20) 20 = some s₀ ∧
      Transitions.run (State.process hashMap) s₀
        [1, 2, 3, 4, 5, 6, 7, 8, 9, 10, 11, 12, 13, 14, 15, 16, 17, 18, 19, 20] = some s ∧
      s.element 18 = 19 ∧ s.map.find 19 = some none := by
  have hrun : ((State.init (HashMapSS.init 20) 20).bind fun s₀ =>
      (Transitions.run (State.process hashMap) s₀
        [1, 2, 3, 4, 5, 6, 7, 8, 9, 10, 11, 12, 13, 14, 15, 16, 17, 18, 19, 20]).map fun s =>
          (s.element 18, s.map.find 19)) = some (19, some none) := by
    decide +kernel
  obtain ⟨s₀, hinit, hs⟩ := Option.bind_eq_some_iff.mp hrun
  obtain ⟨s, hs, heq⟩ := Option.map_eq_some_iff.mp hs
  exact ⟨s₀, s, hinit, hs, congrArg Prod.fst heq, congrArg Prod.snd heq⟩

end PowerLawRocksdb.LinkedTracker
