import PowerLawRocksdb.LinkedShape
import PowerLawRocksdb.CounterSummary

/-!
# Updates of the linked tracker

The table is known by a contract here: what its operations do to the finite map
that it holds. Between two calls of `Process`, the tracker is sound: its nodes have
the shape of nonempty groups, which have all children, and the table holds for each
nonzero element the child that has it. Soundness says nothing about the order of
the counts.

`Increment` raises the count of one pair and leaves all others alone, whatever the
order of the groups is, and it keeps a strictly increasing order.
-/
namespace PowerLawRocksdb.LinkedTracker
open LinkedHeap
open SpaceSaving (Key)

variable {M : Type} {ops : MapOps M} {s s' : State M} {gs as bs : List Group} {g g' h : Group}
  {x y : ChildId} {l : List ChildId} {c capacity : ℕ} {f : Key → Option ChildId} {k : Key}

/-- Fewer than `capacity` keys are in the map. -/
def Fits (capacity : ℕ) (f : Key → Option ChildId) : Prop :=
  ∃ S : Finset Key, (∀ k, f k ≠ none → k ∈ S) ∧ S.card < capacity

/-- What a table promises, as long as it is not full. A removal is only promised where
the key is `Removable`. The sentinel 0 is never in the map, but may be removed. -/
structure MapOps.Contract (ops : MapOps M) (capacity : ℕ) where
  Holds : M → (Key → Option ChildId) → Prop
  Removable : M → Key → Prop
  find_none : ∀ {m f k}, Holds m f → Fits capacity f → k ≠ 0 → f k = none →
    ops.find m k = some none
  find_some : ∀ {m f k x}, Holds m f → Fits capacity f → f k = some x →
    ∃ i, ops.find m k = some (some i) ∧ ops.value m i = some x ∧
      ∀ y, ∃ m', ops.setValue m i y = some m' ∧ Holds m' (Function.update f k (some y))
  insert : ∀ {m f k} (x : ChildId), Holds m f → Fits capacity f → k ≠ 0 → f k = none →
    ∃ m', ops.insert m k x = some m' ∧ Holds m' (Function.update f k (some x))
  remove : ∀ {m f k}, Holds m f → Fits capacity f → (k ≠ 0 → f k ≠ none) → Removable m k →
    ∃ m', ops.remove m k = some m' ∧ Holds m' (Function.update f k none)

/-- The map has the nonzero elements of the first `c` children. -/
def Indexed (f : Key → Option ChildId) (c : ℕ) (element : ChildId → Key) : Prop :=
  ∀ k x, f k = some x ↔ k ≠ 0 ∧ x < c ∧ element x = k

theorem Indexed.fits {element : ChildId → Key} (h : Indexed f c element) (hc : c < capacity) :
    Fits capacity f := by
  refine ⟨(Finset.range c).image element, ?_, ?_⟩
  · intro k hk
    obtain ⟨x, hx⟩ := Option.ne_none_iff_exists'.mp hk
    obtain ⟨-, hlt, he⟩ := (h k x).mp hx
    exact Finset.mem_image.mpr ⟨x, Finset.mem_range.mpr hlt, he⟩
  · calc ((Finset.range c).image element).card
        ≤ (Finset.range c).card := Finset.card_image_le
      _ = c := Finset.card_range c
      _ < capacity := hc

/-- The entry of `k`, if it is not the sentinel, becomes `x`. -/
def reassign (f : Key → Option ChildId) (k : Key) (x : ChildId) : Key → Option ChildId :=
  if k = 0 then f else Function.update f k (some x)

theorem redirect_eq (spec : ops.Contract capacity) {m : M} (hf : spec.Holds m f)
    (hfits : Fits capacity f) (hk : k ≠ 0 → f k ≠ none) (x : ChildId) (t : ℕ) :
    ∃ m' t', redirect ops m k x t = some (m', t') ∧ spec.Holds m' (reassign f k x) := by
  unfold redirect reassign
  by_cases h0 : k = 0
  · rw [if_pos h0, if_pos h0]
    exact ⟨m, t, rfl, hf⟩
  · rw [if_neg h0, if_neg h0]
    obtain ⟨y, hy⟩ := Option.ne_none_iff_exists'.mp (hk h0)
    obtain ⟨i, hi, -, hset⟩ := spec.find_some hf hfits hy
    obtain ⟨m', hm', hholds⟩ := hset x
    exact ⟨m', i, by simp [hi, hm'], hholds⟩

theorem reassign_apply (f : Key → Option ChildId) (e : Key) (x : ChildId) (hk : k ≠ 0) :
    reassign f e x k = if k = e then some x else f k := by
  unfold reassign
  split_ifs with he hke hke
  · exact absurd (hke.trans he) hk
  · rfl
  · rw [hke, Function.update_self]
  · rw [Function.update_of_ne hke]

theorem reassign_zero (f : Key → Option ChildId) (e : Key) (x : ChildId) :
    reassign f e x 0 = f 0 := by
  unfold reassign
  split_ifs with he
  · rfl
  · rw [Function.update_of_ne (Ne.symm he)]

theorem reassign_ne_none {e : Key} (he : e ≠ 0 → f e ≠ none) (x : ChildId) (k : Key) :
    reassign f e x k ≠ none ↔ f k ≠ none := by
  unfold reassign
  split_ifs with h0
  · rfl
  · by_cases hk : k = e
    · subst hk
      simp [he h0]
    · rw [Function.update_of_ne hk]

theorem Indexed.zero {element : ChildId → Key} (h : Indexed f c element) : f 0 = none := by
  by_contra hne
  obtain ⟨x, hx⟩ := Option.ne_none_iff_exists'.mp hne
  exact ((h 0 x).mp hx).1 rfl

theorem reassign_swap {element : ChildId → Key} (h : Indexed f c element) (hx : x < c) (hy : y < c)
    (hk : k ≠ 0) : reassign (reassign f (element y) x) (element x) y k =
      (f k).map (Equiv.swap x y) := by
  rw [reassign_apply _ _ _ hk, reassign_apply _ _ _ hk]
  split_ifs with hkx hky
  · rw [(h k x).mpr ⟨hk, hx, hkx.symm⟩, Option.map_some, Equiv.swap_apply_left]
  · rw [(h k y).mpr ⟨hk, hy, hky.symm⟩, Option.map_some, Equiv.swap_apply_right]
  · cases hf : f k with
    | none => rfl
    | some z =>
        have hz := ((h k z).mp hf).2.2
        rw [Option.map_some, Equiv.swap_apply_of_ne_of_ne]
        · rintro rfl
          exact hkx hz.symm
        · rintro rfl
          exact hky hz.symm

theorem Indexed.swap {element : ChildId → Key} (h : Indexed f c element) (hx : x < c) (hy : y < c) :
    Indexed (reassign (reassign f (element y) x) (element x) y) c
      (fun z => element (Equiv.swap x y z)) := by
  intro k z
  by_cases hk : k = 0
  · rw [hk, reassign_zero, reassign_zero, h.zero]
    simp
  have hlt : ∀ w, w < c → Equiv.swap x y w < c := by
    intro w hw
    rw [Equiv.swap_apply_def]
    split_ifs
    · exact hy
    · exact hx
    · exact hw
  rw [reassign_swap h hx hy hk, Option.map_eq_some_iff]
  constructor
  · rintro ⟨w, hw, rfl⟩
    obtain ⟨-, hwc, he⟩ := (h k w).mp hw
    exact ⟨hk, hlt w hwc, by simpa using he⟩
  · rintro ⟨-, hz, he⟩
    exact ⟨_, (h k _).mpr ⟨hk, hlt z hz, he⟩, Equiv.swap_apply_self x y z⟩

def pairs (element : ChildId → Key) : List Group → Multiset (Key × ℕ)
  | [] => 0
  | g :: gs => (g.ring.toMultiset.map fun x => (element x, g.value)) + pairs element gs

@[simp] theorem pairs_append (element : ChildId → Key) :
    pairs element (as ++ bs) = pairs element as + pairs element bs := by
  induction as with
  | nil => simp [pairs]
  | cons g as ih => simp [pairs, ih, add_assoc]

theorem pairs_congr {element element' : ChildId → Key}
    (h : ∀ x ∈ members gs, element' x = element x) : pairs element' gs = pairs element gs := by
  induction gs with
  | nil => rfl
  | cons g gs ih =>
      unfold members at h
      unfold pairs
      rw [ih fun x hx => h x (Multiset.mem_add.mpr (Or.inr hx))]
      congr 1
      apply Multiset.map_congr rfl
      intro x hx
      rw [h x (Multiset.mem_add.mpr (Or.inl hx))]

/-- The counts of the groups grow from `smallest_` to `largest_`. -/
def Ascending (gs : List Group) : Prop := gs.Pairwise fun a b => a.value < b.value

/-- The tracker between two calls. -/
structure Sound (spec : ops.Contract capacity) (c : ℕ) (s : State M) (gs : List Group) : Prop
    extends Shape s gs where
  full : ∀ g ∈ gs, g.ring ≠ Cycle.nil
  all : members gs = Multiset.range c
  length : s.children.length = c
  indexed : ∃ f, spec.Holds s.map f ∧ Indexed f c s.element

/-- One pair `(e, v)` has its count raised, and the order of the counts is kept. -/
structure Raised (e : Key) (v : ℕ) (s : State M) (gs : List Group) (s' : State M)
    (gs' : List Group) : Prop where
  pairs : ∃ rest, pairs s.element gs = (e, v) ::ₘ rest ∧
    pairs s'.element gs' = (e, SpaceSaving.increment v) ::ₘ rest
  ascending : v + 1 < 2 ^ 64 → Ascending gs → Ascending gs'

theorem members_add (hring : g'.ring.toMultiset = y ::ₘ g.ring.toMultiset) :
    members (as ++ g' :: bs) = y ::ₘ members (as ++ g :: bs) := by
  rw [members_append, members, hring, Multiset.cons_add, Multiset.add_cons, members_append, members]

theorem members_erase (hring : g.ring = ((x :: y :: l : List ChildId) : Cycle ChildId))
    (hring' : g'.ring = ((x :: l : List ChildId) : Cycle ChildId)) :
    members (as ++ g :: bs) = y ::ₘ members (as ++ g' :: bs) := by
  apply members_add
  rw [hring, hring']
  exact Multiset.cons_swap x y l

theorem pairs_add {ring : Cycle ChildId} {p : ParentId} {q : Option ChildId}
    (element : ChildId → Key) (hring : ring.toMultiset = y ::ₘ g.ring.toMultiset) :
    pairs element (as ++ ⟨p, g.value, q, ring⟩ :: bs) =
      (element y, g.value) ::ₘ pairs element (as ++ g :: bs) := by
  rw [pairs_append, pairs, hring, Multiset.map_cons, Multiset.cons_add, Multiset.add_cons,
    pairs_append, pairs]

/-- The child `x` is left out of its group. -/
def Group.without (g : Group) (l : List ChildId) : Group := { g with ring := (l : Cycle ChildId) }

theorem members_without (hring : g.ring = ((x :: l : List ChildId) : Cycle ChildId)) :
    members (as ++ g :: bs) = x ::ₘ members (as ++ g.without l :: bs) := by
  apply members_add
  rw [hring]
  rfl

theorem pairs_without (element : ChildId → Key)
    (hring : g.ring = ((x :: l : List ChildId) : Cycle ChildId)) :
    pairs element (as ++ g :: bs) =
      (element x, g.value) ::ₘ pairs element (as ++ g.without l :: bs) := by
  have hadd : g.ring.toMultiset = x ::ₘ (g.without l).ring.toMultiset := by
    rw [hring]
    rfl
  exact pairs_add element hadd

/-- What `Detach` of `x` leaves behind: the pair of `x` is gone. -/
theorem pairs_swap {element element' : ChildId → Key} (hnodup : (members (as ++ g :: bs)).Nodup)
    (hring : g.ring = ((x :: y :: l : List ChildId) : Cycle ChildId))
    (hring' : g'.ring = ((x :: l : List ChildId) : Cycle ChildId)) (hvalue : g'.value = g.value)
    (hswap : ∀ z, element' z = element (Equiv.swap x y z)) :
    pairs element (as ++ g :: bs) =
      (element x, g.value) ::ₘ pairs element' (as ++ g' :: bs) := by
  have hringy : (g.without (y :: l)).ring = ((y :: l : List ChildId) : Cycle ChildId) := rfl
  rw [members_without hring, members_without hringy, Multiset.nodup_cons, Multiset.nodup_cons]
    at hnodup
  have hrest : pairs element' (as ++ g'.without l :: bs) =
      pairs element (as ++ g.without l :: bs) := by
    have hsame : pairs element' (as ++ g'.without l :: bs) =
        pairs element' (as ++ g.without l :: bs) := by
      simp [pairs, Group.without, hvalue]
    rw [hsame]
    apply pairs_congr
    intro z hz
    rw [hswap, Equiv.swap_apply_of_ne_of_ne]
    · rintro rfl
      exact hnodup.1 (Multiset.mem_cons_of_mem hz)
    · rintro rfl
      exact hnodup.2.1 hz
  rw [pairs_without _ hring, pairs_without _ hringy, pairs_without _ hring', hrest, hswap,
    Equiv.swap_apply_left, hvalue]
  rfl

theorem Sound.detach {spec : ops.Contract capacity} (hc : c < capacity)
    (hs : Sound spec c s (as ++ g :: bs))
    (hring : g.ring = ((x :: y :: l : List ChildId) : Cycle ChildId)) :
    ∃ s' g' n, s.detach ops x = some s' ∧ Shape s' (as ++ g' :: bs) ∧
      g'.ring = ((x :: l : List ChildId) : Cycle ChildId) ∧
      g'.value = g.value ∧ g'.parent = g.parent ∧
      (∃ f, spec.Holds s'.map f ∧ Indexed f c s'.element) ∧
      (∀ z, s'.element z = s.element (Equiv.swap x y z)) ∧
      s'.children.length = c ∧ s'.children.read y = some n ∧ n.parent = some g.parent := by
  obtain ⟨f, hf, hidx⟩ := hs.indexed
  have hlt : ∀ z ∈ x :: y :: l, z < c := by
    intro z hz
    rw [← Multiset.mem_range, ← hs.all]
    exact mem_members.mpr ⟨g, by simp, by rw [hring]; exact hz⟩
  have hx := hlt x (by simp)
  have hy := hlt y (by simp)
  have hkeys : ∀ z < c, s.element z ≠ 0 → f (s.element z) ≠ none := by
    intro z hz h0
    rw [(hidx _ z).mpr ⟨h0, hz, rfl⟩]
    simp
  obtain ⟨S, hS, hcard⟩ := hidx.fits hc
  have hagain := reassign_ne_none (hkeys y hy) x
  obtain ⟨m₁, t₁, h₁, hf₁⟩ :=
    redirect_eq spec hf ⟨S, hS, hcard⟩ (hkeys y hy) x (s.element x).toNat
  obtain ⟨m₂, t₂, h₂, hf₂⟩ :=
    redirect_eq spec hf₁ ⟨S, fun k hk => hS k ((hagain k).mp hk), hcard⟩
      (fun h0 => (hagain _).mpr (hkeys x hx h0)) y t₁
  obtain ⟨s', q, n, hdetach, hshape, hmap, hswap, hlen, hread, hparent⟩ :=
    hs.toShape.swapNext hring h₁ h₂
  refine ⟨s', _, n, hdetach, hshape, rfl, rfl, rfl, ⟨_, hmap ▸ hf₂, ?_⟩, hswap,
    hlen.trans hs.length, hread, hparent⟩
  rw [funext hswap]
  exact hidx.swap hx hy

theorem ascending_middle : Ascending (as ++ g :: bs) ↔ Ascending (as ++ bs) ∧
    (∀ k ∈ as, k.value < g.value) ∧ ∀ k ∈ bs, g.value < k.value := by
  unfold Ascending
  rw [List.pairwise_append, List.pairwise_cons, List.pairwise_append]
  simp only [List.mem_cons]
  constructor
  · rintro ⟨has, ⟨hg, hbs⟩, hall⟩
    exact ⟨⟨has, hbs, fun a ha b hb => hall a ha b (Or.inr hb)⟩,
      fun k hk => hall k hk g (Or.inl rfl), hg⟩
  · rintro ⟨⟨has, hbs, hall⟩, hbelow, habove⟩
    refine ⟨has, ⟨habove, hbs⟩, ?_⟩
    rintro a ha b (rfl | hb)
    · exact hbelow a ha
    · exact hall a ha b hb

/-- The increased count fits before the next group, if that has another count. -/
theorem Ascending.gap (h : Ascending (as ++ g :: bs))
    (hnext : ∀ k, bs.head? = some k → k.value ≠ g.value + 1) : ∀ k ∈ bs, g.value + 1 < k.value := by
  intro k hk
  have hgk := (ascending_middle.mp h).2.2
  cases bs with
  | nil => cases hk
  | cons b bs =>
      have hb := hnext b rfl
      have hgb := hgk b List.mem_cons_self
      rcases List.mem_cons.mp hk with rfl | hk
      · omega
      · have hbk :=
          (List.pairwise_cons.mp (List.pairwise_append.mp (ascending_middle.mp h).1).2.1).1
          k hk
        omega

theorem Ascending.raise (h : Ascending (as ++ g :: bs))
    (hnext : ∀ k, bs.head? = some k → k.value ≠ g.value + 1) (hg : g'.value = g.value + 1) :
    Ascending (as ++ g' :: bs) := by
  have hgap := h.gap hnext
  obtain ⟨hrest, hbelow, -⟩ := ascending_middle.mp h
  rw [ascending_middle, hg]
  exact ⟨hrest, fun k hk => (hbelow k hk).trans (Nat.lt_succ_self _), hgap⟩

/-- A group with the next count is put in behind the group `g`. -/
theorem Ascending.insert (h : Ascending (as ++ g :: bs))
    (hnext : ∀ k, bs.head? = some k → k.value ≠ g.value + 1) (hg : g'.value = g.value + 1) :
    Ascending (as ++ g :: g' :: bs) := by
  have hgap := h.gap hnext
  have hbelow := (ascending_middle.mp h).2.1
  rw [List.append_cons] at h ⊢
  rw [ascending_middle, hg]
  refine ⟨h, ?_, hgap⟩
  intro k hk
  rcases List.mem_append.mp hk with hk | hk
  · exact (hbelow k hk).trans (Nat.lt_succ_self _)
  · cases List.mem_singleton.mp hk
    exact Nat.lt_succ_self _

theorem Ascending.congr {gs' : List Group} (h : Ascending gs)
    (hv : gs'.map Group.value = gs.map Group.value) : Ascending gs' := by
  unfold Ascending at h ⊢
  rw [← List.pairwise_map (R := fun a b : ℕ => a < b)] at h ⊢
  rwa [hv]

theorem Shape.increment_join (hs : Shape s (as ++ g :: h :: bs))
    (hx : Points s.children g.parent x y) (hv : h.value = SpaceSaving.increment g.value) :
    s.increment ops x = (s.detach ops x).bind fun s => s.add h.parent y := by
  have hsh : Spine s ((as ++ [g]) ++ h :: bs) := by simpa using hs.toSpine
  obtain ⟨n, hn, hparent, hnext⟩ := hx
  simp [State.increment, hn, hparent, hnext, hs.read, hsh.read, hv]

theorem Shape.increment_raise (hs : Shape s (as ++ g :: bs)) {b : Child}
    (hx : s.children.read x = some b) (hparent : b.parent = some g.parent)
    (hnext : ∀ k, bs.head? = some k → k.value ≠ SpaceSaving.increment g.value) :
    s.increment ops x = s.raise ops x b g.parent (SpaceSaving.increment g.value)
      (firstOf (bs.map Group.parent) none) := by
  cases bs with
  | nil => simp [State.increment, hx, hparent, hs.read]
  | cons h bs =>
      have hsh : Spine s ((as ++ [g]) ++ h :: bs) := by simpa using hs.toSpine
      simp [State.increment, hx, hparent, hs.read, hsh.read, hnext h rfl]

theorem ring_ne_nil {ring : Cycle ChildId} {m : Multiset ChildId} (h : ring.toMultiset = y ::ₘ m) :
    ring ≠ Cycle.nil := by
  rintro rfl
  exact Multiset.zero_ne_cons h

theorem members_only (hring : g.ring = (([x] : List ChildId) : Cycle ChildId)) :
    members (as ++ g :: bs) = x ::ₘ members (as ++ bs) := by
  rw [members_append, members, hring, Cycle.coe_toMultiset, Multiset.coe_singleton,
    Multiset.singleton_add, Multiset.add_cons, members_append]

theorem pairs_only (element : ChildId → Key)
    (hring : g.ring = (([x] : List ChildId) : Cycle ChildId)) :
    pairs element (as ++ g :: bs) = (element x, g.value) ::ₘ pairs element (as ++ bs) := by
  rw [pairs_append, pairs, hring, Cycle.coe_toMultiset, Multiset.coe_singleton,
    Multiset.map_singleton, Multiset.singleton_add, Multiset.add_cons, pairs_append]

theorem State.element_congr {s' : State M} (h : s'.children = s.children) :
    s'.element = s.element := by
  funext z
  unfold State.element
  rw [h]

/-- The child that `Detach` takes out of the circle is in no group. -/
theorem not_mem_of_erase {gs gs' : List Group} (hnodup : (members gs).Nodup)
    (hmembers : members gs = y ::ₘ members gs') : y ∉ members gs' := by
  rw [hmembers] at hnodup
  exact (Multiset.nodup_cons.mp hnodup).1

theorem Sound.join_only {spec : ops.Contract capacity} (hs : Sound spec c s (as ++ g :: h :: bs))
    (hring : g.ring = (([x] : List ChildId) : Cycle ChildId))
    (hv : h.value = SpaceSaving.increment g.value) :
    ∃ s' gs', s.increment ops x = some s' ∧ Sound spec c s' gs' ∧
      Raised (s.element x) g.value s (as ++ g :: h :: bs) s' gs' := by
  have hchain := hs.rings.chain g (by simp)
  rw [hring, Cycle.chain_singleton] at hchain
  have hmembers : members (as ++ g :: h :: bs) = x ::ₘ members (as ++ h :: bs) :=
    members_only hring
  have hloose := not_mem_of_erase hs.rings.nodup hmembers
  obtain ⟨s₁, n, hdetach, hs₁, hmap₁, hch₁, hn⟩ := hs.toShape.dropOnly ops hring
  obtain ⟨s', ring, hadd, hms, hs', hmap, helem, hlen⟩ := hs₁.add (hch₁ ▸ hn) hloose
  have helem' : s'.element = s.element := helem.trans (State.element_congr hch₁)
  refine ⟨s', _, ?_, ⟨hs', ?_, ?_, ?_, ?_⟩, ⟨pairs s.element (as ++ h :: bs), ?_, ?_⟩, ?_⟩
  · rw [hs.toShape.increment_join hchain hv, hdetach]
    exact hadd
  · have hfull := hs.full
    simp only [List.forall_mem_append, List.forall_mem_cons] at hfull ⊢
    exact ⟨hfull.1, ring_ne_nil hms, hfull.2.2.2⟩
  · rw [members_add hms, ← hmembers, hs.all]
  · rw [hlen, hch₁, hs.length]
  · rw [helem', hmap, hmap₁]
    exact hs.indexed
  · exact pairs_only s.element hring
  · rw [helem', pairs_add _ hms, hv]
  · intro _ hasc
    refine Ascending.congr ((ascending_middle.mp hasc).1) ?_
    simp

theorem coe_cons_ne_nil : ((x :: l : List ChildId) : Cycle ChildId) ≠ Cycle.nil :=
  (Cycle.coe_eq_nil _).not.mpr (List.cons_ne_nil x l)

/-- A child with siblings hands its element to the next group. -/
theorem Sound.join_shared {spec : ops.Contract capacity} (hc : c < capacity)
    (hs : Sound spec c s (as ++ g :: h :: bs))
    (hring : g.ring = ((x :: y :: l : List ChildId) : Cycle ChildId))
    (hv : h.value = SpaceSaving.increment g.value) :
    ∃ s' gs', s.increment ops x = some s' ∧ Sound spec c s' gs' ∧
      Raised (s.element x) g.value s (as ++ g :: h :: bs) s' gs' := by
  have hchain := hs.rings.chain g (by simp)
  rw [hring] at hchain
  have hnodup := hs.rings.nodup
  obtain ⟨s₁, g₁, n, hdetach, hs₁, hring₁, hvalue, -, hidx, hswap, hlen₁, hn, -⟩ :=
    hs.detach hc hring
  have hmembers : members (as ++ g :: h :: bs) = y ::ₘ members (as ++ g₁ :: h :: bs) :=
    members_erase hring hring₁
  have hloose := not_mem_of_erase hnodup hmembers
  rw [List.append_cons] at hs₁ hloose
  obtain ⟨s', ring, hadd, hms, hs', hmap, helem, hlen⟩ := hs₁.add hn hloose
  refine ⟨s', _, ?_, ⟨hs', ?_, ?_, ?_, ?_⟩, ⟨pairs s₁.element (as ++ g₁ :: h :: bs), ?_, ?_⟩, ?_⟩
  · rw [hs.toShape.increment_join (List.isChain_cons_cons.mp hchain).1 hv, hdetach]
    exact hadd
  · have hfull := hs.full
    simp only [List.forall_mem_append, List.forall_mem_cons] at hfull ⊢
    exact ⟨⟨hfull.1, hring₁ ▸ coe_cons_ne_nil, fun _ h => by cases h⟩, ring_ne_nil hms,
      hfull.2.2.2⟩
  · rw [members_add hms, ← List.append_cons, ← hmembers, hs.all]
  · rw [hlen, hlen₁]
  · rw [helem, hmap]
    exact hidx
  · exact pairs_swap hnodup hring hring₁ hvalue hswap
  · rw [helem, pairs_add _ hms, hv, hswap, Equiv.swap_apply_right, ← List.append_cons]
  · intro _ hasc
    exact hasc.congr (by simp [hvalue])

theorem Sound.raise_only {spec : ops.Contract capacity} (hs : Sound spec c s (as ++ g :: bs))
    (hring : g.ring = (([x] : List ChildId) : Cycle ChildId))
    (hnext : ∀ k, bs.head? = some k → k.value ≠ SpaceSaving.increment g.value) :
    ∃ s' gs', s.increment ops x = some s' ∧ Sound spec c s' gs' ∧
      Raised (s.element x) g.value s (as ++ g :: bs) s' gs' := by
  have hchain := hs.rings.chain g (by simp)
  rw [hring, Cycle.chain_singleton] at hchain
  obtain ⟨n, hn, hparent, hself⟩ := hchain
  obtain ⟨parents, hp, hs'⟩ := hs.toShape.setValue (SpaceSaving.increment g.value)
  refine ⟨_, _, ?_, ⟨hs', ?_, ?_, hs.length, hs.indexed⟩,
    ⟨pairs s.element (as ++ bs), pairs_only s.element hring, pairs_only s.element hring⟩, ?_⟩
  · rw [hs.toShape.increment_raise hn hparent hnext]
    simp [State.raise, hself, hp]
  · have hfull := hs.full
    simp only [List.forall_mem_append, List.forall_mem_cons] at hfull ⊢
    exact hfull
  · rw [← hs.all]
    simp [members]
  · intro hlt hasc
    have hinc : SpaceSaving.increment g.value = g.value + 1 := Nat.mod_eq_of_lt hlt
    exact hasc.raise (fun k hk => hinc ▸ hnext k hk) hinc

/-- A child with siblings hands its element to a new group. -/
theorem Sound.raise_shared {spec : ops.Contract capacity} (hc : c < capacity)
    (hs : Sound spec c s (as ++ g :: bs))
    (hring : g.ring = ((x :: y :: l : List ChildId) : Cycle ChildId))
    (hnext : ∀ k, bs.head? = some k → k.value ≠ SpaceSaving.increment g.value) :
    ∃ s' gs', s.increment ops x = some s' ∧ Sound spec c s' gs' ∧
      Raised (s.element x) g.value s (as ++ g :: bs) s' gs' := by
  have hchain := hs.rings.chain g (by simp)
  rw [hring] at hchain
  obtain ⟨b, hb, hparent, hself⟩ := (List.isChain_cons_cons.mp hchain).1
  have hnodup := hs.rings.nodup
  have hyx : y ≠ x := by
    rintro rfl
    exact (List.nodup_cons.mp (hs.rings.ring_nodup hring)).1 List.mem_cons_self
  obtain ⟨s₁, g₁, n, hdetach, hs₁, hring₁, hvalue, hparent₁, hidx, hswap, hlen₁, hn, hnparent⟩ :=
    hs.detach hc hring
  have hmembers : members (as ++ g :: bs) = y ::ₘ members (as ++ g₁ :: bs) :=
    members_erase hring hring₁
  obtain ⟨s₂, hnew, hs₂, hch₂, hmap₂⟩ :=
    hs₁.newParent (SpaceSaving.increment g.value) hn (hnparent.trans (congrArg some hparent₁.symm))
  set k : Group := ⟨s₁.parents.fresh, SpaceSaving.increment g.value, none, Cycle.nil⟩ with hk
  have hempty : members (as ++ g₁ :: k :: bs) = members (as ++ g₁ :: bs) := by
    simp [members, hk]
  have hpairs : pairs s₁.element (as ++ g₁ :: k :: bs) = pairs s₁.element (as ++ g₁ :: bs) := by
    simp [pairs, hk]
  have hloose := not_mem_of_erase hnodup (hmembers.trans (congrArg (y ::ₘ ·) hempty.symm))
  rw [List.append_cons] at hs₂ hloose
  obtain ⟨s', ring, hadd, hms, hs', hmap, helem, hlen⟩ := hs₂.add (hch₂ ▸ hn) hloose
  have helem' : s'.element = s₁.element := helem.trans (State.element_congr hch₂)
  refine ⟨s', _, ?_, ⟨hs', ?_, ?_, ?_, ?_⟩, ⟨pairs s₁.element (as ++ g₁ :: bs), ?_, ?_⟩, ?_⟩
  · rw [hs.toShape.increment_raise hb hparent hnext]
    simpa [State.raise, hself, hyx, hdetach, hnew] using hadd
  · have hfull := hs.full
    simp only [List.forall_mem_append, List.forall_mem_cons] at hfull ⊢
    exact ⟨⟨hfull.1, hring₁ ▸ coe_cons_ne_nil, fun _ h => by cases h⟩, ring_ne_nil hms,
      hfull.2.2⟩
  · rw [members_add hms, ← List.append_cons, hempty, ← hmembers, hs.all]
  · rw [hlen, hch₂, hlen₁]
  · rw [helem', hmap, hmap₂]
    exact hidx
  · exact pairs_swap hnodup hring hring₁ hvalue hswap
  · rw [helem', pairs_add _ hms, hswap, Equiv.swap_apply_right, ← List.append_cons, hpairs]
  · intro hlt hasc
    have hinc : SpaceSaving.increment g.value = g.value + 1 := Nat.mod_eq_of_lt hlt
    have hins : Ascending (as ++ g :: k :: bs) :=
      hasc.insert (fun k hk => hinc ▸ hnext k hk) hinc
    exact hins.congr (by simp [hvalue])

/-- `Increment` of any child of a sound tracker. -/
theorem Sound.increment {spec : ops.Contract capacity} (hc : c < capacity)
    (hs : Sound spec c s (as ++ g :: bs)) (hx : x ∈ g.ring) :
    ∃ s' gs', s.increment ops x = some s' ∧ Sound spec c s' gs' ∧
      Raised (s.element x) g.value s (as ++ g :: bs) s' gs' := by
  obtain ⟨l, hl⟩ := exists_coe_cons hx
  by_cases hjoin : ∃ h, bs.head? = some h ∧ h.value = SpaceSaving.increment g.value
  · obtain ⟨h, hh, hv⟩ := hjoin
    obtain ⟨bs, rfl⟩ := List.head?_eq_some_iff.mp hh
    cases l with
    | nil => exact hs.join_only hl hv
    | cons y l => exact hs.join_shared hc hl hv
  · have hnext : ∀ k, bs.head? = some k → k.value ≠ SpaceSaving.increment g.value :=
      fun k hk hv => hjoin ⟨k, hk, hv⟩
    cases l with
    | nil => exact hs.raise_only hl hnext
    | cons y l => exact hs.raise_shared hc hl hnext

end PowerLawRocksdb.LinkedTracker
