import PowerLawRocksdb.LinkedProcess
import Mathlib.Data.List.AList

/-!
# The linked tracker over an ideal table

The table is an ideal finite map here, indexed by the key itself. From the
constructor on, the tracker keeps its shape, and every `Process` is one step of
Space-Saving on its pairs of elements and counts.
-/
namespace PowerLawRocksdb.LinkedTracker
open LinkedHeap CounterSummary
open SpaceSaving (Key)

variable {M : Type} {ops : MapOps M} {s s' : State M} {gs : List Group} {g : Group}
  {c capacity : ℕ}

theorem Shape.lt_fresh (hs : Shape s gs) {x : ChildId} (hx : x ∈ members gs) :
    x < s.children.fresh := by
  obtain ⟨g, hg, hxg⟩ := mem_members.mp hx
  obtain ⟨y, n, hn, -⟩ := exists_next (hs.rings.chain g hg) hxg
  exact Heap.lt_fresh hn

theorem Shape.newChild (hs : Shape s gs) :
    Shape { s with children := s.children.alloc Child.init } gs ∧
      State.element { s with children := s.children.alloc Child.init } = s.element := by
  refine ⟨⟨⟨hs.linked, hs.heads, hs.distinct, hs.smallest, hs.largest⟩, ?_, hs.rings.rooted,
    hs.rings.nodup⟩, ?_⟩
  · intro g hg
    apply chain_congr (hs.rings.chain g hg)
    intro x hx y hxy
    unfold Points
    rwa [Heap.read_alloc, if_neg (hs.lt_fresh (mem_members.mpr ⟨g, hg, hx⟩)).ne]
  · funext x
    unfold State.element
    rw [Heap.read_alloc]
    split_ifs with hx
    · subst hx
      cases hread : s.children.read s.children.fresh with
      | none => rfl
      | some n => exact absurd (Heap.lt_fresh hread) (lt_irrefl _)
    · rfl

theorem Shape.addChildren (n : ℕ) (hs : Shape s [g])
    (hall : members [g] = Multiset.range s.children.length) :
    ∃ s' g', s.addChildren n = some s' ∧ Shape s' [g'] ∧ g'.value = g.value ∧
      s'.children.length = s.children.length + n ∧
      members [g'] = Multiset.range s'.children.length ∧
      s'.element = s.element ∧ s'.map = s.map := by
  induction n generalizing s g with
  | zero => exact ⟨s, g, rfl, hs, rfl, rfl, hall, rfl, rfl⟩
  | succ n ih =>
      have hsplit : Shape { s with children := s.children.alloc Child.init } ([] ++ g :: []) :=
        hs.newChild.1
      have hloose : s.children.fresh ∉ members ([] ++ g :: []) :=
        fun h => lt_irrefl _ (hs.lt_fresh h)
      have hread : (s.children.alloc Child.init).read s.children.fresh = some Child.init := by
        rw [Heap.read_alloc, if_pos rfl]
      obtain ⟨s₁, ring, hadd, hms, hs₁, hmap, helem, hlen⟩ := hsplit.add hread hloose
      have hlen₁ : s₁.children.length = s.children.length + 1 := by
        rw [hlen]
        simp [Heap.alloc]
      have hall₁ : members [⟨g.parent, g.value, some s.children.fresh, ring⟩] =
          Multiset.range s₁.children.length := by
        rw [hlen₁, Multiset.range_succ, ← hall]
        simp [members, hms, Heap.fresh]
      obtain ⟨s', g', hrest, hs', hvalue, hlen', hall', helem', hmap'⟩ := ih hs₁ hall₁
      refine ⟨s', g', ?_, hs', hvalue, by omega, hall', ?_, hmap'.trans hmap⟩
      · have hsmallest : s.smallest = some g.parent := hs.smallest
        rw [hsmallest] at hadd
        simp [State.addChildren, hsmallest, hadd, hrest]
      · rw [helem', helem]
        exact hs.newChild.2

theorem init_sound {spec : ops.Contract capacity} {map : M} (hc : 1 ≤ c)
    (hmap : spec.Holds map fun _ => none) :
    ∃ s g, State.init map c = some s ∧ Sound spec c s [g] ∧ g.value = 0 ∧ s.map = map ∧
      ∀ x, s.element x = 0 := by
  have hstart : Shape (⟨Heap.alloc [] Parent.init, [], map, some 0, some 0⟩ : State M)
      [⟨0, 0, none, Cycle.nil⟩] := by
    refine ⟨⟨⟨⟨_, rfl, rfl, rfl⟩, trivial⟩, ?_, by simp, rfl, rfl⟩, ?_, ?_, ?_⟩
    · intro g hg
      cases List.mem_singleton.mp hg
      exact ⟨_, rfl, rfl, rfl⟩
    · intro g hg
      cases List.mem_singleton.mp hg
      exact Cycle.Chain.nil _
    · intro g hg
      cases List.mem_singleton.mp hg
      rfl
    · exact Multiset.nodup_zero
  obtain ⟨s, g, hinit, hs, hvalue, hlen, hall, helem, hm⟩ := hstart.addChildren c rfl
  have hzero : ∀ x, s.element x = 0 := by
    intro x
    rw [helem]
    rfl
  rw [hlen, List.length_nil, Nat.zero_add] at hall
  refine ⟨s, g, hinit, ⟨hs, ?_, hall, ?_, fun _ => none, hm ▸ hmap, ?_⟩, hvalue, hm, hzero⟩
  · intro k hk hnil
    cases List.mem_singleton.mp hk
    rw [members, hnil, members, Cycle.nil_toMultiset, add_zero, eq_comm, ← Multiset.card_eq_zero,
      Multiset.card_range] at hall
    omega
  · rw [hlen, List.length_nil, Nat.zero_add]
  · intro k x
    rw [hzero]
    constructor
    · intro h
      cases h
    · rintro ⟨h0, -, heq⟩
      exact absurd heq.symm h0

def State.count (s : State M) (x : ChildId) : ℕ :=
  (do
    let n ← s.children.read x
    let parent ← n.parent
    let p ← s.parents.read parent
    some p.value).getD 0

def State.counters (s : State M) : Multiset (Key × ℕ) :=
  (Multiset.range s.children.length).map fun x => (s.element x, s.count x)

theorem Shape.count_eq (hs : Shape s gs) (hg : g ∈ gs) {x : ChildId} (hx : x ∈ g.ring) :
    s.count x = g.value := by
  obtain ⟨y, n, hn, hparent, -⟩ := exists_next (hs.rings.chain g hg) hx
  obtain ⟨p, hp, -, hvalue⟩ := hs.heads g hg
  simp [State.count, hn, hparent, hp, hvalue]

theorem pairs_eq_map {element : ChildId → Key} {count : ChildId → ℕ}
    (h : ∀ g ∈ gs, ∀ x ∈ g.ring, count x = g.value) :
    pairs element gs = (members gs).map fun x => (element x, count x) := by
  induction gs with
  | nil => rfl
  | cons g gs ih =>
      rw [pairs, members, Multiset.map_add, ih fun k hk => h k (List.mem_cons_of_mem g hk)]
      congr 1
      apply Multiset.map_congr rfl
      intro x hx
      rw [h g List.mem_cons_self x (mem_toMultiset.mp hx)]

theorem Sound.counters_eq {spec : ops.Contract capacity} (hs : Sound spec c s gs) :
    s.counters = pairs s.element gs := by
  rw [pairs_eq_map fun g hg x hx => hs.toShape.count_eq hg hx, hs.all, State.counters, hs.length]

/-- A finite map in which an entry is indexed by its own key. -/
abbrev IdealMap := AList fun _ : Key => ChildId

def idealMap : MapOps IdealMap where
  find map key := some ((map.lookup key).map fun _ => key.toNat)
  value map index := map.lookup (UInt64.ofNat index)
  setValue map index child :=
    if UInt64.ofNat index ∈ map then some (map.insert (UInt64.ofNat index) child) else none
  insert map key child := some (map.insert key child)
  remove map key := some (if key = 0 then map else map.erase key)

theorem lookup_insert_eq_update {map : IdealMap} {f : Key → Option ChildId}
    (h : ∀ k, map.lookup k = f k) (key : Key) (x : ChildId) (k : Key) :
    (map.insert key x).lookup k = Function.update f key (some x) k := by
  by_cases hk : k = key
  · subst hk
    rw [AList.lookup_insert, Function.update_self]
  · rw [AList.lookup_insert_ne hk, Function.update_of_ne hk, h]

/-- An ideal map is never full, and every key can be removed from it. -/
def idealContract (capacity : ℕ) : idealMap.Contract capacity where
  Holds map f := f 0 = none ∧ ∀ k, map.lookup k = f k
  Removable _ _ := True
  find_none := by
    intro m f k h _ _ hk
    simp [idealMap, h.2, hk]
  find_some := by
    intro m f k x h _ hk
    have hmem : k ∈ m := AList.lookup_isSome.mp (by rw [h.2, hk]; rfl)
    refine ⟨k.toNat, by simp [idealMap, h.2, hk], by simp [idealMap, h.2, hk], ?_⟩
    intro y
    refine ⟨m.insert k y, by simp [idealMap, hmem], ?_, lookup_insert_eq_update h.2 k y⟩
    rw [Function.update_of_ne, h.1]
    rintro rfl
    rw [h.1] at hk
    cases hk
  insert := by
    intro m f k x h _ h0 _
    refine ⟨m.insert k x, rfl, ?_, lookup_insert_eq_update h.2 k x⟩
    rw [Function.update_of_ne (Ne.symm h0), h.1]
  remove := by
    intro m f k h _ _ _
    by_cases hk : k = 0
    · refine ⟨m, by simp [idealMap, hk], ?_⟩
      rwa [hk, Function.update_eq_self_iff.mpr h.1.symm]
    · refine ⟨m.erase k, by simp [idealMap, hk], ?_, ?_⟩
      · rw [Function.update_of_ne (Ne.symm hk), h.1]
      · intro j
        by_cases hjk : j = k
        · rw [hjk, AList.lookup_erase, Function.update_self]
        · rw [AList.lookup_erase_ne hjk, Function.update_of_ne hjk, h.2]

/-- The parents are linked with growing counts, and each of them owns a circle of at least
one child. These are the `c` children, and no two have the same nonzero element. -/
structure WellFormed (c : ℕ) (s : State M) (gs : List Group) : Prop where
  shape : Shape s gs
  ascending : Ascending gs
  full : ∀ g ∈ gs, g.ring ≠ Cycle.nil
  all : members gs = Multiset.range c
  distinct : ∀ x < c, ∀ y < c, s.element x ≠ 0 → s.element x = s.element y → x = y

theorem Sound.wellFormed {spec : ops.Contract capacity} (hs : Sound spec c s gs)
    (hasc : Ascending gs) : WellFormed c s gs := by
  refine ⟨hs.toShape, hasc, hs.full, hs.all, ?_⟩
  intro x hx y hy h0 heq
  obtain ⟨f, -, hidx⟩ := hs.indexed
  have hfx := (hidx _ x).mpr ⟨h0, hx, rfl⟩
  have hfy := (hidx _ y).mpr ⟨h0, hy, heq.symm⟩
  exact Option.some.inj (hfx.symm.trans hfy)

theorem Sound.processAll {s : State IdealMap} (hc : 0 < c) {xs : List Key}
    (h0 : ∀ x ∈ xs, x ≠ 0) (hs : Sound (idealContract (c + 1)) c s gs) (hasc : Ascending gs)
    (hlen : total (pairs s.element gs) + xs.length < 2 ^ 64) :
    ∃ s' gs', Transitions.run (State.process idealMap) s xs = some s' ∧
      Sound (idealContract (c + 1)) c s' gs' ∧ Ascending gs' ∧
      total (pairs s'.element gs') = total (pairs s.element gs) + xs.length := by
  induction xs generalizing s gs with
  | nil => exact ⟨s, gs, rfl, hs, hasc, rfl⟩
  | cons x xs ih =>
      rw [List.length_cons] at hlen
      obtain ⟨s₁, gs₁, hstep, hs₁, hsum⟩ := hs.process hc (Nat.lt_succ_self c)
        (h0 x List.mem_cons_self) fun _ _ _ => trivial
      obtain ⟨hasc₁, hnext⟩ := hsum hasc (by omega)
      have htotal := hnext.total
      obtain ⟨s', gs', hrun, hs', hasc', htotal'⟩ :=
        ih (fun y hy => h0 y (List.mem_cons_of_mem x hy)) hs₁ hasc₁ (by omega)
      refine ⟨s', gs', Transitions.run_cons.mpr ⟨s₁, hstep, hrun⟩, hs', hasc', ?_⟩
      rw [htotal', htotal, List.length_cons]
      omega

theorem run_sound (hc : 1 ≤ c) {xs : List Key} (h0 : ∀ x ∈ xs, x ≠ 0) (hlen : xs.length < 2 ^ 64) :
    ∃ s₀ s gs, State.init (∅ : IdealMap) c = some s₀ ∧
      Transitions.run (State.process idealMap) s₀ xs = some s ∧
      Sound (idealContract (c + 1)) c s gs ∧ Ascending gs ∧
      total (pairs s.element gs) = xs.length := by
  have hempty : (idealContract (c + 1)).Holds ∅ fun _ => none := ⟨rfl, fun k => rfl⟩
  obtain ⟨s₀, g, hinit, hs₀, hvalue, -, -⟩ := init_sound hc hempty
  have htotal₀ : total (pairs s₀.element [g]) = 0 := by
    simp [pairs, total, hvalue]
  obtain ⟨s, gs, hrun, hs, hasc, htotal⟩ :=
    hs₀.processAll hc h0 (List.pairwise_singleton _ g) (by omega)
  exact ⟨s₀, s, gs, hinit, hrun, hs, hasc, by omega⟩

/-- After any stream of fewer than `2 ^ 64` nonzero elements the tracker is well formed,
and the next `Process` is one step of Space-Saving on its `c` pairs. -/
theorem process_spaceSaving (hc : 1 ≤ c) {xs : List Key} (h0 : ∀ x ∈ xs, x ≠ 0)
    (hlen : xs.length < 2 ^ 64) :
    ∃ s₀ s, State.init (∅ : IdealMap) c = some s₀ ∧
      Transitions.run (State.process idealMap) s₀ xs = some s ∧
      (∃ gs, WellFormed c s gs) ∧ s.counters.card = c ∧
      ∀ e, e ≠ 0 → xs.length + 1 < 2 ^ 64 →
        ∃ s', s.process idealMap e = some s' ∧ Step c e s.counters s'.counters := by
  obtain ⟨s₀, s, gs, hinit, hrun, hs, hasc, htotal⟩ := run_sound hc h0 hlen
  refine ⟨s₀, s, hinit, hrun, ⟨gs, hs.wellFormed hasc⟩, ?_, ?_⟩
  · rw [State.counters, Multiset.card_map, Multiset.card_range, hs.length]
  · intro e he hlen'
    obtain ⟨s', gs', hstep, hs', hsum⟩ := hs.process hc (Nat.lt_succ_self c) he
      fun _ _ _ => trivial
    refine ⟨s', hstep, ?_⟩
    rw [hs.counters_eq, hs'.counters_eq]
    exact (hsum hasc (by omega)).2

/-- Two counters and three elements: the third one takes over a node. -/
theorem process_spaceSaving_evicting :
    ∃ s₀ s s', State.init (∅ : IdealMap) 2 = some s₀ ∧
      Transitions.run (State.process idealMap) s₀ [5, 7, 5] = some s ∧
      s.process idealMap 9 = some s' ∧ Step 2 9 s.counters s'.counters := by
  have h0 : ∀ x ∈ ([5, 7, 5] : List Key), x ≠ 0 := by simp
  obtain ⟨s₀, s, hinit, hrun, -, -, hnext⟩ :=
    process_spaceSaving (c := 2) (by decide) h0 (by decide)
  obtain ⟨s', hs', hstep⟩ := hnext 9 (by decide) (by decide)
  exact ⟨s₀, s, s', hinit, hrun, hs', hstep⟩

def single (v : ℕ) : State IdealMap :=
  ⟨[some ⟨none, none, some 0, v⟩], [some ⟨some 0, some 0, 1⟩],
    (∅ : IdealMap).insert 1 0, some 0, some 0⟩

theorem process_single (v : ℕ) :
    (single v).process idealMap 1 = some (single (SpaceSaving.increment v)) := rfl

/-- One counter, and `2 ^ 64` times the same element: the count goes back to 0. -/
theorem count_wraps :
    ∃ s₀ s s', State.init (∅ : IdealMap) 1 = some s₀ ∧
      Transitions.run (State.process idealMap) s₀ (List.replicate (2 ^ 64 - 1) 1) = some s ∧
      s.process idealMap 1 = some s' ∧ s.counters = {(1, 2 ^ 64 - 1)} ∧
      s'.counters = {(1, 0)} := by
  have hlen : 2 ^ 64 - 1 = (2 ^ 64 - 2) + 1 := by decide
  refine ⟨_, single (2 ^ 64 - 1), single 0, rfl, ?_, ?_, rfl, rfl⟩
  · rw [hlen, List.replicate_succ, Transitions.run_cons]
    refine ⟨single 1, rfl, ?_⟩
    have hcount : (1 + (2 ^ 64 - 2)) % 2 ^ 64 = 2 ^ 64 - 2 + 1 := by decide
    rw [Transitions.run_replicate process_single, SpaceSaving.iterate_increment _ (by decide),
      hcount]
  · exact process_single (2 ^ 64 - 1)

end PowerLawRocksdb.LinkedTracker
