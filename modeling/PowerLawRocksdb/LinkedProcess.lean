import PowerLawRocksdb.LinkedSteps
import PowerLawRocksdb.Transitions

/-!
# The linked tracker as a counter summary

`Process` raises the count of a monitored element, or lets a new element take over
a node of the first group. The pairs of elements and counts make one step of a
counter summary that has all its counters from the start, with the element 0 for
those not in use.
-/
namespace PowerLawRocksdb.LinkedTracker
open LinkedHeap CounterSummary
open SpaceSaving (Key)

variable {M : Type} {ops : MapOps M} {s s' : State M} {gs as bs : List Group} {g : Group}
  {x : ChildId} {l : List ChildId} {c capacity : ℕ} {f : Key → Option ChildId} {e : Key}

/-- The element whose node a new element would take over. -/
def State.victim (s : State M) : Option Key := do
  let smallest ← s.smallest
  let p ← s.parents.read smallest
  let bucket ← p.child
  let b ← s.children.read bucket
  some b.element

theorem Shape.setElement (hs : Shape s gs) {n : Child} (hn : s.children.read x = some n)
    (e : Key) (map : M) :
    ∃ children, (s.children.modify x fun n => { n with element := e }) = some children ∧
      children.length = s.children.length ∧ Shape { s with children, map } gs ∧
      State.element { s with children, map } = Function.update s.element x e := by
  obtain ⟨children, hch, hlen, hread⟩ := Heap.modify_eq hn fun n => { n with element := e }
  refine ⟨children, hch, hlen, ⟨⟨hs.linked, hs.heads, hs.distinct, hs.smallest, hs.largest⟩, ?_,
    hs.rings.rooted, hs.rings.nodup⟩, ?_⟩
  · intro g hg
    apply (hs.rings.chain g hg).imp
    rintro a b ⟨m, hm, hab⟩
    unfold Points
    rw [hread]
    split_ifs with ha
    · subst ha
      cases hn.symm.trans hm
      exact ⟨_, rfl, hab⟩
    · exact ⟨m, hm, hab⟩
  · funext z
    unfold State.element
    rw [hread]
    split_ifs with hz
    · subst hz
      rw [Function.update_self]
      rfl
    · rw [Function.update_of_ne hz]

/-- A new element takes over the entry of the child `x` in the map. -/
theorem Indexed.replace {element : ChildId → Key} (h : Indexed f c element) (hx : x < c)
    (he : e ≠ 0) (hnew : f e = none) :
    Indexed (Function.update (Function.update f (element x) none) e (some x)) c
      (Function.update element x e) := by
  intro k z
  by_cases hke : k = e
  · subst hke
    rw [Function.update_self]
    constructor
    · intro heq
      cases heq
      exact ⟨he, hx, Function.update_self ..⟩
    · rintro ⟨-, hz, heq⟩
      by_contra hzx
      rw [Function.update_of_ne (fun h => hzx (congrArg some h.symm))] at heq
      rw [(h k z).mpr ⟨he, hz, heq⟩] at hnew
      cases hnew
  · have hother : Function.update element x e z = k ↔ z ≠ x ∧ element z = k := by
      by_cases hzx : z = x
      · subst hzx
        rw [Function.update_self]
        simp [Ne.symm hke]
      · rw [Function.update_of_ne hzx]
        simp [hzx]
    rw [Function.update_of_ne hke, hother]
    by_cases hkx : k = element x
    · subst hkx
      rw [Function.update_self]
      constructor
      · intro heq
        cases heq
      · rintro ⟨h0, hz, hzx, heq⟩
        have hfx := (h _ x).mpr ⟨h0, hx, rfl⟩
        rw [(h _ z).mpr ⟨h0, hz, heq⟩] at hfx
        exact absurd (Option.some.inj hfx) hzx
    · rw [Function.update_of_ne hkx, h k z]
      constructor
      · rintro ⟨h0, hz, heq⟩
        refine ⟨h0, hz, ?_, heq⟩
        rintro rfl
        exact hkx heq.symm
      · rintro ⟨h0, hz, -, heq⟩
        exact ⟨h0, hz, heq⟩

theorem Sound.exists_group {spec : ops.Contract capacity} (hs : Sound spec c s gs) (hx : x < c) :
    ∃ as g bs, gs = as ++ g :: bs ∧ x ∈ g.ring := by
  have hmem : x ∈ members gs := by
    rw [hs.all]
    exact Multiset.mem_range.mpr hx
  obtain ⟨g, hg, hxg⟩ := mem_members.mp hmem
  obtain ⟨as, bs, rfl⟩ := List.append_of_mem hg
  exact ⟨as, g, bs, rfl, hxg⟩

theorem Sound.exists_first {spec : ops.Contract capacity} (hs : Sound spec c s gs) (hc : 0 < c) :
    ∃ g bs p q n, gs = g :: bs ∧ s.smallest = some g.parent ∧
      s.parents.read g.parent = some p ∧ p.child = some q ∧ q ∈ g.ring ∧
      s.children.read q = some n ∧ s.victim = some n.element := by
  cases gs with
  | nil =>
      have hall := hs.all
      rw [members, eq_comm, ← Multiset.card_eq_zero, Multiset.card_range] at hall
      omega
  | cons g bs =>
      have hsmallest : s.smallest = some g.parent := hs.smallest
      obtain ⟨p, hp, hpchild, -⟩ := hs.heads g List.mem_cons_self
      have hroot := hs.rings.rooted g List.mem_cons_self
      unfold Group.Rooted at hroot
      cases hchild : g.child with
      | none =>
          rw [hchild] at hroot
          exact absurd hroot (hs.full g List.mem_cons_self)
      | some q =>
          rw [hchild] at hroot
          obtain ⟨y, n, hn, -⟩ := exists_next (hs.rings.chain g List.mem_cons_self) hroot
          refine ⟨g, bs, p, q, n, rfl, hsmallest, hp, hpchild.trans hchild, hroot, hn, ?_⟩
          simp [State.victim, hsmallest, hp, hpchild, hchild, hn]

theorem Sound.lt_of_mem {spec : ops.Contract capacity} (hs : Sound spec c s gs) (hg : g ∈ gs)
    (hx : x ∈ g.ring) : x < c := by
  rw [← Multiset.mem_range, ← hs.all]
  exact mem_members.mpr ⟨g, hg, hx⟩

theorem mem_pairs {element : ChildId → Key} {p : Key × ℕ} :
    p ∈ pairs element gs ↔ ∃ g ∈ gs, ∃ x ∈ g.ring, (element x, g.value) = p := by
  induction gs with
  | nil => simp [pairs]
  | cons g gs ih => simp [pairs, ih, mem_toMultiset]

theorem card_pairs (element : ChildId → Key) : (pairs element gs).card = (members gs).card := by
  induction gs with
  | nil => rfl
  | cons g gs ih => simp [pairs, members, ih]

theorem pairs_update (element : ChildId → Key) (hnodup : (members (as ++ g :: bs)).Nodup)
    (hx : x ∈ g.ring) (e : Key) :
    ∃ rest, pairs element (as ++ g :: bs) = (element x, g.value) ::ₘ rest ∧
      pairs (Function.update element x e) (as ++ g :: bs) = (e, g.value) ::ₘ rest := by
  obtain ⟨l, hl⟩ := exists_coe_cons hx
  rw [members_without hl, Multiset.nodup_cons] at hnodup
  refine ⟨_, pairs_without element hl, ?_⟩
  rw [pairs_without _ hl, Function.update_self]
  congr 1
  apply pairs_congr
  intro z hz
  apply Function.update_of_ne
  rintro rfl
  exact hnodup.1 hz

theorem Ascending.first_le (h : Ascending (g :: bs)) (element : ChildId → Key) :
    ∀ p ∈ pairs element (g :: bs), g.value ≤ p.2 := by
  intro p hp
  obtain ⟨k, hk, x, -, rfl⟩ := mem_pairs.mp hp
  rcases List.mem_cons.mp hk with rfl | hk
  · exact le_rfl
  · exact (List.pairwise_cons.mp h).1 k hk |>.le

/-- A new element takes over the node `q` of the first group. -/
theorem Sound.takeOver {spec : ops.Contract capacity} (hs : Sound spec c s gs) (hc : 0 < c)
    (hcap : c < capacity) (he : e ≠ 0) (hnew : ∀ x < c, s.element x ≠ e)
    (hrem : ∀ k, s.victim = some k → spec.Removable s.map k) :
    ∃ s₁ g bs q, gs = g :: bs ∧ q ∈ g.ring ∧ s.evict ops e = s₁.increment ops q ∧
      Sound spec c s₁ gs ∧ s₁.element = Function.update s.element q e := by
  obtain ⟨f, hf, hidx⟩ := hs.indexed
  obtain ⟨g, bs, p, q, n, rfl, hsmallest, hp, hchild, hq, hn, hvictim⟩ := hs.exists_first hc
  have hfe : f e = none := by
    by_contra hne
    obtain ⟨z, hz⟩ := Option.ne_none_iff_exists'.mp hne
    obtain ⟨-, hlt, heq⟩ := (hidx e z).mp hz
    exact hnew z hlt heq
  have hqc := hs.lt_of_mem List.mem_cons_self hq
  have hnel := State.element_eq hn
  obtain ⟨S, hS, hcard⟩ := hidx.fits hcap
  have hpresent : n.element ≠ 0 → f n.element ≠ none := by
    intro h0
    rw [(hidx n.element q).mpr ⟨h0, hqc, hnel⟩]
    exact Option.some_ne_none q
  obtain ⟨m₁, hm₁, hf₁⟩ := spec.remove hf ⟨S, hS, hcard⟩ hpresent (hrem _ hvictim)
  have hsub : ∀ k, Function.update f n.element none k ≠ none → f k ≠ none := by
    intro k
    by_cases hk : k = n.element
    · subst hk
      simp
    · rw [Function.update_of_ne hk]
      exact id
  have hfe₁ : Function.update f n.element none e = none := not_not.mp fun h => hsub e h hfe
  obtain ⟨m₂, hm₂, hf₂⟩ := spec.insert q hf₁ ⟨S, fun k hk => hS k (hsub k hk), hcard⟩ he hfe₁
  obtain ⟨children, hch, hlen, hshape, helem⟩ := hs.toShape.setElement hn e m₂
  refine ⟨{ s with children, map := m₂ }, g, bs, q, rfl, hq, ?_,
    ⟨hshape, hs.full, hs.all, hlen.trans hs.length, _, hf₂, ?_⟩, helem⟩
  · simp [State.evict, hsmallest, hp, hchild, hn, hm₁, hch, hm₂]
  · rw [helem, ← hnel]
    exact hidx.replace hqc he hfe

theorem increment_eq {S : Summary Key} {v : ℕ} (hmem : (e, v) ∈ S) (htotal : total S + 1 < 2 ^ 64) :
    v + 1 < 2 ^ 64 ∧ SpaceSaving.increment v = v + 1 := by
  have hlt : v + 1 < 2 ^ 64 := by
    have hle := le_total hmem
    omega
  exact ⟨hlt, Nat.mod_eq_of_lt hlt⟩

theorem Sound.evict {spec : ops.Contract capacity} (hs : Sound spec c s gs) (hc : 0 < c)
    (hcap : c < capacity) (he : e ≠ 0) (hnew : ∀ x < c, s.element x ≠ e)
    (hrem : ∀ k, s.victim = some k → spec.Removable s.map k) :
    ∃ s' gs', s.evict ops e = some s' ∧ Sound spec c s' gs' ∧
      (Ascending gs → total (pairs s.element gs) + 1 < 2 ^ 64 →
        Ascending gs' ∧ Step c e (pairs s.element gs) (pairs s'.element gs')) := by
  obtain ⟨s₁, g, bs, q, rfl, hq, hevict, hs₁, helem⟩ := hs.takeOver hc hcap he hnew hrem
  have hsplit : Sound spec c s₁ ([] ++ g :: bs) := hs₁
  obtain ⟨s', gs', hinc, hs', hraised⟩ := hsplit.increment hcap hq
  refine ⟨s', gs', hevict.trans hinc, hs', ?_⟩
  intro hasc htotal
  have hnodup : (members ([] ++ g :: bs)).Nodup := hs.rings.nodup
  obtain ⟨rest, hold, hmid⟩ := pairs_update s.element hnodup hq e
  obtain ⟨rest', hmid', hnew'⟩ := hraised.pairs
  rw [helem, Function.update_self] at hmid' hnew'
  obtain rfl := (Multiset.cons_inj_right _).mp (hmid.symm.trans hmid')
  rw [List.nil_append] at hold
  obtain ⟨hlt, hcount⟩ := increment_eq (e := s.element q) (v := g.value)
    (hold ▸ Multiset.mem_cons_self ..) htotal
  refine ⟨hraised.ascending hlt hasc, ?_⟩
  have hfirst := hasc.first_le s.element
  have hcard : (pairs s.element (g :: bs)).card = c := by
    rw [card_pairs, hs.all, Multiset.card_range]
  have hkeys : e ∉ keys (pairs s.element (g :: bs)) := by
    intro hmem
    obtain ⟨v, hv⟩ := mem_keys.mp hmem
    obtain ⟨k, hk, z, hz, heq⟩ := mem_pairs.mp hv
    exact hnew z (hs.lt_of_mem hk hz) (congrArg Prod.fst heq)
  rw [hold] at hfirst hcard hkeys ⊢
  rw [hnew', hcount]
  exact Step.replace _ _ _ hkeys hcard fun p hp => hfirst p (Multiset.mem_cons_of_mem hp)

/-- `Process` of any nonzero element. -/
theorem Sound.process {spec : ops.Contract capacity} (hs : Sound spec c s gs) (hc : 0 < c)
    (hcap : c < capacity) (he : e ≠ 0)
    (hrem : (∀ x < c, s.element x ≠ e) → ∀ k, s.victim = some k → spec.Removable s.map k) :
    ∃ s' gs', s.process ops e = some s' ∧ Sound spec c s' gs' ∧
      (Ascending gs → total (pairs s.element gs) + 1 < 2 ^ 64 →
        Ascending gs' ∧ Step c e (pairs s.element gs) (pairs s'.element gs')) := by
  obtain ⟨f, hf, hidx⟩ := hs.indexed
  have hfits := hidx.fits hcap
  cases hfe : f e with
  | none =>
      have hnew : ∀ x < c, s.element x ≠ e := by
        rintro x hx rfl
        rw [(hidx _ x).mpr ⟨he, hx, rfl⟩] at hfe
        cases hfe
      obtain ⟨s', gs', hevict, hrest⟩ := hs.evict hc hcap he hnew (hrem hnew)
      refine ⟨s', gs', ?_, hrest⟩
      simp [State.process, spec.find_none hf hfits he hfe, hevict]
  | some x =>
      obtain ⟨-, hx, hxe⟩ := (hidx e x).mp hfe
      obtain ⟨as, g, bs, rfl, hxg⟩ := hs.exists_group hx
      obtain ⟨i, hi, hvalue, -⟩ := spec.find_some hf hfits hfe
      obtain ⟨s', gs', hinc, hs', hraised⟩ := hs.increment hcap hxg
      refine ⟨s', gs', ?_, hs', ?_⟩
      · simp [State.process, hi, hvalue, hinc]
      · intro hasc htotal
        obtain ⟨rest, hold, hnew⟩ := hraised.pairs
        rw [hxe] at hold hnew
        obtain ⟨hlt, hcount⟩ := increment_eq (e := e) (v := g.value)
          (hold ▸ Multiset.mem_cons_self ..) htotal
        refine ⟨hraised.ascending hlt hasc, ?_⟩
        rw [hold, hnew, hcount]
        exact Step.hit _ _

end PowerLawRocksdb.LinkedTracker
