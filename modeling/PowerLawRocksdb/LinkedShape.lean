import PowerLawRocksdb.LinkedTracker
import Mathlib.Data.Multiset.AddSub
import Mathlib.Logic.Equiv.Basic

/-!
# The shape of the linked tracker

The nodes of a state are read as a list of groups, one for each `Parent` from
`smallest_` to `largest_`, with the circle of children that it owns. Between the
steps of an update a group may be empty, and a child may belong to no group.

Each pointer operation of the tracker is described once, by the groups before and
after it and by what it does to the elements.
-/
namespace PowerLawRocksdb.LinkedTracker
open LinkedHeap
open SpaceSaving (Key)

variable {M : Type}

structure Group where
  parent : ParentId
  value : ℕ
  child : Option ChildId
  ring : Cycle ChildId

/-- The child `x` belongs to the parent `p`, and `y` is the next one. -/
def Points (children : Heap Child) (p : ParentId) (x y : ChildId) : Prop :=
  ∃ n, children.read x = some n ∧ n.parent = some p ∧ n.next = some y

/-- The parent `p` stands between `l` and `r`. -/
def Beside (parents : Heap Parent) (p : ParentId) (l r : Option ParentId) : Prop :=
  ∃ n, parents.read p = some n ∧ n.left = l ∧ n.right = r

def Group.Heads (parents : Heap Parent) (g : Group) : Prop :=
  ∃ n, parents.read g.parent = some n ∧ n.child = g.child ∧ n.value = g.value

/-- A group is entered at one of its children; only an empty group has none. -/
def Group.Rooted (g : Group) : Prop :=
  match g.child with
  | none => g.ring = Cycle.nil
  | some q => q ∈ g.ring

def members : List Group → Multiset ChildId
  | [] => 0
  | g :: gs => g.ring.toMultiset + members gs

/-- The parents of the groups are linked in order. -/
structure Spine (s : State M) (gs : List Group) : Prop where
  linked : Linked (Beside s.parents) none (gs.map Group.parent) none
  heads : ∀ g ∈ gs, g.Heads s.parents
  distinct : (gs.map Group.parent).Nodup
  smallest : s.smallest = firstOf (gs.map Group.parent) none
  largest : s.largest = lastOf none (gs.map Group.parent)

/-- The children of each group form a circle and point back to its parent. -/
structure Rings (children : Heap Child) (gs : List Group) : Prop where
  chain : ∀ g ∈ gs, g.ring.Chain (Points children g.parent)
  rooted : ∀ g ∈ gs, g.Rooted
  nodup : (members gs).Nodup

structure Shape (s : State M) (gs : List Group) : Prop extends Spine s gs where
  rings : Rings s.children gs

def State.element (s : State M) (x : ChildId) : Key :=
  ((s.children.read x).map Child.element).getD 0

variable {ops : MapOps M} {s s' : State M} {gs as bs : List Group} {g g' h : Group}
  {x y : ChildId} {l : List ChildId}

@[simp] theorem members_append : members (as ++ bs) = members as + members bs := by
  induction as with
  | nil => simp [members]
  | cons g as ih => simp [members, ih, add_assoc]

theorem mem_members : x ∈ members gs ↔ ∃ g ∈ gs, x ∈ g.ring := by
  induction gs with
  | nil => simp [members]
  | cons g gs ih => simp [members, ih, mem_toMultiset]

theorem mem_around {k : Group} (hk : k ∈ as ∨ k ∈ bs) (g : Group) : k ∈ as ++ g :: bs :=
  List.mem_append.mpr (hk.imp id (List.mem_cons_of_mem g))

theorem State.element_eq {n : Child} (h : s.children.read x = some n) :
    s.element x = n.element := by
  unfold State.element
  rw [h]
  rfl

theorem Spine.parent_ne (h : Spine s (as ++ g :: bs)) {k : Group} (hk : k ∈ as ∨ k ∈ bs) :
    k.parent ≠ g.parent := by
  have hd := h.distinct
  rw [List.map_append, List.map_cons, List.nodup_middle, List.nodup_cons] at hd
  intro heq
  apply hd.1
  rw [← heq, ← List.map_append]
  exact List.mem_map_of_mem (List.mem_append.mpr hk)

theorem Rings.ne (h : Rings s.children (as ++ g :: bs)) {k : Group} (hk : k ∈ as ∨ k ∈ bs)
    (hx : x ∈ k.ring) : x ∉ g.ring := by
  have hd := h.nodup
  rw [members_append, members, add_left_comm, Multiset.nodup_add] at hd
  intro hg
  apply Multiset.disjoint_left.mp hd.2.2 (mem_toMultiset.mpr hg)
  rw [← members_append]
  exact mem_members.mpr ⟨k, List.mem_append.mpr hk, hx⟩

theorem Rings.ring_nodup {children : Heap Child} (h : Rings children (as ++ g :: bs))
    (hring : g.ring = (l : Cycle ChildId)) : l.Nodup := by
  have hd := h.nodup
  rw [members_append, members, hring] at hd
  exact (Multiset.nodup_add.mp (Multiset.nodup_add.mp hd).2.1).1

theorem Beside.congr {parents parents' : Heap Parent} {p : ParentId} {l r : Option ParentId}
    (h : Beside parents p l r) (hp : parents'.read p = parents.read p) :
    Beside parents' p l r := by
  unfold Beside
  rwa [hp]

theorem Group.Heads.congr {parents parents' : Heap Parent} (h : g.Heads parents)
    (hp : parents'.read g.parent = parents.read g.parent) : g.Heads parents' := by
  unfold Group.Heads
  rwa [hp]

/-- The groups `ms` in the middle are exchanged for `ms'`, and all other parent nodes
are left alone. -/
theorem Spine.splice {ms ms' : List Group} (h : Spine s (as ++ ms ++ bs))
    (hold : ∀ k, k ∈ as ∨ k ∈ bs → s'.parents.read k.parent = s.parents.read k.parent)
    (hfirst : as ≠ [] → ∀ n, firstOf (ms'.map Group.parent) n = firstOf (ms.map Group.parent) n)
    (hlast : bs ≠ [] → ∀ p, lastOf p (ms'.map Group.parent) = lastOf p (ms.map Group.parent))
    (hlinked : Linked (Beside s'.parents) (lastOf none (as.map Group.parent))
      (ms'.map Group.parent) (firstOf (bs.map Group.parent) none))
    (hheads : ∀ k ∈ ms', k.Heads s'.parents)
    (hdistinct : ((as ++ ms' ++ bs).map Group.parent).Nodup)
    (hsmallest : s'.smallest = firstOf ((as ++ ms' ++ bs).map Group.parent) none)
    (hlargest : s'.largest = lastOf none ((as ++ ms' ++ bs).map Group.parent)) :
    Spine s' (as ++ ms' ++ bs) := by
  have hl := h.linked
  simp only [List.map_append, linked_append, lastOf_append] at hl
  have hcongr : ∀ ks : List Group, (∀ k ∈ ks, k ∈ as ∨ k ∈ bs) → ∀ p n,
      Linked (Beside s.parents) p (ks.map Group.parent) n →
      Linked (Beside s'.parents) p (ks.map Group.parent) n := by
    intro ks hks p n hlk
    apply hlk.congr
    intro i hi l r hb
    obtain ⟨k, hk, rfl⟩ := List.mem_map.mp hi
    exact hb.congr (hold k (hks k hk))
  refine ⟨?_, ?_, hdistinct, hsmallest, hlargest⟩
  · simp only [List.map_append, linked_append, lastOf_append]
    refine ⟨⟨?_, hlinked⟩, ?_⟩
    · cases as with
      | nil => trivial
      | cons a as =>
          rw [hfirst (List.cons_ne_nil a as)]
          exact hcongr _ (fun k hk => Or.inl hk) _ _ hl.1.1
    · cases bs with
      | nil => trivial
      | cons b bs =>
          rw [hlast (List.cons_ne_nil b bs)]
          exact hcongr _ (fun k hk => Or.inr hk) _ _ hl.2
  · intro k hk
    rcases List.mem_append.mp hk with hk | hk
    · rcases List.mem_append.mp hk with hk | hk
      · exact (h.heads k (by simp [hk])).congr (hold k (Or.inl hk))
      · exact hheads k hk
    · exact (h.heads k (by simp [hk])).congr (hold k (Or.inr hk))

theorem Spine.replace (h : Spine s (as ++ g :: bs))
    (hg : g'.parent = g.parent)
    (hread : ∀ b, s'.parents.read b = if b = g.parent then
      some ⟨lastOf none (as.map Group.parent), firstOf (bs.map Group.parent) none, g'.child,
        g'.value⟩ else s.parents.read b)
    (hs : s'.smallest = s.smallest) (hl : s'.largest = s.largest) :
    Spine s' (as ++ g' :: bs) := by
  have hids : (as ++ [g'] ++ bs).map Group.parent = (as ++ [g] ++ bs).map Group.parent := by
    simp [hg]
  have hnew := (hread g'.parent).trans (if_pos hg)
  rw [List.append_cons as g' bs]
  rw [List.append_cons as g bs] at h
  apply h.splice
  · intro k hk
    rw [hread, if_neg (Spine.parent_ne (by simpa using h) hk)]
  · intro _ n
    simp [hg]
  · intro _ p
    simp [hg]
  · exact ⟨⟨_, hnew, rfl, by simp⟩, trivial⟩
  · intro k hk
    cases List.mem_singleton.mp hk
    exact ⟨_, hnew, rfl, rfl⟩
  · rw [hids]
    exact h.distinct
  · rw [hids, hs, h.smallest]
  · rw [hids, hl, h.largest]

theorem Spine.read (h : Spine s (as ++ g :: bs)) :
    s.parents.read g.parent = some ⟨lastOf none (as.map Group.parent),
      firstOf (bs.map Group.parent) none, g.child, g.value⟩ := by
  have hl := h.linked
  rw [List.map_append, List.map_cons, linked_append] at hl
  obtain ⟨n, hn, hleft, hright⟩ := hl.2.1
  obtain ⟨m, hm, hchild, hvalue⟩ := h.heads g (by simp)
  cases hn.symm.trans hm
  rw [hn, ← hleft, ← hright, ← hchild, ← hvalue]

theorem Spine.dropFirst (hs : Spine s (g :: h :: bs)) :
    ∃ s', s.dropParent g.parent = some s' ∧ Spine s' (h :: bs) ∧
      s'.children = s.children ∧ s'.map = s.map := by
  have hsg : Spine s ([] ++ g :: h :: bs) := hs
  have hsh : Spine s ([g] ++ h :: bs) := hs
  have hg : s.parents.read g.parent = some ⟨none, some h.parent, g.child, g.value⟩ := hsg.read
  have hh := hsh.read
  have hhg : h.parent ≠ g.parent := hsg.parent_ne (Or.inr List.mem_cons_self)
  obtain ⟨parents, hp, -, hread⟩ := Heap.modify_eq hh fun n => { n with left := none }
  have hnew : (parents.free g.parent).read h.parent =
      some ⟨none, firstOf (bs.map Group.parent) none, h.child, h.value⟩ := by
    rw [Heap.read_free, if_neg hhg, hread, if_pos rfl]
  refine ⟨{ s with parents := parents.free g.parent, smallest := some h.parent }, ?_, ?_, rfl, rfl⟩
  · simp [State.dropParent, hg, hs.smallest, hp]
  · have hms : Spine s ([] ++ [g, h] ++ bs) := hs
    suffices key : Spine { s with parents := parents.free g.parent, smallest := some h.parent }
        ([] ++ [h] ++ bs) from key
    apply hms.splice
    · intro k hk
      replace hk := hk.resolve_left List.not_mem_nil
      rw [Heap.read_free, if_neg (hsg.parent_ne (Or.inr (by simp [hk]))), hread,
        if_neg (hsh.parent_ne (Or.inr hk))]
    · exact fun h => absurd rfl h
    · intro _ p
      simp
    · exact ⟨⟨_, hnew, rfl, rfl⟩, trivial⟩
    · intro k hk
      cases List.mem_singleton.mp hk
      exact ⟨_, hnew, rfl, rfl⟩
    · exact (List.nodup_cons.mp hs.distinct).2
    · rfl
    · rw [hs.largest]
      simp

theorem Spine.dropInner {a : Group} (hs : Spine s (as ++ a :: g :: h :: bs)) :
    ∃ s', s.dropParent g.parent = some s' ∧ Spine s' (as ++ a :: h :: bs) ∧
      s'.children = s.children ∧ s'.map = s.map := by
  have hsg : Spine s ((as ++ [a]) ++ g :: h :: bs) := by simpa using hs
  have hsh : Spine s ((as ++ [a, g]) ++ h :: bs) := by simpa using hs
  have ha := hs.read
  have hg : s.parents.read g.parent = some ⟨some a.parent, some h.parent, g.child, g.value⟩ := by
    simpa using hsg.read
  have hh := hsh.read
  have hga : g.parent ≠ a.parent := hs.parent_ne (Or.inr (by simp))
  have hha : h.parent ≠ a.parent := hs.parent_ne (Or.inr (by simp))
  have hhg : h.parent ≠ g.parent := hsg.parent_ne (Or.inr (by simp))
  obtain ⟨ps, hps, -, hread⟩ := Heap.modify_eq hh fun n => { n with left := some a.parent }
  have ha' : ps.read a.parent = s.parents.read a.parent := by
    rw [hread, if_neg hha.symm]
  obtain ⟨parents, hp, -, hread'⟩ :=
    Heap.modify_eq (ha'.trans ha) fun n => { n with right := some h.parent }
  have hnewa : (parents.free g.parent).read a.parent =
      some ⟨lastOf none (as.map Group.parent), some h.parent, a.child, a.value⟩ := by
    rw [Heap.read_free, if_neg hga.symm, hread', if_pos rfl]
  have hnewh : (parents.free g.parent).read h.parent =
      some ⟨some a.parent, firstOf (bs.map Group.parent) none, h.child, h.value⟩ := by
    rw [Heap.read_free, if_neg hhg, hread', if_neg hha, hread, if_pos rfl]
  have hnot : ¬ some g.parent = s.smallest := by
    rw [hs.smallest]
    cases as with
    | nil => simpa using hga
    | cons b as => simpa using hsg.parent_ne (k := b) (Or.inl (by simp)) |>.symm
  refine ⟨{ s with parents := parents.free g.parent }, ?_, ?_, rfl, rfl⟩
  · simp [State.dropParent, hg, hnot, hps, hp]
  · have hms : Spine s (as ++ [a, g, h] ++ bs) := by simpa using hs
    suffices key : Spine { s with parents := parents.free g.parent } (as ++ [a, h] ++ bs) by
      simpa using key
    apply hms.splice
    · intro k hk
      have hkg := hsg.parent_ne
        (hk.imp (List.mem_append_left [a]) (List.mem_cons_of_mem h))
      have hka := hs.parent_ne
        (hk.imp id fun hb => List.mem_cons_of_mem g (List.mem_cons_of_mem h hb))
      have hkh := hsh.parent_ne (hk.imp (List.mem_append_left [a, g]) id)
      rw [Heap.read_free, if_neg hkg, hread', if_neg hka, hread, if_neg hkh]
    · intro _ n
      rfl
    · intro _ p
      simp
    · exact ⟨⟨_, hnewa, rfl, rfl⟩, ⟨_, hnewh, rfl, rfl⟩, trivial⟩
    · intro k hk
      rcases List.mem_pair.mp hk with rfl | rfl
      · exact ⟨_, hnewa, rfl, rfl⟩
      · exact ⟨_, hnewh, rfl, rfl⟩
    · refine hs.distinct.sublist (List.Sublist.map _ ?_)
      simp
    · rw [hs.smallest]
      simp
    · rw [hs.largest]
      simp

theorem Spine.dropParent (hs : Spine s (as ++ g :: h :: bs)) :
    ∃ s', s.dropParent g.parent = some s' ∧ Spine s' (as ++ h :: bs) ∧
      s'.children = s.children ∧ s'.map = s.map := by
  rcases List.eq_nil_or_concat as with rfl | ⟨as, a, rfl⟩
  · exact hs.dropFirst
  · have hsa : Spine s (as ++ a :: g :: h :: bs) := by simpa using hs
    simpa using hsa.dropInner

theorem Spine.fresh_ne (hs : Spine s gs) (hg : g ∈ gs) : g.parent ≠ s.parents.fresh := by
  obtain ⟨n, hn, -⟩ := hs.heads g hg
  exact (Heap.lt_fresh hn).ne

theorem Spine.distinct_insert (hs : Spine s (as ++ bs)) (hg : g.parent = s.parents.fresh) :
    ((as ++ g :: bs).map Group.parent).Nodup := by
  rw [List.map_append, List.map_cons, List.nodup_middle, List.nodup_cons, ← List.map_append]
  constructor
  · intro hmem
    obtain ⟨k, hk, heq⟩ := List.mem_map.mp hmem
    exact hs.fresh_ne hk (heq.trans hg)
  · exact hs.distinct

theorem Spine.newLast (hs : Spine s (as ++ [g])) {b : Child} {count : ℕ}
    (hb : s.children.read x = some b) (hparent : b.parent = some g.parent) :
    ∃ s', s.newParent x count none = some (s', s.parents.fresh) ∧
      Spine s' (as ++ [g, ⟨s.parents.fresh, count, none, Cycle.nil⟩]) ∧
      s'.children = s.children ∧ s'.map = s.map := by
  have hg := hs.read
  have hq : ∀ k ∈ as ++ [g], k.parent ≠ s.parents.fresh := fun k => hs.fresh_ne
  have hgq : g.parent ≠ s.parents.fresh := hq g (by simp)
  obtain ⟨parents, hp, -, hread⟩ := Heap.modify_eq
    (((s.parents.read_alloc { Parent.init with left := some g.parent, value := count }
      g.parent).trans (if_neg hgq)).trans hg)
    fun n => { n with right := some s.parents.fresh }
  have hnewq : parents.read s.parents.fresh = some ⟨some g.parent, none, none, count⟩ := by
    rw [hread, if_neg hgq.symm, Heap.read_alloc, if_pos rfl]
    rfl
  have hnewg : parents.read g.parent =
      some ⟨lastOf none (as.map Group.parent), some s.parents.fresh, g.child, g.value⟩ := by
    rw [hread, if_pos rfl]
  refine ⟨{ s with parents, largest := some s.parents.fresh }, ?_, ?_, rfl, rfl⟩
  · simp [State.newParent, hb, hparent, hp]
  · have hms : Spine s (as ++ [g] ++ []) := by simpa using hs
    suffices key : Spine { s with parents, largest := some s.parents.fresh }
        (as ++ [g, ⟨s.parents.fresh, count, none, Cycle.nil⟩] ++ []) by simpa using key
    apply hms.splice
    · intro k hk
      replace hk := hk.resolve_right List.not_mem_nil
      rw [hread, if_neg (hs.parent_ne (Or.inl hk)), Heap.read_alloc,
        if_neg (hq k (by simp [hk]))]
    · intro _ n
      rfl
    · exact fun h => absurd rfl h
    · exact ⟨⟨_, hnewg, rfl, rfl⟩, ⟨_, hnewq, rfl, rfl⟩, trivial⟩
    · intro k hk
      rcases List.mem_pair.mp hk with rfl | rfl
      · exact ⟨_, hnewg, rfl, rfl⟩
      · exact ⟨_, hnewq, rfl, rfl⟩
    · simpa using hms.distinct_insert (g := ⟨s.parents.fresh, count, none, Cycle.nil⟩) rfl
    · rw [hs.smallest]
      simp
    · simp

theorem Spine.newInner (hs : Spine s (as ++ g :: h :: bs)) {b : Child} {count : ℕ}
    (hb : s.children.read x = some b) (hparent : b.parent = some g.parent) :
    ∃ s', s.newParent x count (some h.parent) = some (s', s.parents.fresh) ∧
      Spine s' (as ++ g :: ⟨s.parents.fresh, count, none, Cycle.nil⟩ :: h :: bs) ∧
      s'.children = s.children ∧ s'.map = s.map := by
  have hsh : Spine s ((as ++ [g]) ++ h :: bs) := by simpa using hs
  have hg := hs.read
  have hq : ∀ k ∈ as ++ g :: h :: bs, k.parent ≠ s.parents.fresh := fun k => hs.fresh_ne
  have hgq : g.parent ≠ s.parents.fresh := hq g (by simp)
  have hhq : h.parent ≠ s.parents.fresh := hq h (by simp)
  have hhg : h.parent ≠ g.parent := hs.parent_ne (Or.inr (by simp))
  obtain ⟨ps, hps, -, hread⟩ := Heap.modify_eq
    (((s.parents.read_alloc { Parent.init with left := some g.parent, value := count }
      g.parent).trans (if_neg hgq)).trans hg)
    fun n => { n with right := some s.parents.fresh }
  have hpsq : ps.read s.parents.fresh = some ⟨some g.parent, none, none, count⟩ := by
    rw [hread, if_neg hgq.symm, Heap.read_alloc, if_pos rfl]
    rfl
  obtain ⟨ps', hps', -, hread'⟩ :=
    Heap.modify_eq hpsq fun n => { n with right := some h.parent }
  have hpsh : ps'.read h.parent = s.parents.read h.parent := by
    rw [hread', if_neg hhq, hread, if_neg hhg, Heap.read_alloc, if_neg hhq]
  obtain ⟨parents, hp, -, hread''⟩ :=
    Heap.modify_eq (hpsh.trans hsh.read) fun n => { n with left := some s.parents.fresh }
  have hnewg : parents.read g.parent =
      some ⟨lastOf none (as.map Group.parent), some s.parents.fresh, g.child, g.value⟩ := by
    rw [hread'', if_neg hhg.symm, hread', if_neg hgq, hread, if_pos rfl]
  have hnewq : parents.read s.parents.fresh =
      some ⟨some g.parent, some h.parent, none, count⟩ := by
    rw [hread'', if_neg hhq.symm, hread', if_pos rfl]
  have hnewh : parents.read h.parent = some ⟨some s.parents.fresh,
      firstOf (bs.map Group.parent) none, h.child, h.value⟩ := by
    rw [hread'', if_pos rfl]
  refine ⟨{ s with parents }, ?_, ?_, rfl, rfl⟩
  · simp [State.newParent, hb, hparent, hps, hps', hp]
  · have hms : Spine s (as ++ [g, h] ++ bs) := by simpa using hs
    suffices key : Spine { s with parents }
        (as ++ [g, ⟨s.parents.fresh, count, none, Cycle.nil⟩, h] ++ bs) by simpa using key
    apply hms.splice
    · intro k hk
      have hk' := hk.imp id (List.mem_cons_of_mem h)
      have hkh := hsh.parent_ne (hk.imp (List.mem_append_left [g]) id)
      have hkq := hq k (mem_around hk' g)
      rw [hread'', if_neg hkh, hread', if_neg hkq, hread, if_neg (hs.parent_ne hk'),
        Heap.read_alloc, if_neg hkq]
    · intro _ n
      rfl
    · intro _ p
      simp
    · exact ⟨⟨_, hnewg, rfl, rfl⟩, ⟨_, hnewq, rfl, rfl⟩, ⟨_, hnewh, rfl, rfl⟩, trivial⟩
    · simp only [List.mem_cons, List.not_mem_nil, or_false]
      rintro k (rfl | rfl | rfl)
      · exact ⟨_, hnewg, rfl, rfl⟩
      · exact ⟨_, hnewq, rfl, rfl⟩
      · exact ⟨_, hnewh, rfl, rfl⟩
    · simpa using hsh.distinct_insert (g := ⟨s.parents.fresh, count, none, Cycle.nil⟩) rfl
    · rw [hs.smallest]
      simp
    · rw [hs.largest]
      simp

theorem Spine.newParent (hs : Spine s (as ++ g :: bs)) {b : Child} (count : ℕ)
    (hb : s.children.read x = some b) (hparent : b.parent = some g.parent) :
    ∃ s', s.newParent x count (firstOf (bs.map Group.parent) none) =
        some (s', s.parents.fresh) ∧
      Spine s' (as ++ g :: ⟨s.parents.fresh, count, none, Cycle.nil⟩ :: bs) ∧
      s'.children = s.children ∧ s'.map = s.map := by
  cases bs with
  | nil => exact hs.newLast hb hparent
  | cons h bs => exact hs.newInner hb hparent

theorem Rings.replace {children children' : Heap Child} (h : Rings children (as ++ g :: bs))
    (hold : ∀ k, k ∈ as ∨ k ∈ bs → ∀ x ∈ k.ring, children'.read x = children.read x)
    (hchain : g'.ring.Chain (Points children' g'.parent)) (hrooted : g'.Rooted)
    (hnodup : (members (as ++ g' :: bs)).Nodup) : Rings children' (as ++ g' :: bs) := by
  have hcase : ∀ k ∈ as ++ g' :: bs, k = g' ∨ k ∈ as ∨ k ∈ bs := by
    intro k hk
    simp only [List.mem_append, List.mem_cons] at hk
    tauto
  refine ⟨?_, ?_, hnodup⟩
  · intro k hk
    rcases hcase k hk with rfl | hk
    · exact hchain
    · apply chain_congr (h.chain k (mem_around hk g))
      intro x hx y hxy
      unfold Points
      rwa [hold k hk x hx]
  · intro k hk
    rcases hcase k hk with rfl | hk
    · exact hrooted
    · exact h.rooted k (mem_around hk g)

theorem Shape.addFirst (hs : Shape s (as ++ g :: bs)) {c : ChildId} {n : Child}
    (hc : s.children.read c = some n) (hnew : c ∉ members (as ++ g :: bs))
    (hchild : g.child = none) :
    ∃ s', s.add g.parent c = some s' ∧
      Shape s' (as ++ ⟨g.parent, g.value, some c, (([c] : List ChildId) : Cycle ChildId)⟩ :: bs) ∧
      s'.map = s.map ∧ s'.element = s.element ∧ s'.children.length = s.children.length := by
  have hg := hs.read
  have hring : g.ring = Cycle.nil := by
    have hroot := hs.rings.rooted g (by simp)
    unfold Group.Rooted at hroot
    rwa [hchild] at hroot
  obtain ⟨ch₁, h₁, hlen₁, hread₁⟩ :=
    Heap.modify_eq hc fun n => { n with parent := some g.parent }
  obtain ⟨parents, hp, -, hreadp⟩ := Heap.modify_eq hg fun n => { n with child := some c }
  obtain ⟨ch₂, h₂, hlen₂, hread₂⟩ := Heap.modify_eq ((hread₁ c).trans (if_pos rfl))
    fun n => { n with next := some c }
  have hreadc : ∀ b, ch₂.read b =
      if b = c then some ⟨some g.parent, some c, n.element⟩ else s.children.read b := by
    intro b
    rw [hread₂]
    split_ifs with hb
    · rfl
    · rw [hread₁, if_neg hb]
  refine ⟨{ s with parents, children := ch₂ }, ?_, ⟨?_, ?_⟩, rfl, ?_, hlen₂.trans hlen₁⟩
  · simp [State.add, h₁, hg, hchild, hp, h₂]
  · exact hs.toSpine.replace rfl hreadp rfl rfl
  · apply hs.rings.replace
    · intro k hk x hx
      rw [hreadc, if_neg]
      rintro rfl
      exact hnew (mem_members.mpr ⟨k, mem_around hk g, hx⟩)
    · rw [Cycle.chain_singleton]
      exact ⟨_, (hreadc c).trans (if_pos rfl), rfl, rfl⟩
    · exact Cycle.mem_coe_iff.mpr (List.mem_singleton_self c)
    · have hnodup := hs.rings.nodup
      simp only [members_append, members, hring, Cycle.nil_toMultiset, zero_add] at hnodup hnew ⊢
      rw [Cycle.coe_toMultiset, Multiset.coe_singleton, add_left_comm, Multiset.singleton_add,
        Multiset.nodup_cons]
      exact ⟨hnew, hnodup⟩
  · funext x
    unfold State.element
    rw [hreadc]
    split_ifs with hx
    · rw [hx, hc]
      rfl
    · rfl

theorem Shape.addNext (hs : Shape s (as ++ g :: bs)) {c q : ChildId} {n : Child}
    (hc : s.children.read c = some n) (hnew : c ∉ members (as ++ g :: bs))
    (hchild : g.child = some q) (hring : g.ring = ((q :: l : List ChildId) : Cycle ChildId)) :
    ∃ s', s.add g.parent c = some s' ∧
      Shape s' (as ++ ⟨g.parent, g.value, some c,
        ((q :: c :: l : List ChildId) : Cycle ChildId)⟩ :: bs) ∧
      s'.map = s.map ∧ s'.element = s.element ∧ s'.children.length = s.children.length := by
  have hg := hs.read
  have hmem : ∀ x ∈ g.ring, x ≠ c := by
    rintro x hx rfl
    exact hnew (mem_members.mpr ⟨g, by simp, hx⟩)
  have hqc : q ≠ c := hmem q (by simp [hring])
  have hfree := hnew
  have hchain := hs.rings.chain g (by simp)
  rw [hring] at hchain
  have hnodup := hs.rings.nodup
  simp only [members_append, members, hring, Cycle.coe_toMultiset] at hnodup hnew
  have hql : q ∉ l := (List.nodup_cons.mp (hs.rings.ring_nodup hring)).1
  obtain ⟨y, nq, hq, hqparent, hqnext⟩ := exists_next hchain (x := q) (by simp)
  obtain ⟨ch₁, h₁, hlen₁, hread₁⟩ :=
    Heap.modify_eq hc fun n => { n with parent := some g.parent }
  have hq₁ : ch₁.read q = some nq := by rw [hread₁, if_neg hqc, hq]
  obtain ⟨ch₂, h₂, hlen₂, hread₂⟩ := Heap.modify_eq ((hread₁ c).trans (if_pos rfl))
    fun n => { n with next := nq.next }
  have hq₂ : ch₂.read q = some nq := by rw [hread₂, if_neg hqc, hq₁]
  obtain ⟨ch₃, h₃, hlen₃, hread₃⟩ := Heap.modify_eq hq₂ fun n => { n with next := some c }
  obtain ⟨parents, hp, -, hreadp⟩ := Heap.modify_eq hg fun n => { n with child := some c }
  have hreadc : ch₃.read c = some ⟨some g.parent, nq.next, n.element⟩ := by
    rw [hread₃, if_neg hqc.symm, hread₂, if_pos rfl]
  have hreadq : ch₃.read q = some { nq with next := some c } := by
    rw [hread₃, if_pos rfl]
  have hold : ∀ b, b ≠ q → b ≠ c → ch₃.read b = s.children.read b := by
    intro b hbq hbc
    rw [hread₃, if_neg hbq, hread₂, if_neg hbc, hread₁, if_neg hbc]
  refine ⟨{ s with parents, children := ch₃ }, ?_, ⟨?_, ?_⟩, rfl, ?_,
    hlen₃.trans (hlen₂.trans hlen₁)⟩
  · simp [State.add, h₁, hg, hchild, hq₁, h₂, h₃, hp]
  · exact hs.toSpine.replace rfl hreadp rfl rfl
  · apply hs.rings.replace
    · intro k hk x hx
      apply hold
      · rintro rfl
        exact hs.rings.ne hk hx (by simp [hring])
      · rintro rfl
        exact hfree (mem_members.mpr ⟨k, mem_around hk g, hx⟩)
    · apply chain_insert hchain
      · exact ⟨_, hreadq, hqparent, rfl⟩
      · rintro b ⟨m, hm, hmp, hmn⟩
        cases hq.symm.trans hm
        exact ⟨_, hreadc, rfl, hmn⟩
      · rintro a ha b ⟨m, hm, hab⟩
        refine ⟨m, ?_, hab⟩
        rw [hold a (by rintro rfl; exact hql ha) (hmem a (by simp [hring, ha])), hm]
    · exact Cycle.mem_coe_iff.mpr (by simp)
    · rw [members_append, members, Cycle.coe_toMultiset, ← Multiset.cons_coe, ← Multiset.cons_coe,
        Multiset.cons_swap, Multiset.cons_add, Multiset.add_cons, Multiset.cons_coe]
      exact Multiset.nodup_cons.mpr ⟨hnew, hnodup⟩
  · funext x
    unfold State.element
    by_cases hxq : x = q
    · rw [hxq, hreadq, hq]
      rfl
    · by_cases hxc : x = c
      · rw [hxc, hreadc, hc]
        rfl
      · rw [hold x hxq hxc]

/-- `Add` puts a loose child into a group. -/
theorem Shape.add (hs : Shape s (as ++ g :: bs)) {c : ChildId} {n : Child}
    (hc : s.children.read c = some n) (hnew : c ∉ members (as ++ g :: bs)) :
    ∃ s' ring, s.add g.parent c = some s' ∧ ring.toMultiset = c ::ₘ g.ring.toMultiset ∧
      Shape s' (as ++ ⟨g.parent, g.value, some c, ring⟩ :: bs) ∧
      s'.map = s.map ∧ s'.element = s.element ∧ s'.children.length = s.children.length := by
  have hroot := hs.rings.rooted g (by simp)
  unfold Group.Rooted at hroot
  cases hchild : g.child with
  | none =>
      rw [hchild] at hroot
      obtain ⟨s', hadd, hs', hrest⟩ := hs.addFirst hc hnew hchild
      exact ⟨s', _, hadd, by rw [hroot]; rfl, hs', hrest⟩
  | some q =>
      rw [hchild] at hroot
      obtain ⟨l, hl⟩ := exists_coe_cons hroot
      obtain ⟨s', hadd, hs', hrest⟩ := hs.addNext hc hnew hchild hl
      refine ⟨s', _, hadd, ?_, hs', hrest⟩
      rw [hl]
      exact Multiset.cons_swap q c l

/-- The nodes `x` and `y` swap their elements, and `x` is linked past `y`. -/
theorem swap_children {children : Heap Child} {nx ny : Child} (hxy : x ≠ y)
    (hx : children.read x = some nx) (hy : children.read y = some ny) :
    ∃ ch₁ ch₂ ch₃ : Heap Child,
      (children.modify x fun c => { c with element := ny.element }) = some ch₁ ∧
      (ch₁.modify y fun c => { c with element := nx.element }) = some ch₂ ∧
      (ch₂.modify x fun c => { c with next := ny.next }) = some ch₃ ∧
      ch₃.length = children.length ∧
      ch₃.read x = some ⟨nx.parent, ny.next, ny.element⟩ ∧
      ch₃.read y = some { ny with element := nx.element } ∧
      ∀ b, b ≠ x → b ≠ y → ch₃.read b = children.read b := by
  obtain ⟨ch₁, h₁, hlen₁, hread₁⟩ := Heap.modify_eq hx fun c => { c with element := ny.element }
  have hy₁ : ch₁.read y = some ny := by rw [hread₁, if_neg hxy.symm, hy]
  obtain ⟨ch₂, h₂, hlen₂, hread₂⟩ := Heap.modify_eq hy₁ fun c => { c with element := nx.element }
  have hx₂ : ch₂.read x = some { nx with element := ny.element } := by
    rw [hread₂, if_neg hxy, hread₁, if_pos rfl]
  obtain ⟨ch₃, h₃, hlen₃, hread₃⟩ := Heap.modify_eq hx₂ fun c => { c with next := ny.next }
  refine ⟨ch₁, ch₂, ch₃, h₁, h₂, h₃, hlen₃.trans (hlen₂.trans hlen₁), ?_, ?_, ?_⟩
  · rw [hread₃, if_pos rfl]
  · rw [hread₃, if_neg hxy.symm, hread₂, if_pos rfl]
  · intro b hbx hby
    rw [hread₃, if_neg hbx, hread₂, if_neg hby, hread₁, if_neg hbx]

/-- If a group was entered at the child `y` behind `x`, it is now entered at `x`. -/
theorem Group.Rooted.erase (h : g.Rooted)
    (hring : g.ring = ((x :: y :: l : List ChildId) : Cycle ChildId)) :
    ∃ q, (if g.child = some y then some x else g.child) = some q ∧ q ∈ x :: l := by
  unfold Group.Rooted at h
  rw [hring] at h
  cases hchild : g.child with
  | none =>
      rw [hchild] at h
      exact absurd (congrArg Cycle.length h) (by simp)
  | some q =>
      rw [hchild] at h
      by_cases hqy : q = y
      · exact ⟨x, if_pos (congrArg some hqy), List.mem_cons_self⟩
      · refine ⟨q, if_neg fun heq => hqy (Option.some.inj heq), ?_⟩
        have hmem := Cycle.mem_coe_iff.mp h
        simp only [List.mem_cons] at hmem ⊢
        tauto

/-- `Detach` of `x` with a sibling `y` behind it: the two swap their elements, and `y` is
loose afterwards. -/
theorem Shape.swapNext (hs : Shape s (as ++ g :: bs))
    (hring : g.ring = ((x :: y :: l : List ChildId) : Cycle ChildId)) {m₁ m₂ : M} {t₁ t₂ : ℕ}
    (h₁ : redirect ops s.map (s.element y) x (s.element x).toNat = some (m₁, t₁))
    (h₂ : redirect ops m₁ (s.element x) y t₁ = some (m₂, t₂)) :
    ∃ s' q n, s.detach ops x = some s' ∧
      Shape s' (as ++ ⟨g.parent, g.value, some q,
        ((x :: l : List ChildId) : Cycle ChildId)⟩ :: bs) ∧
      s'.map = m₂ ∧ (∀ z, s'.element z = s.element (Equiv.swap x y z)) ∧
      s'.children.length = s.children.length ∧
      s'.children.read y = some n ∧ n.parent = some g.parent := by
  have hg := hs.read
  have hchain := hs.rings.chain g (by simp)
  have hdistinct := hs.rings.ring_nodup hring
  simp only [List.nodup_cons, List.mem_cons, not_or] at hdistinct
  have hxy : x ≠ y := hdistinct.1.1
  obtain ⟨z, ny, hy, hyparent, hynext⟩ := exists_next hchain (x := y) (by simp [hring])
  rw [hring] at hchain
  obtain ⟨nx, hx, hxparent, hxnext⟩ := (List.isChain_cons_cons.mp hchain).1
  rw [State.element_eq hx, State.element_eq hy] at h₁
  rw [State.element_eq hx] at h₂
  obtain ⟨parents, hp, -, hreadp⟩ := Heap.modify_eq hg fun n =>
    if g.child = some y then { n with child := some x } else n
  obtain ⟨ch₁, ch₂, ch₃, hm₁, hm₂, hm₃, hlen, hreadx, hready, hold⟩ := swap_children hxy hx hy
  obtain ⟨q, hq, hqmem⟩ := (hs.rings.rooted g (by simp)).erase hring
  refine ⟨{ s with parents, children := ch₃, map := m₂ }, q, _, ?_, ⟨?_, ?_⟩, rfl, ?_, hlen,
    hready, hyparent⟩
  · have hswap : s.swapNext ops x y g.parent =
        some { s with parents, children := ch₃, map := m₂ } := by
      simp only [State.swapNext, hg, hp, hx, hy, hm₁, hm₂, hm₃, h₁, h₂, Option.bind_eq_bind,
        Option.bind_some]
    simp only [State.detach, hx, hxparent, hxnext, Option.bind_eq_bind, Option.bind_some,
      if_neg hxy.symm, hswap]
  · apply hs.toSpine.replace
    · rfl
    · intro b
      rw [hreadp, ← hq]
      split_ifs
      · rfl
      · rfl
      · rfl
    · rfl
    · rfl
  · apply hs.rings.replace
    · intro k hk b hb
      have hnot := hs.rings.ne hk hb
      rw [hring] at hnot
      apply hold
      · rintro rfl
        exact hnot (by simp)
      · rintro rfl
        exact hnot (by simp)
    · apply chain_erase hchain
      · rintro b ⟨m, hm, hmp, hmn⟩
        cases hy.symm.trans hm
        exact ⟨_, hreadx, hxparent, hmn⟩
      · rintro a ha b ⟨m, hm, hab⟩
        refine ⟨m, (hold a ?_ ?_).trans hm, hab⟩
        · rintro rfl
          exact hdistinct.1.2 ha
        · rintro rfl
          exact hdistinct.2.1 ha
    · exact Cycle.mem_coe_iff.mpr hqmem
    · have hnodup := hs.rings.nodup
      rw [members_append, members, hring, Cycle.coe_toMultiset, ← Multiset.cons_coe,
        ← Multiset.cons_coe, Multiset.cons_swap, Multiset.cons_add, Multiset.add_cons] at hnodup
      rw [members_append, members]
      exact (Multiset.nodup_cons.mp hnodup).2
  · intro b
    unfold State.element
    by_cases hbx : b = x
    · rw [hbx, Equiv.swap_apply_left, hreadx, hy]
      rfl
    · by_cases hby : b = y
      · rw [hby, Equiv.swap_apply_right, hready, hx]
        rfl
      · rw [Equiv.swap_apply_of_ne_of_ne hbx hby, hold b hbx hby]

/-- `Detach` of the only child of a group that is not the last: the group is dropped, and
the child is loose afterwards. -/
theorem Shape.dropOnly (ops : MapOps M) (hs : Shape s (as ++ g :: h :: bs))
    (hring : g.ring = (([x] : List ChildId) : Cycle ChildId)) :
    ∃ s' n, s.detach ops x = some s' ∧ Shape s' (as ++ h :: bs) ∧ s'.map = s.map ∧
      s'.children = s.children ∧ s.children.read x = some n := by
  have hchain := hs.rings.chain g (by simp)
  rw [hring, Cycle.chain_singleton] at hchain
  obtain ⟨n, hn, hparent, hnext⟩ := hchain
  obtain ⟨s', hdrop, hspine, hch, hmap⟩ := hs.toSpine.dropParent
  refine ⟨s', n, ?_, ⟨hspine, ?_⟩, hmap, hch, hn⟩
  · simp [State.detach, hn, hparent, hnext, hdrop]
  · rw [hch]
    have hmem : ∀ k ∈ as ++ h :: bs, k ∈ as ++ g :: h :: bs := by
      intro k hk
      exact mem_around (List.mem_append.mp hk) g
    refine ⟨fun k hk => hs.rings.chain k (hmem k hk), fun k hk => hs.rings.rooted k (hmem k hk), ?_⟩
    have hnodup := hs.rings.nodup
    rw [members_append, members, add_left_comm, ← members_append] at hnodup
    exact (Multiset.nodup_add.mp hnodup).2.1

/-- A new, empty group behind the parent of a loose child. -/
theorem Shape.newParent (hs : Shape s (as ++ g :: bs)) {b : Child} (count : ℕ)
    (hb : s.children.read x = some b) (hparent : b.parent = some g.parent) :
    ∃ s', s.newParent x count (firstOf (bs.map Group.parent) none) =
        some (s', s.parents.fresh) ∧
      Shape s' (as ++ g :: ⟨s.parents.fresh, count, none, Cycle.nil⟩ :: bs) ∧
      s'.children = s.children ∧ s'.map = s.map := by
  obtain ⟨s', hnew, hspine, hch, hmap⟩ := hs.toSpine.newParent count hb hparent
  refine ⟨s', hnew, ⟨hspine, ?_⟩, hch, hmap⟩
  rw [hch]
  have hcase : ∀ k ∈ as ++ g :: ⟨s.parents.fresh, count, none, Cycle.nil⟩ :: bs,
      k = ⟨s.parents.fresh, count, none, Cycle.nil⟩ ∨ k ∈ as ++ g :: bs := by
    intro k hk
    simp only [List.mem_append, List.mem_cons] at hk ⊢
    tauto
  refine ⟨?_, ?_, ?_⟩
  · intro k hk
    rcases hcase k hk with rfl | hk
    · exact Cycle.Chain.nil _
    · exact hs.rings.chain k hk
  · intro k hk
    rcases hcase k hk with rfl | hk
    · rfl
    · exact hs.rings.rooted k hk
  · simpa [members] using hs.rings.nodup

theorem Shape.setValue (hs : Shape s (as ++ g :: bs)) (count : ℕ) :
    ∃ parents, (s.parents.modify g.parent fun n => { n with value := count }) = some parents ∧
      Shape { s with parents } (as ++ { g with value := count } :: bs) := by
  obtain ⟨parents, hp, -, hread⟩ := Heap.modify_eq hs.read fun n => { n with value := count }
  refine ⟨parents, hp, hs.toSpine.replace rfl hread rfl rfl, ?_⟩
  apply hs.rings.replace
  · exact fun _ _ _ _ => rfl
  · exact hs.rings.chain g (by simp)
  · exact hs.rings.rooted g (by simp)
  · simpa [members] using hs.rings.nodup

end PowerLawRocksdb.LinkedTracker
