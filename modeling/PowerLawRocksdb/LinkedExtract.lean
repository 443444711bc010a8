import PowerLawRocksdb.LinkedSpaceSaving

/-!
# Reading the linked tracker

`ExtractTopVector` walks from `largest_` to the left and through the circle of each
parent. It uses `largest_` itself as the variable of its loop, so a walk that
leaves the first group leaves `largest_` behind it. A walk that stays in the first
group changes nothing.

The node that the loop allocates for each pair is never linked to anything and is
left out.
-/
namespace PowerLawRocksdb.LinkedTracker
open LinkedHeap CounterSummary
open SpaceSaving (Key)

variable {M : Type} {ops : MapOps M} {s s' : State M} {gs as bs : List Group} {g : Group}
  {c capacity : ℕ}

/-- The inner loop, from the child `c` of the circle entered at `first`. The pairs
that `count` lacks of `output_counters` are `left`; the loop also returns what then
is left of them. -/
def readCircle (children : Heap Child) (value : ℕ) (first : ChildId) :
    (left : ℕ) → ChildId → Option (List (Key × ℕ) × ℕ)
  | 0, _ => none
  | left + 1, c => do
      let n ← children.read c
      if left = 0 then some ([(n.element, value)], 0)
      else
        let next ← n.next
        if next = first then some ([(n.element, value)], left)
        else
          let (rest, left) ← readCircle children value first left next
          some ((n.element, value) :: rest, left)

/-- The outer loop. Each round reads at least one pair, so `left` rounds are enough. -/
def State.readGroups : (rounds left : ℕ) → State M → Option (List (Key × ℕ) × State M)
  | 0, _, _ => none
  | rounds + 1, left, s => do
      let largest ← s.largest
      let p ← s.parents.read largest
      let first ← p.child
      let (pairs, left) ← readCircle s.children p.value first left first
      if left = 0 then some (pairs, s)
      else
        let largest ← p.left
        let l ← s.parents.read largest
        let s := { s with largest := some largest }
        if l.value = 0 then some (pairs, s)
        else
          let (rest, s) ← State.readGroups rounds left s
          some (pairs ++ rest, s)

/-- The 64-bit `count` is compared after it was incremented. It meets an
`output_counters` of 0 only when it wraps. -/
def State.extractTopVector (s : State M) (outputCounters : ℕ) :
    Option (List (Key × ℕ) × State M) :=
  let left := if outputCounters = 0 then 2 ^ 64 else outputCounters
  State.readGroups left left s

def State.monitored (s : State M) : Multiset (Key × ℕ) := s.counters.filter fun r => 0 < r.2

def State.topCount (s : State M) : ℕ :=
  (s.counters.filter fun r => ∀ r' ∈ s.counters, r'.2 ≤ r.2).card

/-- The pairs `v` are of `S`, and none that is left out has a higher count. -/
def IsTop (v : List (Key × ℕ)) (S : Multiset (Key × ℕ)) : Prop :=
  (v : Multiset (Key × ℕ)) ≤ S ∧ ∀ p ∈ v, ∀ r ∈ S - v, r.2 ≤ p.2

/-- The value of `largest_` is the highest count of a counter. -/
def LargestIsTop (s : State M) : Prop :=
  ∃ p n, s.largest = some p ∧ s.parents.read p = some n ∧
    (∃ e, (e, n.value) ∈ s.counters) ∧ ∀ r ∈ s.counters, r.2 ≤ n.value

theorem readCircle_eq {p : ParentId} {first x : ChildId} {l : List ChildId} {value left : ℕ}
    (hchain : List.IsChain (Points s.children p) (x :: (l ++ [first]))) (hfirst : first ∉ l) :
    readCircle s.children value first (left + 1) x =
      some (((x :: l).take (left + 1)).map fun y => (s.element y, value),
        left + 1 - (x :: l).length) := by
  induction l generalizing x left with
  | nil =>
      obtain ⟨n, hn, -, hnext⟩ := List.isChain_pair.mp hchain
      rw [readCircle, hn]
      simp only [Option.bind_eq_bind, Option.bind_some, hnext]
      split_ifs with hleft
      · simp [hleft, State.element_eq hn]
      · simp [State.element_eq hn]
  | cons y l ih =>
      rw [List.cons_append, List.isChain_cons_cons] at hchain
      obtain ⟨⟨n, hn, -, hnext⟩, hrest⟩ := hchain
      rw [List.mem_cons, not_or] at hfirst
      rw [readCircle, hn]
      simp only [Option.bind_eq_bind, Option.bind_some, hnext, if_neg (Ne.symm hfirst.1)]
      cases left with
      | zero => simp [State.element_eq hn]
      | succ left =>
          rw [if_neg (Nat.succ_ne_zero left), ih hrest hfirst.2]
          simp [State.element_eq hn]

theorem readCircle_head {children : Heap Child} {value left k : ℕ} {first x : ChildId}
    {v : List (Key × ℕ)} (h : readCircle children value first left x = some (v, k)) :
    ∃ e rest, v = (e, value) :: rest := by
  cases left with
  | zero => cases h
  | succ left =>
      simp only [readCircle, Option.bind_eq_bind, Option.bind_eq_some_iff] at h
      obtain ⟨n, -, h⟩ := h
      split_ifs at h with hleft
      · cases h
        exact ⟨_, _, rfl⟩
      · obtain ⟨next, -, h⟩ := Option.bind_eq_some_iff.mp h
        split_ifs at h with hnext
        · cases h
          exact ⟨_, _, rfl⟩
        · obtain ⟨r, -, h⟩ := Option.bind_eq_some_iff.mp h
          cases h
          exact ⟨_, _, rfl⟩

theorem readGroups_head {rounds left : ℕ} {v : List (Key × ℕ)}
    (h : State.readGroups rounds left s = some (v, s')) :
    ∃ p n e rest, s.largest = some p ∧ s.parents.read p = some n ∧ v = (e, n.value) :: rest := by
  cases rounds with
  | zero => cases h
  | succ rounds =>
      simp only [State.readGroups, Option.bind_eq_bind, Option.bind_eq_some_iff] at h
      obtain ⟨p, hp, n, hn, first, -, ⟨w, k⟩, hw, h⟩ := h
      obtain ⟨e, rest, rfl⟩ := readCircle_head hw
      split_ifs at h with hk
      · cases h
        exact ⟨p, n, e, rest, hp, hn, rfl⟩
      · simp only [Option.bind_eq_some_iff] at h
        obtain ⟨q, -, l, -, h⟩ := h
        split_ifs at h with hl
        · cases h
          exact ⟨p, n, e, rest, hp, hn, rfl⟩
        · obtain ⟨⟨w, t⟩, -, h⟩ := Option.bind_eq_some_iff.mp h
          cases h
          exact ⟨p, n, e, rest ++ w, hp, hn, rfl⟩

/-- The children of each group in the order of its circle, from its entry on. -/
def Listed (row : Group → List ChildId) (gs : List Group) : Prop :=
  ∀ g ∈ gs, ∃ q l, row g = q :: l ∧ g.child = some q ∧
    g.ring = ((q :: l : List ChildId) : Cycle ChildId)

theorem Shape.exists_listed (hs : Shape s gs) (hfull : ∀ g ∈ gs, g.ring ≠ Cycle.nil) :
    ∃ row, Listed row gs := by
  have hrow : ∀ g : Group, ∃ r : List ChildId, g ∈ gs → ∃ q l, r = q :: l ∧ g.child = some q ∧
      g.ring = ((q :: l : List ChildId) : Cycle ChildId) := by
    intro g
    by_cases hg : g ∈ gs
    · have hroot := hs.rings.rooted g hg
      unfold Group.Rooted at hroot
      cases hchild : g.child with
      | none =>
          rw [hchild] at hroot
          exact absurd hroot (hfull g hg)
      | some q =>
          rw [hchild] at hroot
          obtain ⟨l, hl⟩ := exists_coe_cons hroot
          exact ⟨q :: l, fun _ => ⟨q, l, rfl, rfl, hl⟩⟩
    · exact ⟨[], fun h => absurd h hg⟩
  choose row hrow using hrow
  exact ⟨row, fun g hg => hrow g hg⟩

def entries (element : ChildId → Key) (row : Group → List ChildId) (g : Group) :
    List (Key × ℕ) := (row g).map fun x => (element x, g.value)

/-- The pairs in the order of the walk, from the last group to the first. -/
def ranking (element : ChildId → Key) (row : Group → List ChildId) (gs : List Group) :
    List (Key × ℕ) := gs.reverse.flatMap (entries element row)

section Ranking
variable {element : ChildId → Key} {row : Group → List ChildId}

theorem length_entries : (entries element row g).length = (row g).length := List.length_map _

theorem ranking_concat :
    ranking element row (as ++ [g]) = entries element row g ++ ranking element row as := by
  simp [ranking]

theorem ranking_cons :
    ranking element row (g :: gs) = ranking element row gs ++ entries element row g := by
  simp [ranking]

theorem mem_ranking {r : Key × ℕ} :
    r ∈ ranking element row gs ↔ ∃ g ∈ gs, ∃ x ∈ row g, (element x, g.value) = r := by
  simp [ranking, entries]

theorem coe_ranking (h : Listed row gs) :
    (ranking element row gs : Multiset (Key × ℕ)) = pairs element gs := by
  induction gs with
  | nil => rfl
  | cons g gs ih =>
      obtain ⟨q, l, hrow, -, hring⟩ := h g List.mem_cons_self
      rw [ranking_cons, ← Multiset.coe_add, ih fun k hk => h k (List.mem_cons_of_mem g hk), pairs,
        add_comm, hring, entries, hrow]
      rfl

theorem Ascending.ranking_pairwise (h : Ascending gs) :
    (ranking element row gs).Pairwise fun a b => b.2 ≤ a.2 := by
  induction gs with
  | nil => exact List.Pairwise.nil
  | cons g gs ih =>
      obtain ⟨hg, hgs⟩ := List.pairwise_cons.mp h
      rw [ranking_cons, List.pairwise_append]
      refine ⟨ih hgs, ?_, ?_⟩
      · rw [entries, List.pairwise_map]
        exact List.pairwise_of_forall fun _ _ => le_rfl
      · intro a ha b hb
        obtain ⟨k, hk, x, -, rfl⟩ := mem_ranking.mp ha
        obtain ⟨y, -, rfl⟩ := List.mem_map.mp hb
        exact (hg k hk).le

end Ranking

section Walk
variable {row : Group → List ChildId} {rounds left : ℕ}

theorem Shape.readCircle (hs : Shape s (as ++ g :: bs)) (hrow : Listed row (as ++ g :: bs))
    (hpos : 1 ≤ left) :
    ∃ q, g.child = some q ∧ readCircle s.children g.value q left q =
      some ((entries s.element row g).take left, left - (row g).length) := by
  obtain ⟨q, l, hl, hchild, hring⟩ := hrow g (by simp)
  have hchain := hs.rings.chain g (by simp)
  rw [hring, Cycle.chain_coe_cons] at hchain
  have hq : q ∉ l := (List.nodup_cons.mp (hs.rings.ring_nodup hring)).1
  obtain ⟨left, rfl⟩ := Nat.exists_eq_add_of_le' hpos
  refine ⟨q, hchild, ?_⟩
  rw [readCircle_eq hchain hq, entries, hl, List.map_take]

theorem Shape.readGroups_within (hs : Shape s (as ++ g :: bs))
    (hrow : Listed row (as ++ g :: bs)) (hpos : 1 ≤ left) (hleft : left ≤ (row g).length) :
    State.readGroups (rounds + 1) left { s with largest := some g.parent } =
      some ((ranking s.element row (as ++ [g])).take left,
        { s with largest := some g.parent }) := by
  obtain ⟨q, hchild, hread⟩ := hs.readCircle hrow hpos
  rw [Nat.sub_eq_zero_of_le hleft] at hread
  rw [ranking_concat, List.take_append_of_le_length (hleft.trans_eq length_entries.symm)]
  simp [State.readGroups, hs.read, hchild, hread]

theorem Shape.readGroups_past {a : Group} (hs : Shape s (as ++ a :: g :: bs))
    (hrow : Listed row (as ++ a :: g :: bs)) (hleft : (row g).length < left)
    (ha : a.value ≠ 0) :
    State.readGroups (rounds + 1) left { s with largest := some g.parent } =
      (State.readGroups rounds (left - (row g).length) { s with largest := some a.parent }).map
        fun r => (entries s.element row g ++ r.1, r.2) := by
  have hsg : Shape s ((as ++ [a]) ++ g :: bs) := by simpa using hs
  have hrowg : Listed row ((as ++ [a]) ++ g :: bs) := by simpa using hrow
  obtain ⟨q, hchild, hread⟩ := hsg.readCircle hrowg (show 1 ≤ left by omega)
  rw [List.take_of_length_le (length_entries.trans_le hleft.le)] at hread
  have hgo : left - (row g).length ≠ 0 := Nat.sub_ne_zero_of_lt hleft
  simp only [State.readGroups, hsg.read, hchild, hread, hs.read, if_neg hgo, if_neg ha,
    Option.bind_eq_bind, Option.bind_some, List.map_append, List.map_cons, List.map_nil,
    lastOf_append, lastOf_cons, lastOf_nil]
  cases State.readGroups rounds (left - (row g).length) { s with largest := some a.parent } with
  | none => rfl
  | some r => rfl

theorem Ascending.le_last {element : ChildId → Key} (h : Ascending (as ++ [g])) {r : Key × ℕ}
    (hr : r ∈ ranking element row (as ++ [g])) : r.2 ≤ g.value := by
  obtain ⟨k, hk, x, -, rfl⟩ := mem_ranking.mp hr
  rcases List.mem_append.mp hk with hk | hk
  · exact ((ascending_middle.mp h).2.1 k hk).le
  · rw [List.mem_singleton.mp hk]

/-- The walk from the group `g` on. By induction on the groups to its left: as long
as pairs are missing, the next group to the left is in use. -/
theorem Shape.readGroups (hs : Shape s gs) (hrow : Listed row gs) (hasc : Ascending gs)
    (hgs : gs = as ++ g :: bs) (hpos : 1 ≤ left) (hrounds : left ≤ rounds)
    (hleft : left ≤ (ranking s.element row (as ++ [g])).countP fun r => 0 < r.2) :
    ∃ k, State.readGroups rounds left { s with largest := some g.parent } =
        some ((ranking s.element row (as ++ [g])).take left, { s with largest := some k.parent }) ∧
      (left ≤ (row g).length ∧ k = g ∨ (row g).length < left ∧ k ∈ as) := by
  induction as using List.reverseRecOn generalizing g bs left rounds with
  | nil =>
      subst hgs
      obtain ⟨rounds, rfl⟩ := Nat.exists_eq_add_of_le' (hpos.trans hrounds)
      have hlen : left ≤ (row g).length := by
        refine hleft.trans (List.countP_le_length.trans ?_)
        simp [ranking, entries]
      exact ⟨g, hs.readGroups_within hrow hpos hlen, Or.inl ⟨hlen, rfl⟩⟩
  | append_singleton as a ih =>
      obtain ⟨rounds, rfl⟩ := Nat.exists_eq_add_of_le' (hpos.trans hrounds)
      rcases Nat.lt_or_ge (row g).length left with hlen | hlen
      · have hgs' : gs = as ++ a :: g :: bs := by simpa using hgs
        have hone : 1 ≤ (row g).length := by
          obtain ⟨q, l, hl, -⟩ := hrow g (by simp [hgs])
          simp [hl]
        have hmissing : left - (row g).length ≤
            (ranking s.element row (as ++ [a])).countP fun r => 0 < r.2 := by
          rw [ranking_concat, List.countP_append] at hleft
          have hhere : (entries s.element row g).countP (fun r => 0 < r.2) ≤ (row g).length :=
            List.countP_le_length.trans_eq length_entries
          omega
        have ha : a.value ≠ 0 := by
          have hasca : Ascending (as ++ [a]) := by
            rw [hgs'] at hasc
            exact hasc.sublist (by simp)
          obtain ⟨r, hr, hr0⟩ := List.countP_pos_iff.mp
            ((Nat.sub_pos_of_lt hlen).trans_le hmissing)
          exact ((of_decide_eq_true hr0).trans_le (hasca.le_last hr)).ne'
        obtain ⟨k, hk, hcase⟩ :=
          ih hgs' (Nat.sub_pos_of_lt hlen) (show left - (row g).length ≤ rounds by omega) hmissing
        refine ⟨k, ?_, Or.inr ⟨hlen, ?_⟩⟩
        · subst hgs'
          have htake : (entries s.element row g).take left = entries s.element row g :=
            List.take_of_length_le (length_entries.trans_le hlen.le)
          rw [hs.readGroups_past hrow hlen ha, hk, ranking_concat (g := g), List.take_append, htake,
            length_entries, Option.map_some]
        · rcases hcase with ⟨-, rfl⟩ | ⟨-, hmem⟩
          · simp
          · simp [hmem]
      · subst hgs
        exact ⟨g, hs.readGroups_within hrow hpos hlen, Or.inl ⟨hlen, rfl⟩⟩

end Walk

section Read
variable {row : Group → List ChildId} {q : ℕ}

theorem isTop_take {l : List (Key × ℕ)} (hl : l.Pairwise fun a b => b.2 ≤ a.2) (q : ℕ) :
    IsTop (l.take q) (l : Multiset (Key × ℕ)) := by
  have hsplit : (l : Multiset (Key × ℕ)) = ↑(l.take q) + ↑(l.drop q) := by
    rw [Multiset.coe_add, List.take_append_drop]
  constructor
  · exact Multiset.coe_le.mpr (List.take_sublist q l).subperm
  · intro p hp r hr
    rw [hsplit, add_tsub_cancel_left, Multiset.mem_coe] at hr
    rw [← List.take_append_drop q l] at hl
    exact (List.pairwise_append.mp hl).2.2 p hp r hr

theorem IsTop.filter {v : List (Key × ℕ)} {S : Multiset (Key × ℕ)} (h : IsTop v S)
    {p : Key × ℕ → Prop} [DecidablePred p] (hv : ∀ r ∈ v, p r) : IsTop v (S.filter p) := by
  constructor
  · exact Multiset.le_filter.mpr ⟨h.1, hv⟩
  · intro a ha r hr
    exact h.2 a ha r (Multiset.mem_of_le (tsub_le_tsub_right (Multiset.filter_le p S) _) hr)

theorem pos_of_mem_take {l : List (Key × ℕ)} (hl : l.Pairwise fun a b => b.2 ≤ a.2)
    (hq : q ≤ l.countP fun r => 0 < r.2) : ∀ p ∈ l.take q, 0 < p.2 := by
  intro p hp
  by_contra hzero
  rw [← List.take_append_drop q l] at hl
  have hrest : (l.drop q).countP (fun r => 0 < r.2) = 0 := by
    rw [List.countP_eq_zero]
    intro r hr
    have := (List.pairwise_append.mp hl).2.2 p hp r hr
    simp only [decide_eq_true_eq]
    omega
  have hfew : (l.take q).countP (fun r => 0 < r.2) < (l.take q).length :=
    List.countP_lt_length_iff.mpr ⟨p, hp, decide_eq_false hzero⟩
  rw [← List.take_append_drop q l, List.countP_append, hrest] at hq
  have := List.length_take_le q l
  omega

theorem Sound.exists_last {spec : ops.Contract capacity} (hs : Sound spec c s gs) (hc : 0 < c) :
    ∃ as g, gs = as ++ [g] ∧ s = { s with largest := some g.parent } := by
  rcases List.eq_nil_or_concat gs with rfl | ⟨as, g, rfl⟩
  · have hall := hs.all
    rw [members, eq_comm, ← Multiset.card_eq_zero, Multiset.card_range] at hall
    omega
  · refine ⟨as, g, by simp, ?_⟩
    have hlargest := hs.largest
    simp only [List.concat_eq_append, List.map_append, List.map_cons, List.map_nil,
      lastOf_append, lastOf_cons, lastOf_nil] at hlargest
    rw [← hlargest]

theorem Sound.counters_ranking {spec : ops.Contract capacity} (hs : Sound spec c s gs)
    (hrow : Listed row gs) : s.counters = (ranking s.element row gs : Multiset (Key × ℕ)) := by
  rw [hs.counters_eq, coe_ranking hrow]

theorem Sound.card_monitored {spec : ops.Contract capacity} (hs : Sound spec c s gs)
    (hrow : Listed row gs) :
    s.monitored.card = (ranking s.element row gs).countP fun r => 0 < r.2 := by
  rw [State.monitored, hs.counters_ranking hrow, Multiset.filter_coe, Multiset.coe_card,
    List.countP_eq_length_filter]

theorem Sound.mem_counters_last {spec : ops.Contract capacity} (hs : Sound spec c s (as ++ [g]))
    (hrow : Listed row (as ++ [g])) : ∃ e, (e, g.value) ∈ s.counters := by
  obtain ⟨q, l, hl, -⟩ := hrow g (by simp)
  refine ⟨s.element q, ?_⟩
  rw [hs.counters_ranking hrow]
  exact mem_ranking.mpr ⟨g, by simp, q, by simp [hl], rfl⟩

theorem Sound.topCount_eq {spec : ops.Contract capacity} (hs : Sound spec c s (as ++ [g]))
    (hasc : Ascending (as ++ [g])) (hrow : Listed row (as ++ [g])) :
    s.topCount = (row g).length := by
  obtain ⟨e, htop⟩ := hs.mem_counters_last hrow
  rw [hs.counters_ranking hrow] at htop
  have hiff : ∀ r ∈ ranking s.element row (as ++ [g]),
      (∀ r' ∈ ranking s.element row (as ++ [g]), r'.2 ≤ r.2) ↔ g.value ≤ r.2 := by
    intro r _
    exact ⟨fun h => h _ htop, fun h r' hr' => (hasc.le_last hr').trans h⟩
  have hlower : ∀ r ∈ ranking s.element row as, ¬ g.value ≤ r.2 := by
    intro r hr
    obtain ⟨k, hk, x, -, rfl⟩ := mem_ranking.mp hr
    exact not_le.mpr ((ascending_middle.mp hasc).2.1 k hk)
  have hsame : ∀ r ∈ entries s.element row g, g.value ≤ r.2 := by
    intro r hr
    obtain ⟨x, -, rfl⟩ := List.mem_map.mp hr
    exact le_rfl
  rw [State.topCount, hs.counters_ranking hrow, Multiset.filter_congr hiff, Multiset.filter_coe,
    Multiset.coe_card, ranking_concat, List.filter_append,
    List.filter_eq_self.mpr fun r hr => decide_eq_true (hsame r hr),
    List.filter_eq_nil_iff.mpr fun r hr => by simpa using hlower r hr, List.append_nil,
    length_entries]

theorem Sound.largestIsTop {spec : ops.Contract capacity} (hs : Sound spec c s gs)
    (hc : 0 < c) (hasc : Ascending gs) : LargestIsTop s := by
  obtain ⟨as, g, rfl, hlargest⟩ := hs.exists_last hc
  obtain ⟨row, hrow⟩ := hs.toShape.exists_listed hs.full
  obtain ⟨n, hn, -, hvalue⟩ := hs.heads g (by simp)
  refine ⟨g.parent, n, by rw [hlargest], hn, ?_, ?_⟩
  · rw [hvalue]
    exact hs.mem_counters_last hrow
  · intro r hr
    rw [hs.counters_ranking hrow] at hr
    rw [hvalue]
    exact hasc.le_last hr

/-- The extraction returns the head of the ranking. It moves `largest_` to a lower
group if more pairs are asked for than share the highest count. -/
theorem Sound.extractTopVector {spec : ops.Contract capacity} (hs : Sound spec c s (as ++ [g]))
    (hasc : Ascending (as ++ [g])) (hrow : Listed row (as ++ [g]))
    (hlargest : s = { s with largest := some g.parent }) (hpos : 1 ≤ q)
    (hq : q ≤ s.monitored.card) :
    ∃ k, s.extractTopVector q = some ((ranking s.element row (as ++ [g])).take q,
        { s with largest := some k.parent }) ∧
      (q ≤ s.topCount ∧ k = g ∨ s.topCount < q ∧ k ∈ as) := by
  rw [hs.card_monitored hrow] at hq
  obtain ⟨k, hk, hcase⟩ := hs.toShape.readGroups hrow hasc rfl hpos le_rfl hq
  refine ⟨k, ?_, ?_⟩
  · rw [State.extractTopVector, if_neg (Nat.pos_iff_ne_zero.mp hpos), ← hk, ← hlargest]
  · rwa [hs.topCount_eq hasc hrow]

theorem Shape.extract_differs (hs : Shape s gs) (hg : g ∈ gs) {k : Group} (hk : k ∈ gs)
    (hlt : k.value < g.value) (hlargest : s = { s with largest := some g.parent })
    {v : List (Key × ℕ)} {t t' : State M} (hv : s.extractTopVector q = some (v, t)) :
    State.extractTopVector { s with largest := some k.parent } q ≠ some (v, t') := by
  intro hv'
  obtain ⟨p, n, e, rest, hp, hn, rfl⟩ := readGroups_head hv
  obtain ⟨p', n', e', rest', hp', hn', heq⟩ := readGroups_head hv'
  obtain ⟨m, hm, -, hvalue⟩ := hs.heads g hg
  obtain ⟨m', hm', -, hvalue'⟩ := hs.heads k hk
  rw [hlargest] at hp
  cases hp
  cases hp'
  cases hn.symm.trans hm
  cases hn'.symm.trans hm'
  have hcount : n.value = n'.value := congrArg (fun l => (l.head?.map Prod.snd).getD 0) heq
  omega

theorem Shape.not_largestIsTop (hs : Shape s gs) {k : Group} (hk : k ∈ gs) {r : Key × ℕ}
    (hr : r ∈ s.counters) (hlt : k.value < r.2) :
    ¬ LargestIsTop { s with largest := some k.parent } := by
  rintro ⟨p, n, hp, hn, -, hall⟩
  obtain ⟨m, hm, -, hvalue⟩ := hs.heads k hk
  cases hp
  cases hn.symm.trans hm
  have := hall r hr
  omega

end Read

/-- Every extraction of at most the counters in use is defined and returns a top of
them, in falling order. It can be repeated, and later `Process` calls keep
`largest_` at the highest count, exactly when no more pairs are asked for than
share the highest count. -/
theorem extractTopVector_repeatable_iff (hc : 1 ≤ c) {xs : List Key} (h0 : ∀ x ∈ xs, x ≠ 0)
    (hlen : xs.length < 2 ^ 64) :
    ∃ s₀ s, State.init (∅ : IdealMap) c = some s₀ ∧
      Transitions.run (State.process idealMap) s₀ xs = some s ∧
      ∀ q, 1 ≤ q → q ≤ s.monitored.card →
        ∃ v s', s.extractTopVector q = some (v, s') ∧ v.length = q ∧
          (v.Pairwise fun a b => b.2 ≤ a.2) ∧ IsTop v s.monitored ∧
          ((∃ s'', s'.extractTopVector q = some (v, s'')) ↔ q ≤ s.topCount) ∧
          ((∀ ys : List Key, (∀ y ∈ ys, y ≠ 0) → xs.length + ys.length < 2 ^ 64 →
              ∃ t, Transitions.run (State.process idealMap) s' ys = some t ∧ LargestIsTop t) ↔
            q ≤ s.topCount) := by
  obtain ⟨s₀, s, gs, hinit, hrun, hs, hasc, htotal⟩ := run_sound hc h0 hlen
  refine ⟨s₀, s, hinit, hrun, fun q hpos hq => ?_⟩
  obtain ⟨as, g, rfl, hlargest⟩ := hs.exists_last hc
  obtain ⟨row, hrow⟩ := hs.toShape.exists_listed hs.full
  obtain ⟨k, hext, hcase⟩ := hs.extractTopVector hasc hrow hlargest hpos hq
  have hfalling : (ranking s.element row (as ++ [g])).Pairwise fun a b => b.2 ≤ a.2 :=
    hasc.ranking_pairwise
  have hcount := hq
  rw [hs.card_monitored hrow] at hcount
  refine ⟨_, _, hext, ?_, hfalling.sublist (List.take_sublist _ _), ?_, ?_⟩
  · exact List.length_take_of_le (hcount.trans List.countP_le_length)
  · apply IsTop.filter
    · rw [hs.counters_ranking hrow]
      exact isTop_take hfalling q
    · exact pos_of_mem_take hfalling hcount
  · rcases hcase with ⟨htop, rfl⟩ | ⟨htop, hk⟩
    · rw [← hlargest] at hext ⊢
      refine ⟨iff_of_true ⟨s, hext⟩ htop, iff_of_true (fun ys hys hlen' => ?_) htop⟩
      obtain ⟨t, gs', hrun', ht, hasc', -⟩ := hs.processAll hc hys hasc (by omega)
      exact ⟨t, hrun', ht.largestIsTop hc hasc'⟩
    · have hlt : k.value < g.value := (ascending_middle.mp hasc).2.1 k hk
      have hkgs : k ∈ as ++ [g] := List.mem_append_left _ hk
      refine ⟨iff_of_false ?_ (not_le.mpr htop), iff_of_false ?_ (not_le.mpr htop)⟩
      · rintro ⟨s'', hs''⟩
        exact hs.toShape.extract_differs (by simp) hkgs hlt hlargest hext hs''
      · intro hkeep
        -- already without a further call `largest_` is at the lower group
        obtain ⟨t, ht, htop'⟩ := hkeep [] (by simp) (by simpa using hlen)
        cases ht
        obtain ⟨e, he⟩ := hs.mem_counters_last hrow
        exact hs.toShape.not_largestIsTop hkgs he hlt htop'

/-- Two of three elements share the highest count and are read twice. -/
theorem extractTopVector_repeatable_iff_shared :
    ∃ s₀ s v s' s'', State.init (∅ : IdealMap) 3 = some s₀ ∧
      Transitions.run (State.process idealMap) s₀ [1, 2, 1, 2, 3] = some s ∧
      s.extractTopVector 2 = some (v, s') ∧ s'.extractTopVector 2 = some (v, s'') := by
  have h0 : ∀ x ∈ ([1, 2, 1, 2, 3] : List Key), x ≠ 0 := by simp
  obtain ⟨s₀, s, hinit, hrun, h⟩ :=
    extractTopVector_repeatable_iff (c := 3) (by decide) h0 (by decide)
  have hcounts : s.monitored.card = 3 ∧ s.topCount = 2 := by
    cases hinit
    cases hrun
    decide
  obtain ⟨v, s', hv, -, -, -, hiff, -⟩ := h 2 (by decide) (by omega)
  obtain ⟨s'', hs''⟩ := hiff.mpr (by omega)
  exact ⟨s₀, s, v, s', s'', hinit, hrun, hv, hs''⟩

/-- Asked for two pairs with different counts, the tracker then gives one of them,
and a further `Process` call leaves `largest_` below the highest count. -/
theorem extractTopVector_moves_largest :
    ∃ s₀ s s' s'' t, State.init (∅ : IdealMap) 3 = some s₀ ∧
      Transitions.run (State.process idealMap) s₀ [1, 1, 2] = some s ∧
      s.monitored.card = 2 ∧ s.extractTopVector 2 = some ([(1, 2), (2, 1)], s') ∧
      s'.extractTopVector 2 = some ([(2, 1)], s'') ∧
      s'.process idealMap 1 = some t ∧ ¬ LargestIsTop t := by
  refine ⟨_, _, _, _, _, rfl, rfl, rfl, rfl, rfl, rfl, ?_⟩
  rintro ⟨p, n, hp, hn, -, hall⟩
  cases hp
  cases hn
  exact absurd (hall (1, 3) (by decide)) (by decide)

end PowerLawRocksdb.LinkedTracker
