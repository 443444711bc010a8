import PowerLawRocksdb.LinkedHeap
import Mathlib.Logic.Function.Basic

/-!
# Queues with lazy links

A queue of nodes that carry two links. A node that enters the queue only gets the
link to the node before it. The link from a node to the one behind it is filled in
later, for a whole part of the queue at once. So the queue is a list `xs ++ ys`, from
the oldest node to the newest, where the nodes of `xs` have both links and those of
`ys` only the first. The newest node never has both.
-/
namespace PowerLawRocksdb.LazyQueue
open LinkedHeap

structure Links (ι : Type*) where
  older : Option ι
  newer : Option ι
deriving DecidableEq, Repr

variable {ι : Type*} {links links' : ι → Option (Links ι)} {xs ys zs ws : List ι} {a b : ι}
  {p n m : Option ι}

def Full (links : ι → Option (Links ι)) (a : ι) (p n : Option ι) : Prop := links a = some ⟨p, n⟩

def Half (links : ι → Option (Links ι)) (a : ι) (p _ : Option ι) : Prop :=
  links a = some ⟨p, none⟩

/-- Only the link to the older node is known. -/
def Older (links : ι → Option (Links ι)) (a : ι) (p _ : Option ι) : Prop :=
  ∃ n, links a = some ⟨p, n⟩

structure Queued (links : ι → Option (Links ι)) (xs ys : List ι) : Prop where
  nodup : (xs ++ ys).Nodup
  full : Linked (Full links) none xs (firstOf ys none)
  half : Linked (Half links) (lastOf none xs) ys none
  newest : ys = [] → xs = []

theorem linked_half_any (h : Linked (Half links) p ys n) : Linked (Half links) p ys m := by
  induction ys generalizing p with
  | nil => trivial
  | cons y ys ih => exact ⟨h.1, ih h.2⟩

theorem linked_older_any (h : Linked (Older links) p ys n) : Linked (Older links) p ys m := by
  induction ys generalizing p with
  | nil => trivial
  | cons y ys ih => exact ⟨h.1, ih h.2⟩

theorem lastOf_none (xs : List ι) : lastOf none xs = xs.getLast? := by
  rw [lastOf, Option.or_none]

theorem queued_nil : Queued links [] [] := ⟨List.nodup_nil, trivial, trivial, fun _ => rfl⟩

theorem Queued.olders (h : Queued links xs ys) : Linked (Older links) none (xs ++ ys) none := by
  apply linked_append.mpr
  constructor
  · exact h.full.congr fun a _ p n hnode => ⟨n, hnode⟩
  · exact h.half.congr fun a _ p n hnode => ⟨none, hnode⟩

theorem exists_links_of_linked (h : Linked (Older links) p xs n) (ha : a ∈ xs) :
    ∃ l, links a = some l := by
  obtain ⟨l₁, l₂, rfl⟩ := List.append_of_mem ha
  obtain ⟨n, hn⟩ := (linked_append.mp h).2.1
  exact ⟨_, hn⟩

theorem Queued.exists_links (h : Queued links xs ys) (ha : a ∈ xs ++ ys) :
    ∃ l, links a = some l :=
  exists_links_of_linked h.olders ha

theorem Queued.congr (h : Queued links xs ys) (heq : ∀ a ∈ xs ++ ys, links' a = links a) :
    Queued links' xs ys := by
  refine ⟨h.nodup, h.full.congr ?_, h.half.congr ?_, h.newest⟩
  · intro a ha p n hnode
    exact (heq a (List.mem_append_left ys ha)).trans hnode
  · intro a ha p n hnode
    exact (heq a (List.mem_append_right xs ha)).trans hnode

/-- A node is put behind the newest one. -/
theorem Queued.push (h : Queued links xs ys) (ha : a ∉ xs ++ ys)
    (hlinks : links' a = some ⟨(xs ++ ys).getLast?, none⟩)
    (heq : ∀ b ∈ xs ++ ys, links' b = links b) : Queued links' xs (ys ++ [a]) := by
  have hcongr := h.congr heq
  have hlast : lastOf (lastOf none xs) ys = (xs ++ ys).getLast? := by
    rw [← lastOf_append, lastOf_none]
  refine ⟨?_, ?_, ?_, fun hnil => absurd hnil (by simp)⟩
  · rw [← List.append_assoc, ← List.concat_eq_append]
    exact h.nodup.concat ha
  · rw [firstOf_append]
    cases ys with
    | nil =>
        rw [h.newest rfl]
        trivial
    | cons y ys => exact hcongr.full
  · apply linked_append.mpr
    refine ⟨linked_half_any hcongr.half, ?_, trivial⟩
    rw [hlast]
    exact hlinks

/-- The links behind the nodes before `b` have been filled in. -/
theorem Queued.fill (h : Queued links xs (ys ++ b :: zs))
    (hfull : Linked (Full links') none (xs ++ ys) (some b))
    (heq : ∀ a ∈ b :: zs, links' a = links a) : Queued links' (xs ++ ys) (b :: zs) := by
  refine ⟨?_, hfull, ?_, fun hnil => absurd hnil (by simp)⟩
  · rw [List.append_assoc]
    exact h.nodup
  · rw [lastOf_append]
    exact ((linked_append.mp h.half).2).congr fun a ha p n hnode => (heq a ha).trans hnode

/-- The nodes before `b` leave the queue, and `b` loses its link to them. -/
theorem Queued.pop (h : Queued links (zs ++ xs) ys) (hb : xs ++ ys = b :: ws)
    (hlinks : ∀ l, links b = some l → links' b = some { l with older := none })
    (heq : ∀ a ∈ ws, links' a = links a) : Queued links' xs ys := by
  have hfull := (linked_append.mp h.full).2
  have hnodup : (xs ++ ys).Nodup := by
    have := h.nodup
    rw [List.append_assoc] at this
    exact this.of_append_right
  have hnewest : ys = [] → xs = [] := fun hnil => by
    have := h.newest hnil
    exact (List.append_eq_nil_iff.mp this).2
  cases xs with
  | nil =>
      cases ys with
      | nil => cases hb
      | cons y ys =>
          obtain ⟨rfl, rfl⟩ := List.cons.inj hb
          have hhalf := h.half
          refine ⟨hnodup, trivial, ⟨hlinks _ hhalf.1, ?_⟩, hnewest⟩
          exact hhalf.2.congr fun a ha p n hnode => (heq a ha).trans hnode
  | cons x xs =>
      obtain ⟨rfl, rfl⟩ := List.cons.inj hb
      have hhalf := h.half
      rw [lastOf_append, lastOf_cons] at hhalf
      refine ⟨hnodup, ⟨hlinks _ hfull.1, ?_⟩, ?_, hnewest⟩
      · exact hfull.2.congr fun a ha p n hnode =>
          (heq a (List.mem_append_left ys ha)).trans hnode
      · rw [lastOf_cons]
        exact hhalf.congr fun a ha p n hnode => (heq a (List.mem_append_right xs ha)).trans hnode

theorem Queued.exists_half (h : Queued links xs ys) (ha : a ∈ ys) :
    ∃ p, links a = some ⟨p, none⟩ := by
  obtain ⟨l₁, l₂, rfl⟩ := List.append_of_mem ha
  exact ⟨_, (linked_append.mp h.half).2.1⟩

/-- Nodes of the second part leave the queue, and the older links skip them. -/
theorem Queued.thin (h : Queued links xs ys) (hsub : ws.Sublist ys)
    (hfirst : xs ≠ [] → firstOf ws none = firstOf ys none)
    (holders : Linked (Older links') none (xs ++ ws) none)
    (hnewer : ∀ a ∈ xs ++ ws, (links' a).map Links.newer = (links a).map Links.newer) :
    Queued links' xs ws := by
  obtain ⟨hxs, hws⟩ := linked_append.mp holders
  -- the new older links together with the old newer ones
  have hnode : ∀ a ∈ xs ++ ws, ∀ p p' n, Older links' a p none → links a = some ⟨p', n⟩ →
      links' a = some ⟨p, n⟩ := by
    rintro a ha p p' n ⟨n', hlinks'⟩ hlinks
    have := hnewer a ha
    rw [hlinks', hlinks] at this
    rw [hlinks', show n' = n from Option.some.inj this]
  refine ⟨h.nodup.sublist (List.Sublist.append_left hsub xs), ?_, ?_, ?_⟩
  · have hboth : ∀ (l : List ι), (∀ a ∈ l, a ∈ xs) → ∀ p p' n m,
        Linked (Full links) p l n → Linked (Older links') p' l m → Linked (Full links') p' l n := by
      intro l
      induction l with
      | nil => intros; trivial
      | cons x l ih =>
          intro hl p p' n m hfull hold
          have hx := List.mem_append_left ws (hl x List.mem_cons_self)
          exact ⟨hnode x hx _ _ _ hold.1 hfull.1,
            ih (fun a ha => hl a (List.mem_cons_of_mem x ha)) _ _ _ _ hfull.2 hold.2⟩
    have := hboth xs (fun a ha => ha) none none _ _ h.full hxs
    cases xs with
    | nil => trivial
    | cons x xs => rwa [hfirst (List.cons_ne_nil x xs)]
  · refine hws.congr fun a ha p n hold => ?_
    obtain ⟨p', hp'⟩ := h.exists_half (hsub.subset ha)
    exact hnode a (List.mem_append_right xs ha) _ _ _ hold hp'
  · intro hnil
    by_contra hne
    have := hfirst hne
    rw [hnil, firstOf_nil] at this
    cases ys with
    | nil => exact hne (h.newest rfl)
    | cons y ys => cases this

/-- The link from `a` to `b` has been filled in. -/
def Newer (links : ι → Option (Links ι)) (a b : ι) : Prop := ∃ p, links a = some ⟨p, some b⟩

theorem isChain_newer (h : Linked (Full links) p xs (some b)) :
    List.IsChain (Newer links) (xs ++ [b]) := by
  induction xs generalizing p with
  | nil => exact List.isChain_singleton b
  | cons x xs ih =>
      rw [List.cons_append, List.isChain_cons]
      refine ⟨fun y hy => ?_, ih h.2⟩
      have hfirst : firstOf xs (some b) = some y := by
        rwa [List.head?_append, Option.mem_def] at hy
      exact ⟨p, h.1.trans (by rw [hfirst])⟩

/-- Behind the head of the queue, a node of the first part and the first one of the second
part are reached by a link from an older one. -/
theorem Queued.exists_newer (h : Queued links (a :: xs) (b :: ys)) {c : ι} (hc : c ∈ xs ++ [b]) :
    ∃ d ∈ a :: xs ++ b :: ys, Newer links d c := by
  have hchain := isChain_newer h.full
  obtain ⟨l₁, l₂, hl⟩ := List.append_of_mem hc
  -- the node before it
  obtain ⟨l₀, hl₀⟩ := List.getLast?_eq_some_iff.mp
    (List.getLast?_eq_some_getLast (List.cons_ne_nil a l₁))
  rw [List.cons_append, hl, ← List.cons_append, hl₀, List.append_assoc] at hchain
  refine ⟨_, ?_, (List.isChain_cons_cons.mp hchain.right_of_append).1⟩
  have hmem := List.getLast_mem (List.cons_ne_nil a l₁)
  have hsub : a :: l₁ ++ c :: (l₂ ++ ys) = a :: xs ++ b :: ys := by
    rw [← List.cons_append, ← List.append_assoc, List.cons_append, ← hl]
    simp
  exact hsub ▸ List.mem_append_left _ hmem

theorem Queued.older_head (h : Queued links xs ys) (ha : xs ++ ys = a :: ws) :
    ∃ n, links a = some ⟨none, n⟩ := by
  have := h.olders
  rw [ha] at this
  exact this.1

theorem Queued.older_next (h : Queued links xs ys) (ha : xs ++ ys = zs ++ a :: b :: ws) :
    ∃ n, links b = some ⟨some a, n⟩ := by
  have := h.olders
  rw [ha] at this
  exact (linked_append.mp this).2.2.1

theorem Queued.newer_of_mem (h : Queued links xs ys) (ha : xs = zs ++ a :: ws) :
    ∃ p, links a = some ⟨p, firstOf (ws ++ ys) none⟩ := by
  subst ha
  rw [firstOf_append]
  exact ⟨_, (linked_append.mp h.full).2.1⟩

/-- The links inside of the queue do not lead out of it. -/
theorem Queued.mem_of_newer (h : Queued links xs ys) (ha : a ∈ xs ++ ys) (hab : Newer links a b) :
    b ∈ xs ++ ys := by
  obtain ⟨p, hp⟩ := hab
  rcases List.mem_append.mp ha with ha | ha
  · obtain ⟨zs, ws, rfl⟩ := List.append_of_mem ha
    obtain ⟨p', hp'⟩ := h.newer_of_mem rfl
    rw [hp', Option.some.injEq, Links.mk.injEq] at hp
    have hmem : b ∈ ws ++ ys := by
      rw [firstOf, Option.or_none] at hp
      exact List.mem_of_head? hp.2
    simp only [List.mem_append, List.mem_cons] at hmem ⊢
    tauto
  · obtain ⟨p', hp'⟩ := h.exists_half ha
    rw [hp', Option.some.injEq, Links.mk.injEq] at hp
    cases hp.2

end PowerLawRocksdb.LazyQueue
