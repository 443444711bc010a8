import Mathlib.Data.List.Cycle

/-!
# Linked structures in a heap

A heap is a list of cells, and an address is a position in it. Freed cells stay
empty, and a new cell is put at the end, so no address is used twice. Reading or
changing a cell that does not exist is undefined.

A doubly linked list is given by the relation between an address and its two
neighbours. A segment names the neighbours of its two ends, so that segments can
be cut and joined. A circular list is a `Cycle` whose consecutive addresses are
linked; one address can be taken out behind another or put in there.
-/
namespace PowerLawRocksdb.LinkedHeap

abbrev Heap (α : Type*) := List (Option α)

section Heap
variable {α : Type*} {h : Heap α} {a b : ℕ} {x : α}

def Heap.read (h : Heap α) (a : ℕ) : Option α := (h[a]?).join

def Heap.modify (h : Heap α) (a : ℕ) (f : α → α) : Option (Heap α) :=
  (h.read a).map fun x => h.set a (some (f x))

/-- The address of the next new cell. -/
def Heap.fresh (h : Heap α) : ℕ := h.length

def Heap.alloc (h : Heap α) (x : α) : Heap α := h ++ [some x]

def Heap.free (h : Heap α) (a : ℕ) : Heap α := h.set a none

theorem Heap.lt_fresh (hx : h.read a = some x) : a < h.fresh := by
  unfold Heap.read at hx
  by_contra hlt
  rw [List.getElem?_eq_none (Nat.le_of_not_lt hlt)] at hx
  cases hx

theorem Heap.modify_eq (hx : h.read a = some x) (f : α → α) :
    ∃ h', h.modify a f = some h' ∧ h'.length = h.length ∧
      ∀ b, h'.read b = if b = a then some (f x) else h.read b := by
  refine ⟨h.set a (some (f x)), by rw [Heap.modify, hx]; rfl, List.length_set, ?_⟩
  intro b
  unfold Heap.read
  rw [List.getElem?_set]
  have hlt := Heap.lt_fresh hx
  unfold Heap.fresh at hlt
  split_ifs with h₁ h₂ h₂
  · rfl
  · exact absurd h₁.symm h₂
  · exact absurd h₂.symm h₁
  · rfl

theorem Heap.read_alloc (h : Heap α) (x : α) (b : ℕ) :
    (h.alloc x).read b = if b = h.fresh then some x else h.read b := by
  unfold Heap.read Heap.alloc Heap.fresh
  rcases Nat.lt_trichotomy b h.length with hlt | rfl | hlt
  · rw [List.getElem?_append_left hlt, if_neg hlt.ne]
  · simp
  · rw [if_neg hlt.ne', List.getElem?_eq_none (by simp; omega), List.getElem?_eq_none hlt.le]

theorem Heap.read_free (h : Heap α) (a b : ℕ) :
    (h.free a).read b = if b = a then none else h.read b := by
  unfold Heap.read Heap.free
  rw [List.getElem?_set]
  by_cases hba : b = a
  · subst hba
    rw [if_pos rfl, if_pos rfl]
    split_ifs
    · rfl
    · rfl
  · rw [if_neg (Ne.symm hba), if_neg hba]

end Heap

section Linked
variable {ι : Type*} {node node' : ι → Option ι → Option ι → Prop} {p n : Option ι}
  {is js : List ι}

/-- The first address of a segment, or the one behind an empty segment. -/
def firstOf (is : List ι) (n : Option ι) : Option ι := is.head?.or n

/-- The last address of a segment, or the one before an empty segment. -/
def lastOf (p : Option ι) (is : List ι) : Option ι := is.getLast?.or p

/-- The addresses are linked in this order, between `p` and `n`. -/
def Linked (node : ι → Option ι → Option ι → Prop) : Option ι → List ι → Option ι → Prop
  | _, [], _ => True
  | p, i :: is, n => node i p (firstOf is n) ∧ Linked node (some i) is n

@[simp] theorem firstOf_nil (n : Option ι) : firstOf [] n = n := rfl

@[simp] theorem firstOf_cons (i : ι) (is : List ι) (n : Option ι) :
    firstOf (i :: is) n = some i := rfl

@[simp] theorem lastOf_nil (p : Option ι) : lastOf p [] = p := rfl

@[simp] theorem firstOf_append (is js : List ι) (n : Option ι) :
    firstOf (is ++ js) n = firstOf is (firstOf js n) := by
  cases is with
  | nil => rfl
  | cons i is => rfl

@[simp] theorem lastOf_cons (p : Option ι) (i : ι) (is : List ι) :
    lastOf p (i :: is) = lastOf (some i) is := by
  cases is with
  | nil => rfl
  | cons j is => simp [lastOf, List.getLast?_cons]

@[simp] theorem lastOf_append (p : Option ι) (is js : List ι) :
    lastOf p (is ++ js) = lastOf (lastOf p is) js := by
  induction is generalizing p with
  | nil => rfl
  | cons i is ih => rw [List.cons_append, lastOf_cons, lastOf_cons, ih]

theorem linked_append :
    Linked node p (is ++ js) n ↔
      Linked node p is (firstOf js n) ∧ Linked node (lastOf p is) js n := by
  induction is generalizing p with
  | nil => simp [Linked]
  | cons i is ih =>
      rw [List.cons_append, Linked, Linked, ih, firstOf_append, lastOf_cons, and_assoc]

theorem Linked.congr (h : Linked node p is n)
    (hnode : ∀ i ∈ is, ∀ l r, node i l r → node' i l r) : Linked node' p is n := by
  induction is generalizing p with
  | nil => trivial
  | cons i is ih =>
      exact ⟨hnode i List.mem_cons_self _ _ h.1,
        ih h.2 fun j hj => hnode j (List.mem_cons_of_mem i hj)⟩

end Linked

section Ring
variable {ι : Type*} {r r' : ι → ι → Prop} {x y z : ι} {l : List ι} {c : Cycle ι}

theorem exists_coe_cons (hx : x ∈ c) : ∃ l : List ι, c = ((x :: l : List ι) : Cycle ι) := by
  induction c using Quotient.inductionOn' with
  | h l =>
      obtain ⟨s, t, rfl⟩ := List.append_of_mem (Cycle.mem_coe_iff.mp hx)
      refine ⟨t ++ s, Quotient.sound' ?_⟩
      exact ⟨s.length, by simp [List.rotate_append_length_eq]⟩

theorem mem_toMultiset : x ∈ c.toMultiset ↔ x ∈ c := by
  induction c using Quotient.inductionOn' with
  | h l => rfl

/-- The first address is exchanged, and takes over the link of the old one. -/
theorem isChain_exchange (h : List.IsChain r (y :: (l ++ [z])))
    (hy : ∀ b, r y b → r' x b) (hl : ∀ a ∈ l, ∀ b, r a b → r' a b) :
    List.IsChain r' (x :: (l ++ [z])) := by
  induction l generalizing x y with
  | nil =>
      rw [List.nil_append, List.isChain_pair] at h ⊢
      exact hy z h
  | cons a l ih =>
      rw [List.cons_append, List.isChain_cons_cons] at h ⊢
      exact ⟨hy a h.1, ih h.2 (hl a List.mem_cons_self)
        fun b hb => hl b (List.mem_cons_of_mem a hb)⟩

theorem exists_next (h : c.Chain r) (hx : x ∈ c) : ∃ y, r x y := by
  obtain ⟨l, rfl⟩ := exists_coe_cons hx
  cases l with
  | nil => exact ⟨x, (Cycle.chain_singleton r x).mp h⟩
  | cons y l =>
      rw [Cycle.chain_coe_cons, List.cons_append, List.isChain_cons_cons] at h
      exact ⟨y, h.1⟩

theorem chain_congr (h : c.Chain r) (hr : ∀ a ∈ c, ∀ b, r a b → r' a b) : c.Chain r' := by
  induction c using Cycle.induction_on with
  | nil => exact Cycle.Chain.nil r'
  | cons x l _ =>
      exact isChain_exchange h (hr x (by simp)) fun a ha => hr a (by simp [ha])

/-- The address behind `x` is taken out, and `x` gets its link. -/
theorem chain_erase (h : ((x :: y :: l : List ι) : Cycle ι).Chain r)
    (hy : ∀ b, r y b → r' x b) (hl : ∀ a ∈ l, ∀ b, r a b → r' a b) :
    ((x :: l : List ι) : Cycle ι).Chain r' := by
  rw [Cycle.chain_coe_cons, List.cons_append, List.isChain_cons_cons] at h
  exact isChain_exchange h.2 hy hl

/-- The address `y` is put in behind `x`, and gets its link. -/
theorem chain_insert (h : ((x :: l : List ι) : Cycle ι).Chain r) (hxy : r' x y)
    (hx : ∀ b, r x b → r' y b) (hl : ∀ a ∈ l, ∀ b, r a b → r' a b) :
    ((x :: y :: l : List ι) : Cycle ι).Chain r' := by
  rw [Cycle.chain_coe_cons, List.cons_append, List.isChain_cons_cons]
  exact ⟨hxy, isChain_exchange h hx hl⟩

end Ring

end PowerLawRocksdb.LinkedHeap
