import PowerLawRocksdb.StandardSort

/-!
# Merging descending lists

The stable sort by descending rank keeps the order of elements of equal rank. The
first element of the sorted concatenation of descending lists is the head of the
first list whose head ranks highest, and the sort of what remains continues it. A
procedure that keeps picking such a head therefore produces the stable sort.
-/
namespace PowerLawRocksdb.KWayMerge
open StandardSort

variable {α : Type*} {rank : α → ℕ}

def stableSort (rank : α → ℕ) (l : List α) : List α := l.insertionSort (Ranks rank)

@[simp] theorem length_stableSort (l : List α) : (stableSort rank l).length = l.length :=
  List.length_insertionSort ..

@[simp] theorem mem_stableSort {l : List α} {a : α} : a ∈ stableSort rank l ↔ a ∈ l :=
  List.mem_insertionSort _

theorem stableSort_descends (l : List α) :
    (stableSort rank l).Pairwise fun a b => rank b ≤ rank a :=
  List.pairwise_insertionSort (Ranks rank) l

/-- An element that outranks all before it, and is outranked by none after it,
comes first. -/
theorem stableSort_pick {before after : List α} {a : α} (hbefore : ∀ b ∈ before, rank b < rank a)
    (hafter : ∀ b ∈ after, rank b ≤ rank a) :
    stableSort rank (before ++ a :: after) = a :: stableSort rank (before ++ after) := by
  induction before with
  | nil => exact List.insertionSort_cons_of_forall_rel _ hafter
  | cons b before ih =>
      have hb : ¬ Ranks rank b a := Nat.not_le_of_lt (hbefore b List.mem_cons_self)
      have ih := ih fun c hc => hbefore c (List.mem_cons_of_mem b hc)
      simp only [stableSort] at ih ⊢
      rw [List.cons_append, List.insertionSort_cons, ih, List.orderedInsert_cons, if_neg hb,
        List.cons_append, List.insertionSort_cons]

theorem stableSort_flatten_pick {lanes : List (List α)} {i : ℕ} {a : α} {rest : List α}
    (hi : lanes[i]? = some (a :: rest))
    (hbefore : ∀ j < i, ∀ lane, lanes[j]? = some lane → ∀ b ∈ lane, rank b < rank a)
    (hall : ∀ lane ∈ lanes, ∀ b ∈ lane, rank b ≤ rank a) :
    stableSort rank lanes.flatten = a :: stableSort rank (lanes.set i rest).flatten := by
  obtain ⟨hlt, hget⟩ := List.getElem?_eq_some_iff.mp hi
  have hlanes : lanes.flatten =
      (lanes.take i).flatten ++ a :: (rest ++ (lanes.drop (i + 1)).flatten) := by
    conv_lhs => rw [← List.take_append_drop i lanes, ← List.getElem_cons_drop hlt, hget]
    simp
  have hset : (lanes.set i rest).flatten =
      (lanes.take i).flatten ++ (rest ++ (lanes.drop (i + 1)).flatten) := by
    rw [List.set_eq_take_append_cons_drop, if_pos hlt]
    simp
  rw [hlanes, hset]
  apply stableSort_pick
  · intro b hb
    obtain ⟨lane, hlane, hb⟩ := List.mem_flatten.mp hb
    obtain ⟨j, hj, rfl⟩ := List.getElem_of_mem hlane
    rw [List.length_take] at hj
    rw [List.getElem_take] at hb
    exact hbefore j (by omega) _ (List.getElem?_eq_getElem (by omega)) b hb
  · intro b hb
    rcases List.mem_append.mp hb with hb | hb
    · exact hall _ (List.mem_of_getElem? hi) b (List.mem_cons_of_mem a hb)
    · obtain ⟨lane, hlane, hb⟩ := List.mem_flatten.mp hb
      exact hall lane (List.mem_of_mem_drop hlane) b hb

end PowerLawRocksdb.KWayMerge
