import PowerLawRocksdb.Partitioner
import Mathlib.Data.List.Induction

/-!
# The tiers of the exception list

The exception list is built while the merge runs: the round at a position enters
its key into the tier of this position, and a key that has an entry keeps it. The
list is therefore a function of the merged order. A key that occurs in it belongs to
the tier of its first position.
-/
namespace PowerLawRocksdb.Partitioner
open SpaceSaving

/-- The instance that the keys at a position of the merged order are given to. -/
def tier (position : ℕ) : Option ℤ :=
  if position < 3000 then some 0
  else if position < 4000 then some 1
  else if position < 5000 then some 2
  else none

def firstPosition (merged : List (Key × ℕ × ℕ)) (x : Key) : Option ℕ :=
  merged.findIdx? fun a => a.1 == x

/-- The list that the rounds of a whole merged order build. -/
def assignAll (merged : List (Key × ℕ × ℕ)) : ExceptionList :=
  merged.zipIdx.foldl (fun e a => assign e a.2 a.1.1) ∅

theorem assign_eq (e : ExceptionList) (position : ℕ) (key : Key) :
    assign e position key = ((tier position).map (e.emplace key)).getD e := by
  rw [assign, tier]
  split_ifs
  all_goals rfl

theorem tier_bounds {position : ℕ} {inst : ℤ} (h : tier position = some inst) :
    0 ≤ inst ∧ inst < 3 := by
  rw [tier] at h
  split_ifs at h
  all_goals
    cases h
    decide

theorem tier_eq_none {position : ℕ} : tier position = none ↔ 5000 ≤ position := by
  rw [tier]
  split_ifs
  all_goals simp
  all_goals omega

theorem tier_mono {p q : ℕ} {a b : ℤ} (hp : tier p = some a) (hq : tier q = some b)
    (hab : a < b) : p < q := by
  rw [tier] at hp hq
  split_ifs at hp hq
  all_goals
    cases hp
    cases hq
    omega

theorem assignAll_concat (merged : List (Key × ℕ × ℕ)) (a : Key × ℕ × ℕ) :
    assignAll (merged ++ [a]) = assign (assignAll merged) merged.length a.1 := by
  simp [assignAll, List.zipIdx_append, List.foldl_append]

theorem firstPosition_concat (merged : List (Key × ℕ × ℕ)) (a : Key × ℕ × ℕ) (x : Key) :
    firstPosition (merged ++ [a]) x =
      (firstPosition merged x).or (if a.1 = x then some merged.length else none) := by
  rw [firstPosition, List.findIdx?_append, ← firstPosition]
  by_cases h : a.1 = x
  · simp [h]
  · simp [h]

theorem firstPosition_lt {merged : List (Key × ℕ × ℕ)} {x : Key} {position : ℕ}
    (h : firstPosition merged x = some position) : position < merged.length :=
  (List.findIdx?_eq_some_iff_getElem.mp h).1

theorem firstPosition_inv {merged : List (Key × ℕ × ℕ)} {x : Key} {position : ℕ}
    (h : firstPosition merged x = some position) :
    (∃ a, merged[position]? = some a ∧ a.1 = x) ∧
      ∀ j a, merged[j]? = some a → a.1 = x → position ≤ j := by
  obtain ⟨hlt, hkey, hbefore⟩ := List.findIdx?_eq_some_iff_getElem.mp h
  constructor
  · exact ⟨_, List.getElem?_eq_getElem hlt, eq_of_beq hkey⟩
  · intro j a hj hx
    by_contra hle
    obtain ⟨hjlt, rfl⟩ := List.getElem?_eq_some_iff.mp hj
    exact hbefore j (Nat.lt_of_not_le hle) (beq_iff_eq.mpr hx)

theorem exists_firstPosition {merged : List (Key × ℕ × ℕ)} {x : Key} {n : ℕ} :
    (∃ position < n, firstPosition merged x = some position) ↔
      ∃ position < n, ∃ a, merged[position]? = some a ∧ a.1 = x := by
  constructor
  · rintro ⟨position, hlt, hfirst⟩
    exact ⟨position, hlt, (firstPosition_inv hfirst).1⟩
  · rintro ⟨j, hlt, a, hj, hx⟩
    cases hfirst : firstPosition merged x with
    | none =>
        have hnone := List.findIdx?_eq_none_iff.mp hfirst a (List.mem_of_getElem? hj)
        simp [hx] at hnone
    | some position =>
        exact ⟨position, ((firstPosition_inv hfirst).2 j a hj hx).trans_lt hlt, rfl⟩

/-- A key has an entry exactly if its first position is in a tier. -/
theorem lookup_assignAll (merged : List (Key × ℕ × ℕ)) (x : Key) :
    (assignAll merged).lookup x = (firstPosition merged x).bind tier := by
  induction merged using List.reverseRecOn with
  | nil => rfl
  | append_singleton merged a ih =>
      rw [assignAll_concat, firstPosition_concat, assign_eq]
      by_cases hx : a.1 = x
      · subst hx
        rw [if_pos rfl]
        cases hfirst : firstPosition merged a.1 with
        | none =>
            have hnew : a.1 ∉ assignAll merged := by
              rw [← AList.lookup_eq_none, ih, hfirst, Option.bind_none]
            cases htier : tier merged.length with
            | none => simp [ih, hfirst, htier]
            | some inst => simp [ExceptionList.lookup_emplace_self inst hnew, htier]
        | some position =>
            have hlt := firstPosition_lt hfirst
            cases htier : tier merged.length with
            | none => simp [ih, hfirst]
            | some inst =>
                have hmem : a.1 ∈ assignAll merged := by
                  rw [← AList.lookup_isSome, ih, hfirst, Option.bind_some,
                    Option.isSome_iff_ne_none, Ne, tier_eq_none]
                  intro hle
                  rw [tier_eq_none.mpr (hle.trans hlt.le)] at htier
                  cases htier
                simp [ExceptionList.emplace_of_mem inst hmem, ih, hfirst]
      · rw [if_neg hx, Option.or_none, ← ih]
        cases tier merged.length with
        | none => rfl
        | some inst => exact ExceptionList.lookup_emplace_ne inst (Ne.symm hx)

theorem mem_assignAll {merged : List (Key × ℕ × ℕ)} {x : Key} :
    x ∈ assignAll merged ↔ ∃ position < 5000, firstPosition merged x = some position := by
  rw [← AList.lookup_isSome, lookup_assignAll]
  cases firstPosition merged x with
  | none => simp
  | some position =>
      rw [Option.bind_some, Option.isSome_iff_ne_none, Ne, tier_eq_none]
      simp

variable {k : ℕ} {topks : List TopkData}

/-- The exception list is determined by the merged order. -/
theorem merge_assigned {s : Merge} (h : merge k topks = some s) :
    s.exceptions = assignAll s.merged := by
  refine rounds_preserve (I := fun s => s.exceptions = assignAll s.merged) ?_ rfl h
  intro s s' hs hround
  obtain ⟨i, cur, p, -, rfl⟩ := round_inv hround
  rw [assignAll_concat, hs]

/-- Every exception points to one of the instances 0, 1 and 2. -/
theorem repartition_bounds {e : ExceptionList} (h : repartition k topks = some e) {x : Key}
    {inst : ℤ} (hx : e.lookup x = some inst) : 0 ≤ inst ∧ inst < 3 := by
  rw [repartition, Option.map_eq_some_iff] at h
  obtain ⟨s, hs, rfl⟩ := h
  rw [merge_assigned hs, lookup_assignAll, Option.bind_eq_some_iff] at hx
  obtain ⟨position, -, htier⟩ := hx
  exact tier_bounds htier

end PowerLawRocksdb.Partitioner
