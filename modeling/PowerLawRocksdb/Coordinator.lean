import PowerLawRocksdb.ExceptionList
import PowerLawRocksdb.Transitions
import Mathlib.Data.Finset.Basic
import Mathlib.Data.Fintype.Basic

/-!
# The coordinator

The coordinator sends every put to the instance that the exception list names for
its key, or else to the home instance of the key. A repartition replaces the list
as a whole. It then deletes every key of the new list from instance `key % 3`,
whatever the number of instances is and wherever the old list had put the key. It
moves no data.

Here every request is atomic. An index outside the vector of clients makes the
request undefined.
-/
namespace PowerLawRocksdb.Coordinator
open SpaceSaving

variable {n : ℕ}

/-- The keys stored by each of the `n` instances, under the current exceptions. -/
structure Cluster (n : ℕ) where
  exceptions : ExceptionList
  stores : Fin n → Finset Key

def Cluster.init (n : ℕ) : Cluster n := ⟨∅, fun _ => ∅⟩

/-- The access `clients[inst]`. -/
def client (n : ℕ) (inst : ℤ) : Option (Fin n) :=
  if h : 0 ≤ inst ∧ inst < n then some ⟨inst.toNat, by omega⟩ else none

def home (n : ℕ) (key : Key) : ℤ := (key.toNat % n : ℕ)

def route (n : ℕ) (exceptions : ExceptionList) (key : Key) : ℤ :=
  (exceptions.lookup key).getD (home n key)

def Cluster.lookup (s : Cluster n) (key : Key) : ℤ := route n s.exceptions key

/-- The call of `put` on an instance. -/
def Cluster.callPut (s : Cluster n) (inst : ℤ) (key : Key) : Option (Cluster n) := do
  let i ← client n inst
  return { s with stores := Function.update s.stores i (insert key (s.stores i)) }

def Cluster.put (s : Cluster n) (key : Key) : Option (Cluster n) := s.callPut (s.lookup key) key

def Cluster.del (s : Cluster n) (inst : ℤ) (key : Key) : Option (Cluster n) := do
  let i ← client n inst
  return { s with stores := Function.update s.stores i ((s.stores i).erase key) }

/-- The loop of deletions, with the origin `key % 3`. -/
def Cluster.delAll (s : Cluster n) (items : List (Sigma fun _ : Key => ℤ)) : Option (Cluster n) :=
  items.foldlM (fun t item => t.del (home 3 item.1) item.1) s

def Cluster.handleRepartition (s : Cluster n) (exceptions : ExceptionList) : Option (Cluster n) :=
  { s with exceptions := exceptions }.delAll exceptions.entries

inductive Request where
  | put (key : Key)
  | repartition (exceptions : ExceptionList)

def Cluster.step (s : Cluster n) : Request → Option (Cluster n)
  | .put key => s.put key
  | .repartition exceptions => s.handleRepartition exceptions

/-- Every instance holds only keys that puts go to it for. -/
def Cluster.Owned (s : Cluster n) : Prop := ∀ i, ∀ x ∈ s.stores i, s.lookup x = (i : ℕ)

/-- The instance with this number holds the key. -/
def Cluster.Holds (s : Cluster n) (inst : ℤ) (x : Key) : Prop :=
  ∃ i, client n inst = some i ∧ x ∈ s.stores i

instance (s : Cluster n) (inst : ℤ) (x : Key) : Decidable (s.Holds inst x) :=
  inferInstanceAs (Decidable (∃ _ : Fin n, _))

theorem client_eq_some {inst : ℤ} {i : Fin n} : client n inst = some i ↔ inst = (i : ℕ) := by
  rw [client]
  split_ifs with h
  · rw [Option.some_inj, Fin.ext_iff]
    simp only
    omega
  · have := i.isLt
    simp only [false_iff]
    omega

theorem callPut_spec {s t : Cluster n} {inst : ℤ} {key : Key} (h : s.callPut inst key = some t) :
    (∃ i : Fin n, inst = (i : ℕ)) ∧ t.exceptions = s.exceptions ∧
      ∀ i x, x ∈ t.stores i ↔ x ∈ s.stores i ∨ (x = key ∧ inst = (i : ℕ)) := by
  simp only [Cluster.callPut, Option.bind_eq_bind, Option.bind_eq_some_iff, client_eq_some,
    Option.pure_def, Option.some.injEq] at h
  obtain ⟨j, rfl, rfl⟩ := h
  refine ⟨⟨j, rfl⟩, rfl, fun i x => ?_⟩
  by_cases hij : i = j
  · subst hij
    simp [or_comm]
  · have hne : ((j : ℕ) : ℤ) ≠ (i : ℕ) := fun h => hij (Fin.ext (by omega))
    simp [Function.update_of_ne hij, hne]

theorem del_spec {s t : Cluster n} {inst : ℤ} {key : Key} (h : s.del inst key = some t) :
    t.exceptions = s.exceptions ∧
      ∀ i x, x ∈ t.stores i ↔ x ∈ s.stores i ∧ ¬ (x = key ∧ inst = (i : ℕ)) := by
  simp only [Cluster.del, Option.bind_eq_bind, Option.bind_eq_some_iff, client_eq_some,
    Option.pure_def, Option.some.injEq] at h
  obtain ⟨j, rfl, rfl⟩ := h
  refine ⟨rfl, fun i x => ?_⟩
  by_cases hij : i = j
  · subst hij
    simp [and_comm]
  · have hne : ((j : ℕ) : ℤ) ≠ (i : ℕ) := fun h => hij (Fin.ext (by omega))
    simp [Function.update_of_ne hij, hne]

theorem delAll_spec {s t : Cluster n} {items : List (Sigma fun _ : Key => ℤ)}
    (h : s.delAll items = some t) :
    t.exceptions = s.exceptions ∧
      ∀ i x, x ∈ t.stores i ↔ x ∈ s.stores i ∧ ¬ (x ∈ items.keys ∧ home 3 x = (i : ℕ)) := by
  induction items generalizing s with
  | nil =>
      cases h
      simp
  | cons item items ih =>
      simp only [Cluster.delAll, List.foldlM_cons, Option.bind_eq_bind,
        Option.bind_eq_some_iff] at h
      obtain ⟨u, hu, ht⟩ := h
      obtain ⟨hue, hus⟩ := del_spec hu
      obtain ⟨hte, hts⟩ := ih ht
      refine ⟨hte.trans hue, fun i x => ?_⟩
      rw [hts, hus, List.keys_cons, List.mem_cons]
      grind

/-- What a repartition leaves on each instance. -/
theorem handleRepartition_spec {s t : Cluster n} {e : ExceptionList}
    (h : s.handleRepartition e = some t) :
    t.exceptions = e ∧
      ∀ i x, x ∈ t.stores i ↔ x ∈ s.stores i ∧ ¬ (x ∈ e ∧ home 3 x = (i : ℕ)) :=
  delAll_spec h

/-- The repartition routes a stored key to where it is, or cleans it up there. -/
def Cluster.Clears (s : Cluster n) : Request → Prop
  | .put _ => True
  | .repartition e =>
      ∀ i, ∀ x ∈ s.stores i, route n e x = (i : ℕ) ∨ (x ∈ e ∧ home 3 x = (i : ℕ))

instance (s : Cluster n) : (req : Request) → Decidable (s.Clears req)
  | .put _ => isTrue trivial
  | .repartition e =>
      @Nat.decidableForallFin n (fun i => ∀ x ∈ s.stores i, route n e x = (i : ℕ) ∨
        (x ∈ e ∧ home 3 x = (i : ℕ))) fun _ => Finset.decidableDforallFinset

theorem step_owned_iff {s t : Cluster n} {req : Request} (hs : s.Owned)
    (h : s.step req = some t) : t.Owned ↔ s.Clears req := by
  cases req with
  | put key =>
      obtain ⟨-, he, hmem⟩ := callPut_spec h
      refine ⟨fun _ => trivial, fun _ i x hx => ?_⟩
      rw [Cluster.lookup, he]
      rcases (hmem i x).mp hx with hx | ⟨rfl, hi⟩
      · exact hs i x hx
      · exact hi
  | repartition e =>
      obtain ⟨rfl, hmem⟩ := handleRepartition_spec h
      refine forall_congr' fun i => forall_congr' fun x => ?_
      rw [hmem i x, Cluster.lookup]
      tauto

theorem owned_init (n : ℕ) : (Cluster.init n).Owned := fun _ _ hx => by
  simp [Cluster.init] at hx

/-- The cluster has at most one owner per key throughout a run exactly when every
repartition cleans up, or routes back, all that is stored. -/
theorem owned_throughout_iff {reqs : List Request} {s : Cluster n}
    (h : Transitions.run Cluster.step (Cluster.init n) reqs = some s) :
    Transitions.Throughout Cluster.step Cluster.Owned (Cluster.init n) reqs ↔
      Transitions.Along Cluster.step Cluster.Clears (Cluster.init n) reqs :=
  Transitions.throughout_iff_along (I := fun _ => True) (fun _ _ _ _ _ => trivial)
    (fun _ _ _ _ hs ht => step_owned_iff hs ht) trivial (owned_init n) h

theorem owned_throughout_exception :
    Transitions.Throughout Cluster.step Cluster.Owned (Cluster.init 3)
      [.put 0, .put 4, .repartition (AList.singleton 0 1), .put 0, .put 3] := by
  obtain ⟨s, hs⟩ : ∃ s, Transitions.run Cluster.step (Cluster.init 3)
      [.put 0, .put 4, .repartition (AList.singleton 0 1), .put 0, .put 3] = some s := ⟨_, rfl⟩
  exact (owned_throughout_iff hs).mpr (by decide)

/-- A key that was put under an exception stays behind when it leaves the list. -/
theorem owned_broken_by_removal :
    ∃ s, Transitions.run Cluster.step (Cluster.init 3)
        [.repartition (AList.singleton 0 1), .put 0, .repartition ∅] = some s ∧ ¬ s.Owned :=
  ⟨_, rfl, fun h => absurd (h 1 0 (by decide)) (by decide)⟩

/-- A stored copy stays until a repartition lists its key with this origin. -/
theorem step_kept {s t : Cluster n} {req : Request} (h : s.step req = some t) {i : Fin n} {x : Key}
    (hx : x ∈ s.stores i)
    (hkeep : ∀ e, req = .repartition e → x ∈ e → home 3 x ≠ (i : ℕ)) : x ∈ t.stores i := by
  cases req with
  | put key => exact ((callPut_spec h).2.2 i x).mpr (Or.inl hx)
  | repartition e =>
      exact ((handleRepartition_spec h).2 i x).mpr ⟨hx, fun hd => hkeep e rfl hd.1 hd.2⟩

theorem run_kept {s t : Cluster n} {reqs : List Request}
    (h : Transitions.run Cluster.step s reqs = some t) {i : Fin n} {x : Key} (hx : x ∈ s.stores i)
    (hkeep : ∀ e, .repartition e ∈ reqs → x ∈ e → home 3 x ≠ (i : ℕ)) : x ∈ t.stores i := by
  induction reqs generalizing s with
  | nil => cases h; exact hx
  | cons req reqs ih =>
      obtain ⟨u, hu, ht⟩ := Transitions.run_cons.mp h
      refine ih ht (step_kept hu hx fun e he => hkeep e (by simp [he])) fun e he => ?_
      exact hkeep e (List.mem_cons_of_mem _ he)

/-- A key is still held by the instance that it is routed to, if it was put there
and no repartition since has deleted it from there. -/
theorem put_kept {s₀ s : Cluster 3} {x : Key} {reqs : List Request}
    (h : Transitions.run Cluster.step s₀ (.put x :: reqs) = some s)
    (hroute : s.lookup x = s₀.lookup x)
    (hkeep : ∀ e, .repartition e ∈ reqs → x ∈ e → home 3 x ≠ s₀.lookup x) :
    s.Holds (s.lookup x) x := by
  obtain ⟨t, ht, hs⟩ := Transitions.run_cons.mp h
  obtain ⟨⟨i, hi⟩, -, hmem⟩ := callPut_spec ht
  refine ⟨i, client_eq_some.mpr (hroute.trans hi), run_kept hs ?_ (hi ▸ hkeep)⟩
  exact (hmem i x).mpr (Or.inr ⟨rfl, hi⟩)

theorem put_kept_exception :
    ∃ s, Transitions.run Cluster.step ⟨AList.singleton 0 1, fun _ : Fin 3 => ∅⟩
        [.put 0, .repartition (AList.singleton 0 1), .put 3] = some s ∧
      s.Holds (s.lookup 0) 0 :=
  ⟨_, rfl, put_kept (show Transitions.run Cluster.step ⟨AList.singleton 0 1, fun _ : Fin 3 => ∅⟩
      (.put 0 :: [.repartition (AList.singleton 0 1), .put 3]) = some _ from rfl) rfl
    fun _ _ _ => by decide⟩

/-- A repartition moves no data, so a key that it gives to another instance is not
held there. -/
theorem put_lost_by_repartition :
    ∃ s, Transitions.run Cluster.step (Cluster.init 3)
        [.put 0, .repartition (AList.singleton 0 1)] = some s ∧ ¬ s.Holds (s.lookup 0) 0 :=
  ⟨_, rfl, by decide⟩

end PowerLawRocksdb.Coordinator
