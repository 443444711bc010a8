import PowerLawRocksdb.Coordinator
import PowerLawRocksdb.PartitionerRange
import PowerLawRocksdb.Tiers

/-!
# Indices into the vector of clients

A put goes to the instance that `lookup` returns, a repartition deletes each listed
key from its origin `key % 3`, and the partitioner gives keys to the instances 0, 1
and 2. Only `lookup` asks how many clients there are. The indices are therefore
valid in every run of a cluster of three or more instances, and in smaller clusters
one repartition is enough to leave the vector.

The list that reaches the coordinator has the entries of the one that was sent, in
any order of iteration.
-/
namespace PowerLawRocksdb.Coordinator
open SpaceSaving Partitioner

variable {n k num : ℕ}

/-- The indices into `clients` that a request uses, in order. -/
def Cluster.indices (s : Cluster n) : Request → List ℤ
  | .put key => [s.lookup key]
  | .repartition e => e.entries.map fun item => home 3 item.1

/-- A repartition of `num` instances with reports of `3 * k` entries sends this list. -/
def Produced (k num : ℕ) (e : ExceptionList) : Prop :=
  ∃ (topks : List TopkData) (sent : ExceptionList), topks.length = num ∧
    (∀ topk ∈ topks, topk.length = 3 * k) ∧ Partitioner.repartition k topks = some sent ∧
    e.entries.Perm sent.entries

def Request.Produced (k num : ℕ) : Request → Prop
  | .put _ => True
  | .repartition e => Coordinator.Produced k num e

/-- Every exception points to one of the first three instances. -/
def Cluster.Tiered (s : Cluster n) : Prop :=
  ∀ x inst, s.exceptions.lookup x = some inst → 0 ≤ inst ∧ inst < 3

theorem Produced.bounds {e : ExceptionList} (h : Produced k num e) {x : Key} {inst : ℤ}
    (hx : e.lookup x = some inst) : 0 ≤ inst ∧ inst < 3 := by
  obtain ⟨topks, sent, -, -, hsent, hperm⟩ := h
  rw [AList.perm_lookup hperm] at hx
  exact repartition_bounds hsent hx

theorem home_bounds (hn : 0 < n) (x : Key) : 0 ≤ home n x ∧ home n x < n := by
  have := Nat.mod_lt x.toNat hn
  rw [home]
  omega

theorem step_tiered {s t : Cluster n} {req : Request} (hs : s.Tiered)
    (hreq : req.Produced k num) (h : s.step req = some t) : t.Tiered := by
  cases req with
  | put key =>
      intro x inst hx
      rw [(callPut_spec h).2.1] at hx
      exact hs x inst hx
  | repartition e =>
      intro x inst hx
      rw [(handleRepartition_spec h).1] at hx
      exact Produced.bounds hreq hx

theorem run_tiered {reqs : List Request} {s : Cluster n}
    (h : Transitions.run Cluster.step (Cluster.init n) reqs = some s)
    (hreqs : ∀ req ∈ reqs, req.Produced k num) : s.Tiered := by
  have hinit : (Cluster.init n).Tiered := by
    intro x inst hx
    cases hx
  exact Transitions.run_invariant (fun _ _ _ hs hreq ht => step_tiered hs hreq ht) hinit
    (Transitions.along_of_forall hreqs _) h

theorem Cluster.Tiered.indices {s : Cluster n} (hs : s.Tiered) (hn : 3 ≤ n) (req : Request) :
    ∀ inst ∈ s.indices req, 0 ≤ inst ∧ inst < n := by
  cases req with
  | put key =>
      intro inst hinst
      rw [Cluster.indices, List.mem_singleton, Cluster.lookup, route] at hinst
      cases hlookup : s.exceptions.lookup key with
      | none =>
          rw [hlookup, Option.getD_none] at hinst
          exact hinst ▸ home_bounds (by omega) key
      | some target =>
          rw [hlookup, Option.getD_some] at hinst
          have := hs key target hlookup
          omega
  | repartition e =>
      intro inst hinst
      rw [Cluster.indices, List.mem_map] at hinst
      obtain ⟨item, -, rfl⟩ := hinst
      have := home_bounds (n := 3) (by decide) item.1
      omega

/-- Up to three instances, reports of one key alone put this key into the list. -/
theorem exists_produced (hk : 0 < k) (hpos : 0 < num) (hnum : num ≤ 3) (key : Key) :
    ∃ e, Produced k num e ∧ key ∈ e := by
  have hlong : ∀ topk ∈ idleReports key k num,
      k * (idleReports key k num).length ≤ topk.length := by
    intro topk htopk
    rw [length_of_mem_idleReports htopk, length_idleReports, Nat.mul_comm]
    exact Nat.mul_le_mul_right k hnum
  obtain ⟨s, hs, hlen⟩ := merge_defined hlong
  refine ⟨s.exceptions, ⟨idleReports key k num, s.exceptions, length_idleReports num,
    fun _ => length_of_mem_idleReports, by rw [repartition, hs, Option.map_some], .refl _⟩, ?_⟩
  have hmerged : 0 < s.merged.length := by
    rw [hlen, length_idleReports]
    exact Nat.mul_pos hk hpos
  have hfirst : s.merged[0].1 = key := by
    obtain ⟨topk, htopk, hp⟩ := merged_mem_reports hs _ (List.getElem_mem hmerged)
    exact key_of_mem_idleReports htopk hp
  rw [merge_assigned hs, mem_assignAll]
  refine ⟨0, by decide, List.findIdx?_eq_some_iff_getElem.mpr ⟨hmerged, ?_, by simp⟩⟩
  simp [hfirst]

/-- The indices are valid in all states that puts and repartitions lead to exactly
for three or more instances. -/
theorem indices_valid_iff (hk : 0 < k) (hnum : 0 < num) :
    (∀ (reqs : List Request) (s : Cluster num) (req : Request),
      Transitions.run Cluster.step (Cluster.init num) reqs = some s →
      (∀ r ∈ reqs, r.Produced k num) → req.Produced k num →
      ∀ inst ∈ s.indices req, 0 ≤ inst ∧ inst < num) ↔ 3 ≤ num := by
  constructor
  · intro h
    by_contra hlt
    obtain ⟨e, he, hmem⟩ := exists_produced hk hnum (by omega) (2 : Key)
    have htwo : home 3 2 ∈ (Cluster.init num).indices (.repartition e) := by
      rw [AList.mem_keys, AList.keys, List.keys, List.mem_map] at hmem
      obtain ⟨item, hitem, hkey⟩ := hmem
      exact List.mem_map.mpr ⟨item, hitem, by rw [hkey]⟩
    have hvalid := h [] _ (.repartition e) rfl (by simp) he _ htwo
    have : home 3 2 = 2 := by decide
    omega
  · intro hthree reqs s req hrun hreqs _
    exact (run_tiered hrun hreqs).indices hthree req

theorem indices_valid_three :
    ∃ s, Transitions.run Cluster.step (Cluster.init 3)
        [.put 5, .repartition (AList.singleton 2 0)] = some s ∧
      ∀ inst ∈ s.indices (.put 2), 0 ≤ inst ∧ inst < 3 := by
  have hsent : Produced 1 3 (AList.singleton 2 0) :=
    ⟨List.replicate 3 [(2, 1), (5, 1), (8, 1)], AList.singleton 2 0, rfl, by decide, rfl, .refl _⟩
  obtain ⟨s, hs⟩ : ∃ s, Transitions.run Cluster.step (Cluster.init 3)
      [.put 5, .repartition (AList.singleton 2 0)] = some s := ⟨_, rfl⟩
  refine ⟨s, hs, (indices_valid_iff (k := 1) Nat.one_pos (by decide)).mpr le_rfl _ s (.put 2) hs ?_
    trivial⟩
  rintro r hr
  simp only [List.mem_cons, List.not_mem_nil, or_false] at hr
  rcases hr with rfl | rfl
  · trivial
  · exact hsent

/-- With two instances, a report of key 2 makes the coordinator use index 2. -/
theorem indices_invalid_two :
    ∃ e, Produced 1 2 e ∧
      ∃ inst ∈ (Cluster.init 2).indices (.repartition e), ¬ (0 ≤ inst ∧ inst < 2) :=
  ⟨AList.singleton 2 0, ⟨[[(2, 1), (5, 1), (8, 1)], [(2, 1), (5, 1), (8, 1)]],
    AList.singleton 2 0, rfl, by decide, rfl, .refl _⟩, 2, by decide, by decide⟩

end PowerLawRocksdb.Coordinator
