import PowerLawRocksdb.Coordinator

/-!
# Puts racing with a repartition

The coordinator serves puts and the repartition handler on different threads. The
handler holds `except_lock` from the replacement of the map to its last deletion.
A put only holds it while it looks its key up, and calls the chosen instance
afterwards. A put that was routed under the old map can therefore reach its
instance after the deletion that was meant to clean up there.
-/
namespace PowerLawRocksdb.CoordinatorRace
open SpaceSaving Coordinator

/-- The thread of `handle_repartition`. -/
inductive Handler where
  | waiting (exceptions : ExceptionList)
  | deleting (items : List (Sigma fun _ : Key => ℤ))
  | finished

/-- The keys whose deletion is still to be sent. -/
def Handler.pending : Handler → List Key
  | .deleting items => items.keys
  | _ => []

def Handler.locked : Handler → Bool
  | .deleting _ => true
  | _ => false

/-- The map has been replaced. -/
def Handler.started : Handler → Bool
  | .waiting _ => false
  | _ => true

/-- Three instances, the handler, and the puts that have been routed but not sent. -/
structure Race where
  cluster : Cluster 3
  handler : Handler
  routed : List (Key × ℤ)

def Race.start (stores : Fin 3 → Finset Key) (exceptions : ExceptionList) : Race :=
  ⟨⟨∅, stores⟩, .waiting exceptions, []⟩

inductive Action where
  | lookup (key : Key)
  | send (key : Key) (inst : ℤ)
  | swap
  | delete
  | release

def Race.step (s : Race) : Action → Option Race
  | .lookup key =>
      if s.handler.locked then none
      else some { s with routed := (key, s.cluster.lookup key) :: s.routed }
  | .send key inst =>
      if (key, inst) ∈ s.routed then
        (s.cluster.callPut inst key).map fun c =>
          { s with cluster := c, routed := s.routed.erase (key, inst) }
      else none
  | .swap =>
      match s.handler with
      | .waiting e =>
          some { s with
            cluster := { s.cluster with exceptions := e }
            handler := .deleting e.entries }
      | _ => none
  | .delete =>
      match s.handler with
      | .deleting (item :: items) =>
          (s.cluster.del (home 3 item.1) item.1).map fun c =>
            { s with cluster := c, handler := .deleting items }
      | _ => none
  | .release =>
      match s.handler with
      | .deleting [] => some { s with handler := .finished }
      | _ => none

/-- All requests have been served. -/
def Race.Finished (s : Race) : Prop := s.handler = .finished ∧ s.routed = []

/-- A put is sent to where its key is routed now, or ahead of its deletion. -/
def Race.Timely (s : Race) : Action → Prop
  | .send key inst => s.cluster.lookup key = inst ∨ key ∈ s.handler.pending
  | _ => True

instance (s : Race) : (a : Action) → Decidable (s.Timely a)
  | .send key inst =>
      inferInstanceAs (Decidable (s.cluster.lookup key = inst ∨ key ∈ s.handler.pending))
  | .lookup _ | .swap | .delete | .release => isTrue trivial

/-- What holds as long as every put is timely. -/
structure Placed (s : Race) : Prop where
  stored : ∀ i, ∀ x ∈ s.cluster.stores i, s.cluster.lookup x = (i : ℕ) ∨
    (x ∈ s.handler.pending ∧ home 3 x = (i : ℕ))
  routed : ∀ p ∈ s.routed, s.cluster.lookup p.1 = p.2 ∨
    (home 3 p.1 = p.2 ∧ s.handler.started)
  initial : s.handler.started = false → s.cluster.exceptions = ∅

/-- A copy that no deletion is going to remove is in the wrong place. -/
def Misplaced (s : Race) : Prop :=
  s.handler.started ∧
    ∃ i x, x ∈ s.cluster.stores i ∧ s.cluster.lookup x ≠ (i : ℕ) ∧ x ∉ s.handler.pending

theorem send_eq {s t : Race} {key : Key} {inst : ℤ} (h : s.step (.send key inst) = some t) :
    (key, inst) ∈ s.routed ∧ ∃ c, s.cluster.callPut inst key = some c ∧
      t = { s with cluster := c, routed := s.routed.erase (key, inst) } := by
  simp only [Race.step] at h
  split_ifs at h with hmem
  obtain ⟨c, hc, rfl⟩ := Option.map_eq_some_iff.mp h
  exact ⟨hmem, c, hc, rfl⟩

theorem swap_eq {s t : Race} (h : s.step .swap = some t) :
    ∃ e, s.handler = .waiting e ∧
      t = ⟨⟨e, s.cluster.stores⟩, .deleting e.entries, s.routed⟩ := by
  simp only [Race.step] at h
  split at h
  · cases h
    exact ⟨_, ‹_›, rfl⟩
  · cases h

theorem delete_eq {s t : Race} (h : s.step .delete = some t) :
    ∃ item items c, s.handler = .deleting (item :: items) ∧
      s.cluster.del (home 3 item.1) item.1 = some c ∧ t = ⟨c, .deleting items, s.routed⟩ := by
  simp only [Race.step] at h
  split at h
  · obtain ⟨c, hc, rfl⟩ := Option.map_eq_some_iff.mp h
    exact ⟨_, _, c, ‹_›, hc, rfl⟩
  · cases h

theorem release_eq {s t : Race} (h : s.step .release = some t) :
    s.handler = .deleting [] ∧ t = { s with handler := .finished } := by
  simp only [Race.step] at h
  split at h
  · cases h
    exact ⟨‹_›, rfl⟩
  · cases h

theorem lookup_eq {s t : Race} {key : Key} (h : s.step (.lookup key) = some t) :
    t = { s with routed := (key, s.cluster.lookup key) :: s.routed } := by
  simp only [Race.step] at h
  split_ifs at h
  cases h
  rfl

theorem lookup_of_exceptions {c d : Cluster 3} (h : c.exceptions = d.exceptions) (x : Key) :
    c.lookup x = d.lookup x := by
  rw [Cluster.lookup, Cluster.lookup, h]

theorem route_of_notMem {n : ℕ} {e : ExceptionList} {x : Key} (h : x ∉ e) :
    route n e x = home n x := by
  rw [route, AList.lookup_eq_none.mpr h, Option.getD_none]

theorem Placed.send {s t : Race} {key : Key} {inst : ℤ} (h : Placed s)
    (hC : s.Timely (.send key inst)) (hstep : s.step (.send key inst) = some t) : Placed t := by
  obtain ⟨hmem, c, hc, rfl⟩ := send_eq hstep
  obtain ⟨-, he, hs⟩ := callPut_spec hc
  refine ⟨fun i x hx => ?_, fun p hp => ?_, fun hw => he.trans (h.initial hw)⟩
  · rw [lookup_of_exceptions he]
    rcases (hs i x).mp hx with hx | ⟨rfl, rfl⟩
    · exact h.stored i x hx
    · rcases h.routed _ hmem with hl | ⟨hhome, -⟩
      · exact Or.inl hl
      · exact hC.imp_right fun hp => ⟨hp, hhome⟩
  · rw [lookup_of_exceptions he]
    exact h.routed p (List.mem_of_mem_erase hp)

theorem Placed.swap {s t : Race} (h : Placed s) (hstep : s.step .swap = some t) : Placed t := by
  obtain ⟨e, hw, rfl⟩ := swap_eq hstep
  have hempty := h.initial (by rw [hw]; rfl)
  have hroute : ∀ x, s.cluster.lookup x = home 3 x := fun x => by
    rw [Cluster.lookup, hempty, route_of_notMem (AList.notMem_empty x)]
  refine ⟨fun i x hx => ?_, fun p hp => ?_, Bool.noConfusion⟩
  · have hi : home 3 x = (i : ℕ) := by
      rcases h.stored i x hx with hl | hl
      · exact (hroute x).symm.trans hl
      · exact hl.2
    by_cases hxe : x ∈ e
    · exact Or.inr ⟨hxe, hi⟩
    · exact Or.inl ((route_of_notMem hxe).trans hi)
  · refine Or.inr ⟨?_, rfl⟩
    rcases h.routed p hp with hl | hl
    · exact (hroute p.1).symm.trans hl
    · exact hl.1

theorem Placed.delete {s t : Race} (h : Placed s) (hstep : s.step .delete = some t) :
    Placed t := by
  obtain ⟨item, items, c, hd, hc, rfl⟩ := delete_eq hstep
  obtain ⟨he, hs⟩ := del_spec hc
  refine ⟨fun i x hx => ?_, fun p hp => ?_, Bool.noConfusion⟩
  · rw [lookup_of_exceptions he]
    obtain ⟨hx, hkeep⟩ := (hs i x).mp hx
    refine (h.stored i x hx).imp_right fun ⟨hp, hi⟩ => ⟨?_, hi⟩
    rw [hd, Handler.pending, List.keys_cons, List.mem_cons] at hp
    rcases hp with rfl | hp
    · exact absurd ⟨rfl, hi⟩ hkeep
    · exact hp
  · rw [lookup_of_exceptions he]
    refine (h.routed p hp).imp_right fun hl => ⟨hl.1, rfl⟩

theorem Placed.step {s t : Race} {a : Action} (h : Placed s) (hC : s.Timely a)
    (hstep : s.step a = some t) : Placed t := by
  cases a with
  | lookup key =>
      obtain rfl := lookup_eq hstep
      refine ⟨h.stored, fun p hp => ?_, h.initial⟩
      rcases List.mem_cons.mp hp with rfl | hp
      · exact Or.inl rfl
      · exact h.routed p hp
  | send key inst => exact h.send hC hstep
  | swap => exact h.swap hstep
  | delete => exact h.delete hstep
  | release =>
      obtain ⟨hd, rfl⟩ := release_eq hstep
      refine ⟨fun i x hx => ?_, fun p hp => ?_, Bool.noConfusion⟩
      · have := h.stored i x hx
        rwa [hd] at this
      · exact (h.routed p hp).imp_right fun hl => ⟨hl.1, rfl⟩

/-- A put that is not timely leaves a copy in the wrong place. -/
theorem Placed.late {s t : Race} {a : Action} (h : Placed s) (hC : ¬ s.Timely a)
    (hstep : s.step a = some t) : Misplaced t := by
  cases a with
  | send key inst =>
      obtain ⟨hmem, c, hc, rfl⟩ := send_eq hstep
      obtain ⟨⟨i, rfl⟩, he, hs⟩ := callPut_spec hc
      obtain ⟨hl, hp⟩ := not_or.mp hC
      refine ⟨((h.routed _ hmem).resolve_left hl).2, i, key, (hs i key).mpr (Or.inr ⟨rfl, rfl⟩), ?_,
        hp⟩
      rwa [lookup_of_exceptions he]
  | lookup key => exact absurd trivial hC
  | swap => exact absurd trivial hC
  | delete => exact absurd trivial hC
  | release => exact absurd trivial hC

theorem Misplaced.step {s t : Race} {a : Action} (h : Misplaced s) (hstep : s.step a = some t) :
    Misplaced t := by
  obtain ⟨hw, i, x, hx, hl, hp⟩ := h
  cases a with
  | lookup key =>
      obtain rfl := lookup_eq hstep
      exact ⟨hw, i, x, hx, hl, hp⟩
  | send key inst =>
      obtain ⟨-, c, hc, rfl⟩ := send_eq hstep
      obtain ⟨-, he, hs⟩ := callPut_spec hc
      refine ⟨hw, i, x, (hs i x).mpr (Or.inl hx), ?_, hp⟩
      rwa [lookup_of_exceptions he]
  | swap =>
      obtain ⟨e, hwait, -⟩ := swap_eq hstep
      rw [hwait] at hw
      exact Bool.noConfusion hw
  | delete =>
      obtain ⟨item, items, c, hd, hc, rfl⟩ := delete_eq hstep
      obtain ⟨he, hs⟩ := del_spec hc
      rw [hd, Handler.pending, List.keys_cons, List.mem_cons, not_or] at hp
      refine ⟨rfl, i, x, (hs i x).mpr ⟨hx, fun hd => hp.1 hd.1⟩, ?_, hp.2⟩
      rwa [lookup_of_exceptions he]
  | release =>
      obtain ⟨-, rfl⟩ := release_eq hstep
      exact ⟨rfl, i, x, hx, hl, List.not_mem_nil⟩

theorem placed_start {stores : Fin 3 → Finset Key} (e : ExceptionList)
    (h : Cluster.Owned ⟨∅, stores⟩) : Placed (Race.start stores e) :=
  ⟨fun i x hx => Or.inl (h i x hx), by simp [Race.start], fun _ => rfl⟩

/-- Once all requests are served, every copy is where puts go exactly when no put
was sent to a wrong instance behind the deletion of its key. -/
theorem owned_iff_timely {stores : Fin 3 → Finset Key} (e : ExceptionList)
    (h₀ : Cluster.Owned ⟨∅, stores⟩) {as : List Action} {s : Race}
    (h : Transitions.run Race.step (Race.start stores e) as = some s) (hend : s.Finished) :
    s.cluster.Owned ↔ Transitions.Along Race.step Race.Timely (Race.start stores e) as := by
  rcases Transitions.run_dichotomy (fun _ _ _ hs hC ht => Placed.step hs hC ht)
    (fun _ _ _ hs hC ht => Placed.late hs hC ht) (fun _ _ _ hs ht => Misplaced.step hs ht)
    (placed_start e h₀) h with ⟨hA, hI⟩ | ⟨hA, -, i, x, hx, hl, -⟩
  · refine iff_of_true (fun i x hx => ?_) hA
    refine (hI.stored i x hx).resolve_right fun hp => ?_
    rw [hend.1] at hp
    exact List.not_mem_nil hp.1
  · exact iff_of_false (fun hown => hl (hown i x hx)) hA

theorem owned_iff_timely_ahead :
    ∃ s, Transitions.run Race.step (Race.start (fun _ => ∅) (AList.singleton 0 1))
        [.lookup 0, .swap, .send 0 0, .delete, .release, .lookup 0, .send 0 1] = some s ∧
      s.cluster.Owned :=
  ⟨_, rfl, (owned_iff_timely (AList.singleton 0 1) (fun _ _ hx => absurd hx (by simp))
    (show Transitions.run Race.step (Race.start (fun _ => ∅) (AList.singleton 0 1))
      [.lookup 0, .swap, .send 0 0, .delete, .release, .lookup 0, .send 0 1] = some _ from rfl)
    ⟨rfl, rfl⟩).mpr (by decide)⟩

/-- A put that is routed before the map is replaced and sent after the deletion. -/
theorem owned_broken_by_late_put :
    ∃ s, Transitions.run Race.step (Race.start (fun _ => ∅) (AList.singleton 0 1))
        [.lookup 0, .swap, .delete, .release, .send 0 0] = some s ∧
      s.Finished ∧ ¬ s.cluster.Owned :=
  ⟨_, rfl, ⟨rfl, rfl⟩, fun h => absurd (h 0 0 (by decide)) (by decide)⟩

end PowerLawRocksdb.CoordinatorRace
