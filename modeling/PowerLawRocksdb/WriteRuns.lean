import PowerLawRocksdb.WriteStall

/-!
# Runs of the writer queue

All interleavings of any number of calls. Every step is defined as long as a write
stall takes out no writer that a link leads to, and the turns of the writers follow
the order in which they were linked: every writer has one turn, except for those that
a stall made fail.
-/
namespace PowerLawRocksdb.WriteThread
open LinkedHeap LazyQueue Transitions

variable {g : Shape} {s t : State} {a e l : ℕ} {f : Frame} {links : Memory Links} {q : List ℕ}

/-- The writers before a given one, from the oldest on, along the links. -/
def walk (links : Memory Links) : ℕ → Option ℕ → List ℕ
  | 0, _ => []
  | _ + 1, none => []
  | fuel + 1, some w => walk links fuel ((links w).bind LazyQueue.Links.older) ++ [w]

def State.queue (s : State) : List ℕ :=
  (walk s.links (s.bound + 2) s.newestWriter).filter fun a => decide (a ≠ dummy)

/-- The tickets of the writers that have been linked and have had no turn yet. -/
def State.pending (s : State) : List ℕ := pendingOf s.frames s.queue

/-- A call starts at an unused address, and a thread takes a step as long as its call has
not returned. -/
def Possible (s : State) : Action → Prop
  | .call a _ => a ≠ dummy ∧ s.frames a = none
  | .step a _ => (s.frames a).isSome = true

/-- A leader that waits takes out no writer that a link leads to. -/
def Harmless (s : State) : Action → Prop
  | .call _ _ => True
  | .step a choice => ∀ f ∈ s.frames a, f.pc = .leader → choice = true →
      f.request.noSlowdown = false → Unreached s.frames s.links s.queue

def Admissible (s : State) (action : Action) : Prop := Possible s action ∧ Harmless s action

instance (s : State) (action : Action) : Decidable (Possible s action) :=
  match action with
  | .call a _ => inferInstanceAs (Decidable (a ≠ dummy ∧ s.frames a = none))
  | .step a _ => inferInstanceAs (Decidable ((s.frames a).isSome = true))

instance (s : State) (action : Action) : Decidable (Harmless s action) :=
  match action with
  | .call _ _ => isTrue trivial
  | .step a choice => inferInstanceAs (Decidable (∀ f ∈ s.frames a, f.pc = .leader →
      choice = true → f.request.noSlowdown = false → Unreached s.frames s.links s.queue))

instance (s : State) (action : Action) : Decidable (Admissible s action) :=
  inferInstanceAs (Decidable (Possible s action ∧ Harmless s action))

theorem walk_eq {fuel : ℕ} (h : Linked (Older links) none q none) (hfuel : q.length < fuel) :
    walk links fuel q.getLast? = q := by
  obtain ⟨fuel, rfl⟩ : ∃ k, fuel = k + 1 := ⟨fuel - 1, by omega⟩
  induction q using List.reverseRecOn generalizing fuel with
  | nil => rfl
  | append_singleton q w ih =>
      obtain ⟨hq, ⟨n, hw⟩, -⟩ := linked_append.mp h
      rw [List.length_append, List.length_singleton] at hfuel
      obtain ⟨fuel, rfl⟩ : ∃ k, fuel = k + 1 := ⟨fuel - 1, by omega⟩
      have hrest := ih (linked_older_any hq) fuel (by omega)
      rw [lastOf_none] at hw
      rw [List.getLast?_concat, walk, hw, Option.bind_some, hrest]

theorem Inv.queue_eq (h : Inv g s) : s.queue = g.queue := by
  have holders := h.split ▸ h.queued.olders
  have hdummy : g.queue.filter (fun a => decide (a ≠ dummy)) = g.queue :=
    List.filter_eq_self.mpr fun a ha => decide_eq_true (ne_of_mem_of_not_mem ha h.dummy_notMem)
  have hbound := h.bound
  rw [State.queue, h.newest, State.bound]
  cases hs : g.stalled with
  | false =>
      rw [if_neg Bool.false_ne_true, walk_eq holders (by omega), hdummy]
  | true =>
      obtain ⟨n, hn⟩ := h.stall hs
      rw [if_pos rfl, walk, hn, Option.bind_some, walk_eq holders (by omega), List.filter_append,
        hdummy]
      simp

theorem next_resting (h : f.Resting) (choice : Bool) : s.next a f choice = some s := by
  rcases h with ⟨hpc, hstate⟩ | ⟨hpc, hstate⟩
  · simp [State.next, hpc, State.wake, hstate]
  · simp [State.next, hpc, State.wakeCompleted, hstate]

theorem Inv.keeps (h : Inv g s) : Keeps (some s) := ⟨s, g, rfl, h⟩

theorem Inv.next_of_resting (h : Inv g s) (hf : s.frames a = some f)
    (hresting : Holds s.frames a Frame.Resting) (choice : Bool) : Keeps (s.next a f choice) := by
  obtain ⟨f', hf', hresting⟩ := hresting
  obtain rfl : f = f' := Option.some.inj (hf.symm.trans hf')
  rw [next_resting hresting]
  exact h.keeps

theorem Frame.Waiting.resting (h : f.Waiting) : f.Resting := Or.inl ⟨h.1, h.2.1⟩

theorem Frame.Following.resting (h : f.Following l) : f.Resting := Or.inl ⟨h.1, h.2.1⟩

/-- A leader that has no group. -/
theorem Inv.next_alone (h : Inv g s) (hg : g.front = [l]) (hf : s.frames l = some f)
    (hgroup : f.writeGroup = none) (halone : f.Alone g.ys g.stalled) (choice : Bool)
    (hsafe : f.pc = .leader → choice = true → f.request.noSlowdown = false →
      Unreached s.frames s.links g.queue) : Keeps (s.next l f choice) := by
  generalize hs : g.stalled = stalled at halone
  cases halone with
  | elected hpc hstate =>
      rw [State.next, hpc]
      exact ⟨_, g, rfl, h.wake_elected hg hs hf hgroup hstate⟩
  | leading hpc hbatch =>
      rw [State.next, hpc]
      dsimp only
      split_ifs with hstall
      · rw [Bool.and_eq_true, Bool.not_eq_true'] at hstall
        exact h.beginWriteStall hg hs hf hgroup hbatch hstall.2 (hsafe hpc hstall.1 hstall.2)
      · exact h.enter hg hs hf hgroup hbatch
  | unbatched hpc hbatch =>
      rw [State.next, hpc]
      exact h.exitUnbatched hg hs hf hgroup hbatch
  | stalled hpc hbatch =>
      rw [State.next, hpc]
      exact h.endWriteStall hg hs hf hgroup hbatch
  | entering hpc hbatch hnewest =>
      rw [State.next, hpc]
      exact h.enterAsBatchGroupLeader hg hs hf hgroup hbatch hnewest

/-- A member of a group that inserts in parallel. -/
theorem Inv.next_parallel {fs done todo : List ℕ} {running : ℕ} {fl : Frame} (h : Inv g s)
    (hg : g.front = l :: fs) (hs : g.stalled = false)
    (hparallel : Parallel s.frames l fs done todo running fl) (ha : a ∈ l :: fs)
    (hf : s.frames a = some f) (choice : Bool) : Keeps (s.next a f choice) := by
  by_cases hal : a = l
  · subst hal
    obtain rfl : f = fl := Option.some.inj (hf.symm.trans hparallel.frame)
    rcases hparallel.launches.pc with hpc | ⟨rfl, hpc | hpc⟩
    · rw [State.next, hpc]
      cases todo with
      | nil => exact h.launchNext_none hg hs hparallel hpc
      | cons w todo => exact h.launchNext_some hg hs hparallel hpc
    · rw [State.next, hpc]
      exact h.completeParallelMemTableWriter hg hs hparallel hf (Or.inl rfl) hpc
    · refine h.next_of_resting hf ⟨f, hf, Or.inr ⟨hpc, hparallel.launches.state ?_⟩⟩ choice
      rintro rfl
      exact List.cons_ne_nil _ _ hparallel.split
  · rw [hparallel.split] at ha
    rcases List.mem_append.mp ha with ha | ha
    · obtain ⟨f', hf', hlaunched⟩ := hparallel.launched a ha hal
      obtain rfl : f = f' := Option.some.inj (hf.symm.trans hf')
      rcases hlaunched.1 with hpc | hpc | hpc
      · rw [State.next, hpc]
        exact ⟨_, g, rfl, h.wake_launched hg hs hparallel hf ha hal hpc hlaunched⟩
      · rw [State.next, hpc]
        exact h.completeParallelMemTableWriter hg hs hparallel hf (Or.inr ha) hpc
      · exact h.next_of_resting hf ⟨f, hf, Or.inr ⟨hpc, hlaunched.2.1⟩⟩ choice
    · obtain ⟨f', hf', hfollow⟩ := hparallel.follow a ha hal
      exact h.next_of_resting hf ⟨f', hf', hfollow.resting⟩ choice

theorem Inv.next_front (h : Inv g s) (ha : a ∈ g.front) (hf : s.frames a = some f) (choice : Bool)
    (hsafe : f.pc = .leader → choice = true → f.request.noSlowdown = false →
      Unreached s.frames s.links g.queue) : Keeps (s.next a f choice) := by
  have hfront := h.front
  generalize hg : g.front = front at ha hfront
  generalize hs : g.stalled = stalled at hfront
  cases hfront with
  | empty => cases ha
  | single hl hgroup halone =>
      obtain rfl := List.mem_singleton.mp ha
      obtain rfl := Option.some.inj (hf.symm.trans hl)
      exact h.next_alone hg hf hgroup (hs ▸ halone) choice hsafe
  | @writing l running fs fl hwriting =>
      by_cases hal : a = l
      · subst hal
        obtain rfl : f = fl := Option.some.inj (hf.symm.trans hwriting.frame)
        rw [State.next, hwriting.pc]
        dsimp only
        split_ifs
        · exact h.launch hg hs hwriting
        · exact h.exit hg hs hf hwriting.exits
      · obtain ⟨f', hf', hfollow⟩ := hwriting.follow a ((List.mem_cons.mp ha).resolve_left hal)
        exact h.next_of_resting hf ⟨f', hf', hfollow.resting⟩ choice
  | parallel hparallel => exact h.next_parallel hg hs hparallel ha hf choice
  | @last l e fs hexits =>
      by_cases hae : a = e
      · subst hae
        obtain ⟨f', hf', hpc⟩ := hexits.executor
        obtain rfl : f = f' := Option.some.inj (hf.symm.trans hf')
        rw [State.next, hpc]
        exact h.exit hg hs hf hexits
      · exact h.next_of_resting hf (hexits.others a ha hae) choice
  | @exiting l e head fs hexits hhead hplace =>
      by_cases hae : a = e
      · subst hae
        obtain ⟨f', hf', hpc⟩ := hexits.executor
        obtain rfl : f = f' := Option.some.inj (hf.symm.trans hf')
        rw [State.next, hpc]
        exact h.exitAsBatchGroupLeader hg hs hf hexits hhead hplace
      · exact h.next_of_resting hf (hexits.others a ha hae) choice

theorem Inv.next_outside (h : Inv g s) (hf : s.frames a = some f) (hqueue : a ∉ g.queue)
    (hbusy : ∀ e, ¬ g.Busy e a) (choice : Bool) : Keeps (s.next a f choice) := by
  rcases h.outside a f hf hqueue hbusy with (hpc | ⟨hpc | hpc, hstate⟩) | ⟨hunlinked, p, hlinks⟩
  · rw [State.next, hpc]
    exact ⟨_, g, rfl, h.ret hf hqueue hbusy⟩
  · rw [State.next, hpc, State.wake, hstate]
    exact ⟨_, g, rfl, h.setFrame_outside hf hqueue hbusy (Or.inl (Or.inl rfl))⟩
  · rw [State.next, hpc]
    dsimp only
    rw [State.wakeCompleted, if_pos hstate]
    exact ⟨_, g, rfl, h.setFrame_outside hf hqueue hbusy (Or.inl (Or.inl rfl))⟩
  · rcases hunlinked.1 with hpc | ⟨writers, hpc⟩
    · rw [State.next, hpc]
      refine ⟨_, g, rfl, h.setFrame_outside hf hqueue hbusy (Or.inr ⟨?_, p, hlinks⟩)⟩
      exact ⟨Or.inr ⟨_, rfl⟩, hunlinked.2⟩
    · rw [State.next, hpc]
      exact h.linkOne hf hqueue hbusy hunlinked hlinks choice

/-- The step of every thread is defined, and keeps the invariant. -/
theorem Inv.next (h : Inv g s) (hf : s.frames a = some f) (choice : Bool)
    (hsafe : f.pc = .leader → choice = true → f.request.noSlowdown = false →
      Unreached s.frames s.links g.queue) : Keeps (s.next a f choice) := by
  by_cases hqueue : a ∈ g.queue
  · rcases List.mem_append.mp hqueue with ha | ha
    · exact h.next_front ha hf choice hsafe
    · obtain ⟨f', hf', hwaiting⟩ := h.rest a ha
      exact h.next_of_resting hf ⟨f', hf', hwaiting.resting⟩ choice
  · by_cases hbusy : ∃ e, g.Busy e a
    · obtain ⟨e, hbusy, ha⟩ := hbusy
      by_cases hae : a = e
      · subst hae
        obtain ⟨f', leader, last, hf', -, -, hpc, -⟩ := (h.leaving a hbusy).executor
        obtain rfl : f = f' := Option.some.inj (hf.symm.trans hf')
        rw [State.next, hpc]
        exact h.complete hbusy hf hpc
      · exact h.next_of_resting hf ((h.leaving e hbusy).members a (ha.resolve_left hae) hae) choice
    · exact h.next_outside hf hqueue (not_exists.mp hbusy) choice

theorem inv_init : Inv ⟨[], [], [], [], false, fun _ => []⟩ State.init where
  queued := queued_nil
  split := rfl
  front := .empty
  filled := Nat.zero_le _
  empty _ := rfl
  rest a ha := by cases ha
  leaving e he := absurd rfl he
  apart e a ha := absurd rfl ha.1
  alone e e' a ha := absurd rfl ha.1
  outside a f hf := by cases hf
  newest := rfl
  stall hs := by cases hs
  allocated a ha _ := by
    simp [State.init, ha]
  reserved := ⟨rfl, by simp [State.init]⟩
  bound := Nat.le_refl _
  failed t ht := by cases ht
  history := rfl
  requests a ha := by cases ha
  fits turn hturn := by cases hturn

theorem Inv.step (h : Inv g s) {action : Action} (hadmissible : Admissible s action) :
    Keeps (s.step action) := by
  obtain ⟨hpossible, hharmless⟩ := hadmissible
  cases action with
  | call a request =>
      obtain ⟨hdummy, hfree⟩ := hpossible
      rw [State.step, if_neg (by simp [hdummy, hfree])]
      exact ⟨_, g, rfl, h.call hdummy hfree request⟩
  | step a choice =>
      obtain ⟨f, hf⟩ := Option.isSome_iff_exists.mp hpossible
      rw [State.step, hf, Option.bind_some]
      exact h.next hf choice (h.queue_eq ▸ hharmless f hf)

/-- Writers that let themselves be delayed are never taken out. -/
theorem Inv.harmless (h : Inv g s) (hpatient : ∀ r ∈ s.joined, r.noSlowdown = false)
    (action : Action) : Harmless s action := by
  cases action with
  | call a request => trivial
  | step a choice =>
      intro f _ _ _ _ p hp w hw
      rw [h.queue_eq, ← h.split] at hp
      rw [Option.mem_def, Option.bind_eq_some_iff] at hw
      obtain ⟨links, hlinks, hnewer⟩ := hw
      have hmem := h.queued.mem_of_newer hp ⟨links.older, by rw [hlinks, ← hnewer]⟩
      obtain ⟨f, hf, hrequest⟩ := h.requests w (h.split ▸ hmem)
      simp [waitsOut, hf, hpatient f.request (List.mem_of_getElem? hrequest)]

theorem exists_inv {actions : List Action} (h : Along State.step Admissible State.init actions) :
    ∃ s, run State.step State.init actions = some s ∧ ∃ g, Inv g s := by
  have hstep : ∀ s action, (∃ g, Inv g s) → Admissible s action →
      ∃ t, s.step action = some t ∧ ∃ g, Inv g t := by
    rintro s action ⟨g, hg⟩ hadmissible
    obtain ⟨t, g', ht, hg'⟩ := hg.step hadmissible
    exact ⟨t, ht, g', hg'⟩
  obtain ⟨⟨s, hs⟩, hthroughout⟩ := run_defined hstep (fun _ hi => hi) ⟨_, inv_init⟩ h
  exact ⟨s, hs, hthroughout.last hs⟩

theorem inv_of_run {actions : List Action} (h : Along State.step Admissible State.init actions)
    (hrun : run State.step State.init actions = some s) : ∃ g, Inv g s := by
  obtain ⟨t, ht, hinv⟩ := exists_inv h
  obtain rfl : s = t := Option.some.inj (hrun.symm.trans ht)
  exact hinv

/-- No step of a run reaches into a frame that is gone, follows a null link or fails an
assertion. The writers have their turns in the order in which they were linked, each of
them once; only a writer that must not be delayed can fail instead. -/
theorem turns_in_link_order {actions : List Action}
    (h : Along State.step Admissible State.init actions) :
    ∃ s, run State.step State.init actions = some s ∧
      s.turns.flatten ++ s.pending =
        (List.range s.joined.length).filter (fun ticket => decide (ticket ∉ s.failed)) ∧
      ∀ ticket ∈ s.failed, ∃ r, s.joined[ticket]? = some r ∧ r.noSlowdown = true := by
  obtain ⟨s, hs, g, hg⟩ := exists_inv h
  refine ⟨s, hs, ?_, hg.failed⟩
  rw [State.pending, hg.queue_eq]
  exact hg.history

/-- Three writers with a batch and one without. The leader waits first, and the second
writer fails; the third one inserts its batch in parallel with the leader. -/
def parallelRun : List Action :=
  [.call 1 ⟨some [7, 7], false, false, false, none⟩, .step 1 false, .step 1 false,
    .call 2 ⟨some [7], false, true, false, none⟩, .step 2 false, .step 2 false,
    .call 3 ⟨some [7], false, false, false, none⟩, .step 3 false, .step 3 false,
    .step 1 true, .step 1 false, .step 1 false, .call 4 unbatchedRequest, .step 4 false,
    .step 4 true, .step 4 false, .step 1 false, .step 1 true, .step 1 false, .step 1 false,
    .step 3 false]

theorem turns_in_link_order_parallelRun :
    ∃ s, run State.step State.init parallelRun = some s ∧
      s.turns.flatten ++ s.pending =
        (List.range s.joined.length).filter (fun ticket => decide (ticket ∉ s.failed)) ∧
      ∀ ticket ∈ s.failed, ∃ r, s.joined[ticket]? = some r ∧ r.noSlowdown = true :=
  turns_in_link_order (by decide)

/-- The condition on write stalls is needed. Here the third writer is taken out although
the link of the second one leads to it, and the assertion about that link fails. -/
example : ∃ actions, Along State.step Possible State.init actions ∧
    (run State.step State.init actions).isNone = true :=
  ⟨[.call 1 ⟨some [7, 7], false, false, false, none⟩, .step 1 false, .step 1 false,
    .call 2 ⟨some [7], true, false, false, none⟩, .step 2 false, .step 2 false,
    .call 3 ⟨some [7], false, true, false, none⟩, .step 3 false, .step 3 false,
    .step 1 false, .step 1 false, .step 1 false, .step 1 false, .step 2 false, .step 2 true,
    .step 2 false, .call 4 ⟨some [7], false, false, false, none⟩, .step 4 false,
    .step 4 false, .step 2 false, .step 2 false], by decide⟩

/-- As long as all writers let themselves be delayed, write stalls do no harm either, and
no writer is left out. -/
theorem turns_of_patient_writers {actions : List Action}
    (hpossible : Along State.step Possible State.init actions)
    (hpatient : Throughout State.step (fun s => ∀ r ∈ s.joined, r.noSlowdown = false) State.init
      actions) :
    ∃ s, run State.step State.init actions = some s ∧
      s.turns.flatten ++ s.pending = List.range s.joined.length := by
  have hadmissible : Along State.step Admissible State.init actions := by
    refine Along.imp (I := fun s => ∃ g, Inv g s) ?_ ?_ ⟨_, inv_init⟩
      (hpossible.and hpatient.along)
    · rintro s action t ⟨g, hg⟩ ⟨hpossible, hpatient⟩ ht
      obtain ⟨u, g', hu, hg'⟩ := hg.step ⟨hpossible, hg.harmless hpatient action⟩
      obtain rfl : t = u := Option.some.inj (ht.symm.trans hu)
      exact ⟨g', hg'⟩
    · rintro s action ⟨g, hg⟩ ⟨hpossible, hpatient⟩
      exact ⟨hpossible, hg.harmless hpatient action⟩
  obtain ⟨s, hs, g, hg⟩ := exists_inv hadmissible
  have hfailed : s.failed = [] := by
    refine List.eq_nil_iff_forall_not_mem.mpr fun ticket hticket => ?_
    obtain ⟨r, hr, hslow⟩ := hg.failed ticket hticket
    rw [hpatient.last hs r (List.mem_of_getElem? hr)] at hslow
    cases hslow
  refine ⟨s, hs, ?_⟩
  rw [State.pending, hg.queue_eq, hg.history, hfailed]
  simp

theorem turns_of_patient_writers_two :
    ∃ s, run State.step State.init
        [.call 1 ⟨some [7], false, false, false, none⟩,
          .call 2 ⟨some [7], true, false, false, none⟩, .step 1 false, .step 2 false,
          .step 2 false, .step 1 false, .step 1 false, .step 2 true,
          .step 2 false, .step 2 false, .step 2 false, .step 2 false] = some s ∧
      s.turns.flatten ++ s.pending = List.range s.joined.length :=
  turns_of_patient_writers (by decide) (by decide)

/-- Only one thread at a time may be at these places. -/
def Pc.exclusive : Pc → Bool
  | .leader | .writeStall | .enterAsBatchGroupLeader _ | .write | .launch _ | .lastWorker _
  | .exitAsBatchGroupLeader _ _ | .unbatched => true
  | _ => false

theorem Frame.Resting.not_exclusive (h : f.Resting) : f.pc.exclusive = false := by
  rcases h with ⟨hpc, -⟩ | ⟨hpc, -⟩
  · rw [hpc]
    rfl
  · rw [hpc]
    rfl

/-- A thread at such a place is at the front. -/
theorem Inv.mem_front (h : Inv g s) (hf : s.frames a = some f)
    (hpc : f.pc.exclusive = true ∨ f.pc = .insertInto) : a ∈ g.front := by
  have hresting : ∀ {f'}, s.frames a = some f' → ¬ f'.Resting := by
    intro f' hf' hresting
    obtain rfl : f = f' := Option.some.inj (hf.symm.trans hf')
    rcases hpc with hpc | hpc
    · rw [hresting.not_exclusive] at hpc
      cases hpc
    · rcases hresting with ⟨hpc', -⟩ | ⟨hpc', -⟩ <;> simp [hpc] at hpc'
  by_contra hfront
  by_cases hrest : a ∈ g.rest
  · obtain ⟨f', hf', hwaiting⟩ := h.rest a hrest
    exact hresting hf' hwaiting.resting
  · have hqueue : a ∉ g.queue := by simp [Shape.queue, hfront, hrest]
    by_cases hbusy : ∃ e, g.Busy e a
    · obtain ⟨e, hbusy, ha⟩ := hbusy
      by_cases hae : a = e
      · subst hae
        obtain ⟨f', leader, last, hf', -, -, hpc', -⟩ := (h.leaving a hbusy).executor
        obtain rfl : f = f' := Option.some.inj (hf.symm.trans hf')
        simp [hpc', Pc.exclusive] at hpc
      · obtain ⟨f', hf', hmember⟩ := (h.leaving e hbusy).members a (ha.resolve_left hae) hae
        exact hresting hf' hmember
    · rcases h.outside a f hf hqueue (not_exists.mp hbusy) with
        (hpc' | ⟨hpc' | hpc', -⟩) | ⟨⟨hpc' | ⟨w, hpc'⟩, -⟩, -⟩ <;>
        simp [hpc', Pc.exclusive] at hpc

variable {frames : Memory Frame} {ys rest front : List ℕ} {stalled : Bool} {b : ℕ} {f' : Frame}

theorem Exits.eq_executor {fs : List ℕ} {P : Frame → Prop} (h : Exits frames l fs e P)
    (ha : a ∈ l :: fs) (hf : frames a = some f) (hresting : ¬ f.Resting) : a = e := by
  by_contra hne
  obtain ⟨f', hf', hresting'⟩ := h.others a ha hne
  obtain rfl : f = f' := Option.some.inj (hf.symm.trans hf')
  exact hresting hresting'

theorem Parallel.eq_leader {fs done todo : List ℕ} {running : ℕ} {fl : Frame}
    (h : Parallel frames l fs done todo running fl) (ha : a ∈ l :: fs) (hf : frames a = some f)
    (hpc : f.pc.exclusive = true) : a = l := by
  by_contra hne
  rw [h.split] at ha
  rcases List.mem_append.mp ha with ha | ha
  · obtain ⟨f', hf', hlaunched⟩ := h.launched a ha hne
    obtain rfl : f = f' := Option.some.inj (hf.symm.trans hf')
    rcases hlaunched.1 with hpc' | hpc' | hpc' <;> simp [hpc', Pc.exclusive] at hpc
  · obtain ⟨f', hf', hfollow⟩ := h.follow a ha hne
    obtain rfl : f = f' := Option.some.inj (hf.symm.trans hf')
    rw [hfollow.resting.not_exclusive] at hpc
    cases hpc

theorem Front.exclusive_unique (h : Front frames ys rest stalled front) (ha : a ∈ front)
    (hb : b ∈ front) (hf : frames a = some f) (hf' : frames b = some f')
    (hpc : f.pc.exclusive = true) (hpc' : f'.pc.exclusive = true) : a = b := by
  have hresting : ∀ {f : Frame}, f.pc.exclusive = true → ¬ f.Resting := fun hpc hresting => by
    rw [hresting.not_exclusive] at hpc
    cases hpc
  cases h with
  | empty => cases ha
  | single _ _ _ => rw [List.mem_singleton.mp ha, List.mem_singleton.mp hb]
  | writing h =>
      rw [h.exits.eq_executor ha hf (hresting hpc), h.exits.eq_executor hb hf' (hresting hpc')]
  | parallel h => rw [h.eq_leader ha hf hpc, h.eq_leader hb hf' hpc']
  | last h => rw [h.eq_executor ha hf (hresting hpc), h.eq_executor hb hf' (hresting hpc')]
  | exiting h hhead hplace =>
      rw [h.eq_executor ha hf (hresting hpc), h.eq_executor hb hf' (hresting hpc')]

/-- Members insert their batches only in a parallel group, whose leader may still be
launching others. -/
theorem Front.inserting (h : Front frames ys rest stalled front) (ha : a ∈ front)
    (hb : b ∈ front) (hf : frames a = some f) (hf' : frames b = some f')
    (hpc : f.pc = .insertInto) (hpc' : f'.pc.exclusive = true) :
    (∃ w, f'.pc = .launch w) ∧ f.writeGroup = some b := by
  have hresting : ¬ f.Resting := by
    rintro (⟨hpc', -⟩ | ⟨hpc', -⟩) <;> simp [hpc] at hpc'
  have hexits : ∀ {l fs e pc}, Exits frames l fs e (fun f => f.pc = pc) → a ∈ l :: fs →
      pc = .insertInto := by
    intro l fs e pc h ha
    obtain ⟨f₀, hf₀, hpc₀⟩ := h.executor
    obtain rfl := h.eq_executor ha hf hresting
    obtain rfl : f = f₀ := Option.some.inj (hf.symm.trans hf₀)
    rw [← hpc₀, hpc]
  cases h with
  | empty => cases ha
  | single hl hgroup halone =>
      obtain rfl := List.mem_singleton.mp ha
      obtain rfl := Option.some.inj (hf.symm.trans hl)
      cases halone <;> simp_all
  | writing h => cases hexits h.exits ha
  | @parallel l _ _ _ _ fl h =>
      obtain rfl := h.eq_leader hb hf' hpc'
      obtain rfl : f' = fl := Option.some.inj (hf'.symm.trans h.frame)
      obtain ⟨f₀, hf₀, hgroup⟩ := h.grouped ha
      obtain rfl : f = f₀ := Option.some.inj (hf.symm.trans hf₀)
      rcases h.launches.pc with hlaunch | ⟨-, hlaunch | hlaunch⟩
      · exact ⟨⟨_, hlaunch⟩, hgroup⟩
      · simp [hlaunch, Pc.exclusive] at hpc'
      · simp [hlaunch, Pc.exclusive] at hpc'
  | last h => cases hexits h ha
  | exiting h hhead hplace => cases hexits h ha

/-- There is never more than one leader, from its election until it hands over. While a
batch is inserted in parallel, the only one is the leader of that group. -/
theorem leaders_exclude_each_other {actions : List Action}
    (h : Along State.step Admissible State.init actions)
    (hrun : run State.step State.init actions = some s) (hf : s.frames a = some f)
    (hf' : s.frames b = some f') (hpc' : f'.pc.exclusive = true) :
    (f.pc.exclusive = true → a = b) ∧
      (f.pc = .insertInto → (∃ w, f'.pc = .launch w) ∧ f.writeGroup = some b) := by
  obtain ⟨g, hg⟩ := inv_of_run h hrun
  have hb := hg.mem_front hf' (Or.inl hpc')
  constructor
  · intro hpc
    exact hg.front.exclusive_unique (hg.mem_front hf (Or.inl hpc)) hb hf hf' hpc hpc'
  · intro hpc
    exact hg.front.inserting (hg.mem_front hf (Or.inr hpc)) hb hf hf' hpc hpc'

theorem leaders_exclude_each_other_parallelRun :
    ∃ s f f', run State.step State.init parallelRun = some s ∧ s.frames 3 = some f ∧
      s.frames 1 = some f' ∧ f'.pc.exclusive = true ∧ (f.pc.exclusive = true → 3 = 1) ∧
      (f.pc = .insertInto → (∃ w, f'.pc = .launch w) ∧ f.writeGroup = some 1) := by
  have hrun : (run State.step State.init parallelRun).isSome = true := by decide
  refine ⟨(run State.step State.init parallelRun).get hrun, _, _, (Option.some_get hrun).symm, rfl,
    rfl, rfl, ?_⟩
  exact leaders_exclude_each_other (by decide) (Option.some_get hrun).symm rfl rfl rfl

/-- The thread can only go on after another one has taken a step. -/
def State.Waits (s : State) (f : Frame) : Prop :=
  f.pc = .awaitState ∧ f.state = .init ∨ f.pc = .awaitCompleted ∧ f.state ≠ .completed ∨
    (∃ writers, f.pc = .linkOne writers) ∧ s.newestWriter = some dummy

theorem not_waits_of_exclusive (hpc : f.pc.exclusive = true) : ¬ s.Waits f := by
  rintro (⟨hpc', -⟩ | ⟨hpc', -⟩ | ⟨⟨writers, hpc'⟩, -⟩) <;> simp [hpc', Pc.exclusive] at hpc

/-- At the front, there is always somebody who can go on. -/
theorem Front.exists_active (h : Front s.frames ys rest stalled front) (hne : front ≠ []) :
    ∃ b f, s.frames b = some f ∧ ¬ s.Waits f := by
  cases h with
  | empty => exact absurd rfl hne
  | @single l f _ hf hgroup halone =>
      refine ⟨l, f, hf, ?_⟩
      cases halone with
      | elected hpc hstate => simp [State.Waits, hpc, hstate]
      | leading hpc _ => exact not_waits_of_exclusive (by rw [hpc]; rfl)
      | unbatched hpc _ => exact not_waits_of_exclusive (by rw [hpc]; rfl)
      | stalled hpc _ => exact not_waits_of_exclusive (by rw [hpc]; rfl)
      | entering hpc _ _ => exact not_waits_of_exclusive (by rw [hpc]; rfl)
  | @writing l _ _ f h => exact ⟨l, f, h.frame, not_waits_of_exclusive (by rw [h.pc]; rfl)⟩
  | @parallel l running fs done todo fl h =>
      rcases h.launches.pc with hpc | ⟨rfl, hpc | hpc⟩
      · exact ⟨l, fl, h.frame, not_waits_of_exclusive (by rw [hpc]; rfl)⟩
      · exact ⟨l, fl, h.frame, by simp [State.Waits, hpc]⟩
      · -- the leader has finished, but somebody has not
        have hpos : 0 < (l :: fs).countP (unfinished s.frames) := h.count ▸ h.pos
        obtain ⟨b, hb, hunfinished⟩ := List.countP_pos_iff.mp hpos
        have hbl : b ≠ l := by
          rintro rfl
          simp [unfinished, h.frame, hpc] at hunfinished
        rw [h.split, List.append_nil] at hb
        obtain ⟨f, hf, hlaunched⟩ := h.launched b hb hbl
        refine ⟨b, f, hf, ?_⟩
        rcases hlaunched.1 with hpc | hpc | hpc
        · simp [State.Waits, hpc, hlaunched.2.1]
        · simp [State.Waits, hpc]
        · simp [unfinished, hf, hpc] at hunfinished
  | last h =>
      obtain ⟨f, hf, hpc⟩ := h.executor
      exact ⟨_, f, hf, not_waits_of_exclusive (by rw [hpc]; rfl)⟩
  | exiting h hhead hplace =>
      obtain ⟨f, hf, hpc⟩ := h.executor
      exact ⟨_, f, hf, not_waits_of_exclusive (by rw [hpc]; rfl)⟩

/-- As long as a call has not returned, some thread waits for nobody. -/
theorem no_deadlock {actions : List Action}
    (h : Along State.step Admissible State.init actions)
    (hrun : run State.step State.init actions = some s) (hf : s.frames a = some f) :
    ∃ b f', s.frames b = some f' ∧ ¬ s.Waits f' := by
  obtain ⟨g, hg⟩ := inv_of_run h hrun
  by_cases hfront : g.front = []
  · -- the queue is empty, so that everybody else is on its way in or out
    have hempty : g.queue = [] := by rw [Shape.queue, hfront, hg.empty hfront]; rfl
    have hnewest : s.newestWriter ≠ some dummy := by
      have hstalled : g.stalled = false := by
        have hnil := hg.front
        rw [hfront] at hnil
        generalize g.stalled = stalled at hnil ⊢
        cases hnil
        rfl
      rw [hg.newest, hstalled, hempty]
      simp
    have hqueue : a ∉ g.queue := hempty ▸ List.not_mem_nil
    by_cases hbusy : ∃ e, g.Busy e a
    · obtain ⟨e, hbusy, -⟩ := hbusy
      obtain ⟨f', leader, last, hf', -, -, hpc, -⟩ := (hg.leaving e hbusy).executor
      exact ⟨e, f', hf', by simp [State.Waits, hpc]⟩
    · refine ⟨a, f, hf, ?_⟩
      rcases hg.outside a f hf hqueue (not_exists.mp hbusy) with
        (hpc | ⟨hpc | hpc, hstate⟩) | ⟨⟨hpc | ⟨w, hpc⟩, -⟩, -⟩
      · simp [State.Waits, hpc]
      · simp [State.Waits, hpc, hstate]
      · simp [State.Waits, hpc, hstate]
      · simp [State.Waits, hpc]
      · simp [State.Waits, hpc, hnewest]
  · exact hg.front.exists_active hfront

theorem no_deadlock_parallelRun :
    ∃ s f, run State.step State.init parallelRun = some s ∧ s.frames 4 = some f ∧
      ∃ b f', s.frames b = some f' ∧ ¬ s.Waits f' := by
  have hrun : (run State.step State.init parallelRun).isSome = true := by decide
  refine ⟨(run State.step State.init parallelRun).get hrun, _, (Option.some_get hrun).symm, rfl, ?_⟩
  exact no_deadlock (by decide) (Option.some_get hrun).symm (a := 4) rfl

/-- The writers that have a turn together: one without a batch alone, or a leader and
followers that its options allow and whose batches fit behind its own. -/
theorem turns_fit {actions : List Action} (h : Along State.step Admissible State.init actions)
    (hrun : run State.step State.init actions = some s) :
    ∀ turn ∈ s.turns, Turn s.joined turn := by
  obtain ⟨g, hg⟩ := inv_of_run h hrun
  exact hg.fits

theorem turns_fit_parallelRun :
    ∃ s, run State.step State.init parallelRun = some s ∧ ∀ turn ∈ s.turns, Turn s.joined turn := by
  have hrun : (run State.step State.init parallelRun).isSome = true := by decide
  exact ⟨_, (Option.some_get hrun).symm, turns_fit (by decide) (Option.some_get hrun).symm⟩

end PowerLawRocksdb.WriteThread
