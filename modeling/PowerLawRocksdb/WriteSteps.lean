import PowerLawRocksdb.WriteTurns

/-!
# The steps of the writers

Every step of every thread is defined in a state with the invariant, and keeps it.
The cases are where the thread is: outside of the queue, waiting in it, at its front,
or completing a group.
-/
namespace PowerLawRocksdb.WriteThread
open LinkedHeap LazyQueue

variable {g : Shape} {s t : State} {a l e : ℕ} {f : Frame} {fs : List ℕ}

/-- The newest writer is one of those without a link behind them. -/
theorem Inv.newest_mem (h : Inv g s) (hstalled : g.stalled = false) (hne : g.front ≠ []) :
    ∃ n, s.newestWriter = some n ∧ n ∈ g.ys ∧ g.queue.getLast? = some n := by
  have hys : g.ys ≠ [] := by
    intro hnil
    have hxs := h.queued.newest hnil
    have hsplit := h.split
    rw [hxs, hnil] at hsplit
    exact hne (List.append_eq_nil_iff.mp hsplit.symm).1
  have hlast : g.queue.getLast? = some (g.ys.getLast hys) := by
    rw [← h.split, List.getLast?_append_of_ne_nil _ hys, List.getLast?_eq_some_getLast hys]
  refine ⟨g.ys.getLast hys, ?_, List.getLast_mem hys, hlast⟩
  rw [h.newest, hstalled, hlast]
  rfl

theorem Inv.wake_elected (h : Inv g s) (hg : g.front = [l]) (hs : g.stalled = false)
    (hf : s.frames l = some f) (hgroup : f.writeGroup = none) (hstate : f.state = .groupLeader) :
    Inv g (s.wake l f) := by
  rw [State.wake, hstate]
  refine h.setFrame_front hf (hg ▸ List.mem_cons_self) rfl ?_
  rw [hg, hs]
  refine .single (Function.update_self ..) hgroup ?_
  split_ifs with hbatch
  · exact .leading rfl hbatch
  · exact .unbatched rfl (Option.not_isSome_iff_eq_none.mp hbatch)

theorem Inv.enter (h : Inv g s) (hg : g.front = [l]) (hs : g.stalled = false)
    (hf : s.frames l = some f) (hgroup : f.writeGroup = none)
    (hbatch : f.request.batch.isSome = true) : Keeps (s.enter l f) := by
  obtain ⟨n, hn, hmem, -⟩ := h.newest_mem hs (by rw [hg]; exact List.cons_ne_nil l [])
  refine ⟨_, g, by rw [State.enter, hn, Option.map_some], ?_⟩
  refine h.setFrame_front hf (hg ▸ List.mem_cons_self) rfl ?_
  rw [hg, hs]
  exact .single (Function.update_self ..) hgroup (.entering rfl hbatch hmem)

theorem Inv.endWriteStall (h : Inv g s) (hg : g.front = [l]) (hs : g.stalled = true)
    (hf : s.frames l = some f) (hgroup : f.writeGroup = none)
    (hbatch : f.request.batch.isSome = true) : Keeps (s.endWriteStall l f) := by
  have hnewest := h.newest
  rw [hs, if_pos rfl] at hnewest
  obtain ⟨n, hn⟩ := h.stall hs
  have hl : l ∈ g.queue := List.mem_append_left _ (hg ▸ List.mem_cons_self)
  have hrest : ∀ b ∈ g.rest, b ≠ l := by
    have hnodup := h.queued.nodup
    rw [h.split, Shape.queue, List.nodup_append, hg] at hnodup
    exact fun b hb hbl => hnodup.2.2 l List.mem_cons_self b hb hbl.symm
  refine ⟨_, { g with stalled := false }, by
    rw [State.endWriteStall, if_neg (not_not.mpr hnewest), hn, Option.map_some], ?_⟩
  refine h.within rfl rfl h.queued h.split ?_ h.filled h.empty ?_ ?_ (fun _ _ => rfl) rfl
    (fun hfalse => absurd hfalse Bool.false_ne_true) rfl rfl ?_ ?_ h.fits
  · dsimp only
    rw [hg]
    exact .single (Function.update_self ..) hgroup (.leading rfl hbatch)
  · exact fun b hb => (h.rest b hb).congr (Function.update_of_ne (hrest b hb) ..)
  · exact fun b hb => Function.update_of_ne (ne_of_mem_of_not_mem hl hb).symm ..
  · exact congrArg _ (pendingOf_congr_turn fun b _ => turn_update { f with pc := .leader } hf rfl b)
  · exact fun b hb => (h.requests b hb).congr_turn (turn_update { f with pc := .leader } hf rfl b)

theorem enterAsBatchGroupLeader_eq {newest : ℕ} {n : Option ℕ} {batch : Numerals.Bytes}
    {links : Memory Links} {frames : Memory Frame} {group : WriteGroup} {f' : Frame}
    {tickets : List ℕ} (hown : s.links a = some ⟨none, n⟩) (hbatch : f.request.batch = some batch)
    (hlinks : createMissingNewerLinks (s.bound + 1) s.links newest = some links)
    (hextend : extendGroup links f.request newest (maxGroupSize batch.length) (s.bound + 1)
      (Function.update s.frames a (some { f with writeGroup := some a })) ⟨a, a, 1, 0⟩
      batch.length = some (frames, group)) (hf' : frames a = some f')
    (htickets : groupTickets frames links group.lastWriter (s.bound + 1) a = some tickets) :
    s.enterAsBatchGroupLeader a f newest = some { s with
      frames := Function.update frames a (some { f' with group := some group, pc := .write })
      links := links
      turns := s.turns ++ [tickets] } := by
  simp [State.enterAsBatchGroupLeader, hown, hbatch, hlinks, hextend, hf', htickets]

theorem pendingOf_ungrouped {frames : Memory Frame} {q : List ℕ}
    (h : ∀ b ∈ q, Holds frames b fun f => f.writeGroup = none) :
    pendingOf frames q = ticketsOf frames q := by
  rw [pendingOf, List.filter_eq_self.mpr]
  intro b hb
  obtain ⟨f, hf, hgroup⟩ := h b hb
  simp [ungrouped, hf, hgroup]

theorem pendingOf_grouped {frames : Memory Frame} {q : List ℕ}
    (h : ∀ b ∈ q, Holds frames b fun f => f.writeGroup = some l) : pendingOf frames q = [] := by
  rw [pendingOf, List.filter_eq_nil_iff.mpr]
  · rfl
  · intro b hb
    obtain ⟨f, hf, hgroup⟩ := h b hb
    simp [ungrouped, hf, hgroup]

/-- The frames after the leader has formed a group with the writers of a list. -/
def formed (frames : Memory Frame) (l : ℕ) (f : Frame) (ms : List ℕ) (last : ℕ) : Memory Frame :=
  Function.update (joinGroup frames l ms) l (some { f with
    writeGroup := some l
    group := some ⟨l, last, ms.length + 1, 0⟩
    pc := .write })

theorem formed_ticketed {frames : Memory Frame} {joined : List Request} {ms : List ℕ} {last b : ℕ}
    (hf : frames l = some f) (h : Holds frames b (Frame.Ticketed joined)) :
    Holds (formed frames l f ms last) b (Frame.Ticketed joined) := by
  obtain ⟨f₀, hf₀, hrequest⟩ := h
  rcases eq_or_ne b l with rfl | hne
  · obtain rfl : f = f₀ := Option.some.inj (hf.symm.trans hf₀)
    exact ⟨_, Function.update_self .., hrequest⟩
  · unfold Holds
    rw [formed, Function.update_of_ne hne, joinGroup, hf₀]
    split_ifs
    · exact ⟨_, rfl, hrequest⟩
    · exact ⟨_, rfl, hrequest⟩

theorem map_ticketsOf {frames : Memory Frame} {joined : List Request} {q : List ℕ}
    (h : ∀ b ∈ q, Holds frames b (Frame.Ticketed joined)) :
    (ticketsOf frames q).map (fun ticket => joined[ticket]?) = (requestsOf frames q).map some := by
  induction q with
  | nil => rfl
  | cons b q ih =>
      obtain ⟨f, hf, hrequest⟩ := h b List.mem_cons_self
      have hrest := ih fun c hc => h c (List.mem_cons_of_mem b hc)
      rw [ticketsOf, requestsOf] at hrest ⊢
      rw [List.filterMap_cons, List.filterMap_cons, hf, Option.map_some, Option.map_some,
        List.map_cons, List.map_cons, hrest]
      exact congrArg (· :: _) hrequest

theorem joinGroup_update {frames : Memory Frame} {ms : List ℕ} (hl : l ∉ ms) (f : Frame) :
    joinGroup (Function.update frames l (some f)) l ms =
      Function.update (joinGroup frames l ms) l (some f) := by
  funext b
  unfold joinGroup
  rcases eq_or_ne b l with rfl | hne
  · rw [if_neg hl, Function.update_self, Function.update_self]
  · simp [hne]

/-- What `EnterAsBatchGroupLeader` does in a queue of the right form. -/
theorem Inv.enterAsBatchGroupLeader_eq {newest : ℕ} (h : Inv g s) (hg : g.front = [l])
    (hf : s.frames l = some f) (hbatch : f.request.batch.isSome = true) (hnewest : newest ∈ g.ys) :
    ∃ ys₁ ys₂ links ms rest last batch, g.ys = ys₁ ++ newest :: ys₂ ∧
      Queued links (g.xs ++ ys₁) (newest :: ys₂) ∧ (∀ b, b ∉ ys₁ → links b = s.links b) ∧
      g.rest = ms ++ rest ∧ (l :: ms).getLast? = some last ∧
      (l :: ms).length ≤ (g.xs ++ ys₁).length + 1 ∧ f.request.batch = some batch ∧
      Fits f.request (maxGroupSize batch.length) batch.length (requestsOf s.frames ms) ∧
      s.enterAsBatchGroupLeader l f newest = some { s with
        frames := formed s.frames l f ms last
        links := links
        turns := s.turns ++ [ticketsOf s.frames (l :: ms)] } := by
  obtain ⟨batch, hbatch⟩ := Option.isSome_iff_exists.mp hbatch
  obtain ⟨ys₁, ys₂, hys⟩ := List.append_of_mem hnewest
  have hqueue : g.queue = l :: g.rest := by rw [Shape.queue, hg]; rfl
  have hsplit := h.split
  rw [hqueue] at hsplit
  obtain ⟨n, hown⟩ := h.queued.older_head hsplit
  -- the writers from the leader to the newest one
  have happend : g.xs ++ ys₁ ++ [newest] ++ ys₂ = l :: g.rest := by
    rw [← hsplit, hys]
    simp
  obtain ⟨ws, hws, hrest⟩ := (List.append_eq_cons_iff.mp happend).resolve_left (by simp)
  have hbound : ws.length < s.bound + 1 ∧ ys₁.length < s.bound + 1 := by
    have hle := h.bound
    have hlen := congrArg List.length hws
    rw [hqueue, List.length_cons, hrest, List.length_append] at hle
    simp only [List.length_append, List.length_cons, List.length_nil] at hlen
    rw [State.bound]
    omega
  have hnodup : (l :: g.rest).Nodup := hqueue ▸ h.split ▸ h.queued.nodup
  -- the links up to the newest writer are filled in
  obtain ⟨links, hlinks, hqueued, hsame⟩ :=
    createMissingNewerLinks_queued (hys ▸ h.queued) hbound.2
  have hchain : List.IsChain (Newer links) (l :: ws) := hws ▸ isChain_newer hqueued.full
  -- and the group takes over the first ones of them
  set frames₁ := Function.update s.frames l (some { f with writeGroup := some l }) with hframes₁
  have hsome : ∀ b ∈ l :: ws, ∃ f, frames₁ b = some f := by
    intro b hb
    rcases eq_or_ne b l with rfl | hne
    · exact ⟨_, Function.update_self ..⟩
    · rw [hframes₁, Function.update_of_ne hne]
      refine h.exists_frame (hqueue ▸ ?_)
      exact hrest ▸ List.cons_append .. ▸ List.mem_append_left ys₂ hb
  obtain ⟨ms, rest, last, rfl, hlast, hfits, hextend⟩ := extendGroup_eq frames₁ f.request
    (maxGroupSize batch.length) batch.length ⟨l, l, 1, 0⟩ hbound.1 hchain
    (by rw [← hws, List.getLast?_concat]) (hnodup.sublist (by simp [hrest]))
    (fun b hb => hsome b (List.mem_cons_of_mem l hb))
  rw [List.append_assoc] at hrest
  have hlms : l ∉ ms := fun hl => (List.nodup_cons.mp hnodup).1 (hrest ▸ List.mem_append_left _ hl)
  have htickets : groupTickets (joinGroup frames₁ l ms) links last (s.bound + 1) l =
      some (ticketsOf s.frames (l :: ms)) := by
    have hown : ticketsOf frames₁ (l :: ms) = ticketsOf s.frames (l :: ms) :=
      List.filterMap_congr fun b _ => by
        rcases eq_or_ne b l with rfl | hne
        · rw [hframes₁, Function.update_self, hf]
          rfl
        · rw [hframes₁, Function.update_of_ne hne]
    rw [← hown, ← ticketsOf_joinGroup l ms]
    rw [← List.cons_append] at hchain
    refine groupTickets_eq ?_ hchain.left_of_append hlast (hnodup.sublist (by simp [hrest])) ?_
    · rw [List.length_append] at hbound
      omega
    · intro b hb
      obtain ⟨f, hf⟩ := hsome b (List.mem_append_left rest hb)
      unfold joinGroup
      split_ifs
      · exact ⟨_, by rw [hf]; rfl⟩
      · exact ⟨f, hf⟩
  have hrequests : requestsOf frames₁ ms = requestsOf s.frames ms :=
    List.filterMap_congr fun b hb => by
      rw [hframes₁, Function.update_of_ne (ne_of_mem_of_not_mem hb hlms)]
  refine ⟨ys₁, ys₂, links, ms, rest ++ ys₂, last, batch, hys, hqueued, hsame, hrest, hlast, ?_,
    hbatch, hrequests ▸ hfits, ?_⟩
  · have hlen := congrArg List.length hws
    simp only [List.length_append, List.length_cons, List.length_nil] at hlen ⊢
    omega
  rw [WriteThread.enterAsBatchGroupLeader_eq hown hbatch hlinks hextend
    ((if_neg hlms).trans (Function.update_self ..)) htickets, formed, joinGroup_update hlms]
  simp [Nat.add_comm]

theorem Inv.enterAsBatchGroupLeader {newest : ℕ} (h : Inv g s) (hg : g.front = [l])
    (hs : g.stalled = false) (hf : s.frames l = some f) (hgroup : f.writeGroup = none)
    (hbatch : f.request.batch.isSome = true) (hnewest : newest ∈ g.ys) :
    Keeps (s.enterAsBatchGroupLeader l f newest) := by
  obtain ⟨ys₁, ys₂, links, ms, rest, last, batch, hys, hqueued, hsame, hrest, hlast, hfilled,
    hbatch, hfits, heq⟩ := h.enterAsBatchGroupLeader_eq hg hf hbatch hnewest
  have hqueue : g.queue = l :: ms ++ rest := by rw [Shape.queue, hg, hrest]; rfl
  have hnodup := h.queued.nodup
  rw [h.split, hqueue, List.nodup_append] at hnodup
  have hrest' : ∀ b ∈ rest, b ∉ l :: ms := fun b hb hb' => hnodup.2.2 b hb' b hb rfl
  have hother : ∀ b, b ∉ l :: ms → formed s.frames l f ms last b = s.frames b := by
    intro b hb
    rw [List.mem_cons, not_or] at hb
    rw [formed, Function.update_of_ne hb.1, joinGroup, if_neg hb.2]
  have hleader : formed s.frames l f ms last l = some _ := Function.update_self ..
  have hmembers : ∀ b ∈ ms, Holds (formed s.frames l f ms last) b (Frame.Following l) := by
    intro b hb
    have hbl : b ≠ l := fun hbl => (List.nodup_cons.mp hnodup.1).1 (hbl ▸ hb)
    obtain ⟨f', hf', hpc, hstate, -⟩ := h.rest b (hrest ▸ List.mem_append_left rest hb)
    refine ⟨{ f' with writeGroup := some l }, ?_, hpc, hstate, rfl⟩
    rw [formed, Function.update_of_ne hbl, joinGroup, if_pos hb, hf']
    rfl
  have hsplit : g.xs ++ ys₁ ++ newest :: ys₂ = l :: ms ++ rest := by
    rw [← hqueue, ← h.split, hys, List.append_assoc]
  have hhistory : (s.turns ++ [ticketsOf s.frames (l :: ms)]).flatten ++
      pendingOf (formed s.frames l f ms last) g.queue =
        s.turns.flatten ++ pendingOf s.frames g.queue := by
    have hgrouped : ∀ b ∈ l :: ms, Holds (formed s.frames l f ms last) b fun f =>
        f.writeGroup = some l := by
      intro b hb
      rcases List.mem_cons.mp hb with rfl | hb
      · exact ⟨_, hleader, rfl⟩
      · obtain ⟨f', hf', -, -, hgroup'⟩ := hmembers b hb
        exact ⟨f', hf', hgroup'⟩
    have hungrouped : ∀ b ∈ l :: ms, Holds s.frames b fun f => f.writeGroup = none := by
      intro b hb
      rcases List.mem_cons.mp hb with rfl | hb
      · exact ⟨f, hf, hgroup⟩
      · obtain ⟨f', hf', -, -, hgroup'⟩ := h.rest b (hrest ▸ List.mem_append_left rest hb)
        exact ⟨f', hf', hgroup'⟩
    rw [hqueue, pendingOf_append, pendingOf_append, pendingOf_grouped hgrouped,
      pendingOf_ungrouped hungrouped, pendingOf_congr fun b hb => hother b (hrest' b hb)]
    simp
  refine ⟨_, { g with xs := g.xs ++ ys₁, ys := newest :: ys₂, front := l :: ms, rest := rest },
    heq, h.within hqueue.symm rfl hqueued hsplit ?_ hfilled
      (fun hnil => absurd hnil (List.cons_ne_nil l ms)) ?_ ?_ ?_ ?_ id rfl rfl hhistory ?_ ?_⟩
  · exact hs ▸ .writing ⟨hleader, rfl, ⟨last, hlast, rfl⟩, rfl, hmembers⟩
  · exact fun b hb => (h.rest b (hrest ▸ List.mem_append_right ms hb)).congr
      (hother b (hrest' b hb))
  · exact fun b hb => hother b fun hb' => hb (hqueue ▸ List.mem_append_left rest hb')
  · refine fun b hb => hsame b fun hb' => hb ?_
    rw [← h.split, hys]
    simp [hb']
  · rw [h.newest, hqueue]
    rfl
  · exact fun b hb => formed_ticketed hf (h.requests b hb)
  · intro turn hturn
    rcases List.mem_append.mp hturn with hturn | hturn
    · exact h.fits turn hturn
    · rw [List.mem_singleton] at hturn
      refine ⟨f.request, requestsOf s.frames ms, ?_, Or.inr ⟨batch, hbatch, hfits⟩⟩
      rw [hturn, map_ticketsOf fun b hb => h.requests b (hqueue ▸ List.mem_append_left rest hb),
        requestsOf, List.filterMap_cons, hf]
      rfl

/-- The newest writer is the last one of the front, or behind it. -/
theorem Shape.newest_place {n : ℕ} (hn : g.queue.getLast? = some n) :
    g.front.getLast? = some n ∨ n ∈ g.rest := by
  rw [Shape.queue] at hn
  by_cases hnil : g.rest = []
  · rw [hnil, List.append_nil] at hn
    exact Or.inl hn
  · rw [List.getLast?_append_of_ne_nil _ hnil] at hn
    exact Or.inr (List.mem_of_getLast? hn)

theorem Inv.exit {P : Frame → Prop} (h : Inv g s) (hg : g.front = l :: fs) (hs : g.stalled = false)
    (hf : s.frames e = some f) (hexits : Exits s.frames l fs e P) : Keeps (s.exit e f l) := by
  obtain ⟨n, hn, hmem, hlast⟩ := h.newest_mem hs (by rw [hg]; exact List.cons_ne_nil l fs)
  have hplace := Shape.newest_place hlast
  rw [hg] at hplace
  refine ⟨_, g, by rw [State.exit, hn, Option.map_some], ?_⟩
  refine h.setFrame_front hf (hg ▸ hexits.mem) rfl ?_
  rw [hg, hs]
  refine .exiting ⟨?_, ?_, hexits.mem, ⟨_, Function.update_self .., rfl⟩, ?_⟩ hmem hplace
  · exact hexits.leads.imp fun r hr => hr.update hf id
  · exact fun b hb => (hexits.grouped b hb).update hf id
  · exact fun b hb hne => (hexits.others b hb hne).update_of_ne hne

/-- While the leader writes, the other members of the group wait for it. -/
theorem Writing.exits {running : ℕ} {frames : Memory Frame} (h : Writing frames l fs running f) :
    Exits frames l fs l fun f => f.pc = .write where
  leads := ⟨running, f, h.frame, h.leads⟩
  grouped b hb := by
    rcases List.mem_cons.mp hb with rfl | hb
    · exact ⟨f, h.frame, h.group⟩
    · exact (h.follow b hb).imp fun f hf => ⟨hf.1, hf.2.2.2⟩
  mem := List.mem_cons_self
  executor := ⟨f, h.frame, h.pc⟩
  others b hb hne := by
    have hb := h.follow b ((List.mem_cons.mp hb).resolve_left hne)
    exact hb.imp fun f hf => ⟨hf.1, Or.inl ⟨hf.2.1, hf.2.2.1⟩⟩

theorem Inv.nodup_front (h : Inv g s) : g.front.Nodup := by
  have hnodup := h.queued.nodup
  rw [h.split, Shape.queue, List.nodup_append] at hnodup
  exact hnodup.1

theorem Inv.launch {running : ℕ} (h : Inv g s) (hg : g.front = l :: fs) (hs : g.stalled = false)
    (hwriting : Writing s.frames l fs running f) : Keeps (s.launch l f) := by
  obtain ⟨last, hlast, hleads⟩ := hwriting.leads
  refine ⟨_, g, by rw [State.launch, hleads, Option.map_some], ?_⟩
  refine h.setFrame_front hwriting.frame (hg ▸ List.mem_cons_self) rfl ?_
  have hnodup : (l :: fs).Nodup := hg ▸ h.nodup_front
  have hne : ∀ b ∈ fs, b ≠ l := fun b hb => ne_of_mem_of_not_mem hb (List.nodup_cons.mp hnodup).1
  rw [hg, hs]
  refine .parallel ⟨Function.update_self .., ⟨last, hlast, rfl⟩, hwriting.group,
    (List.nil_append _).symm, ⟨Or.inl rfl, fun hnil => absurd rfl hnil⟩, by simp, ?_, ?_,
    Nat.succ_pos _⟩
  · intro b hb hbl
    exact (hwriting.follow b ((List.mem_cons.mp hb).resolve_left hbl)).update_of_ne hbl
  · -- nobody has finished
    symm
    rw [← List.length_cons (a := l), List.countP_eq_length]
    intro b hb
    rcases List.mem_cons.mp hb with rfl | hb
    · simp [unfinished]
    · obtain ⟨f', hf', hpc, -⟩ := (hwriting.follow b hb).update_of_ne (hne b hb)
      rw [unfinished, hf']
      simp [hpc]

/-- A change of a frame that does not finish its part of the work. -/
theorem unfinished_update {frames : Memory Frame} {f' : Frame} (hf : frames a = some f)
    (hpc : f'.pc = .awaitCompleted ↔ f.pc = .awaitCompleted) :
    unfinished (Function.update frames a (some f')) = unfinished frames := by
  funext b
  unfold unfinished
  rcases eq_or_ne b a with rfl | hne
  · rw [Function.update_self, hf]
    simp [hpc]
  · rw [Function.update_of_ne hne]

/-- All links inside of a group have been filled in. -/
theorem Inv.newer_front {w w' : ℕ} {done todo : List ℕ} (h : Inv g s)
    (hg : g.front = done ++ w :: w' :: todo) : Newer s.links w w' := by
  have hsplit := h.split
  have hfilled := h.filled
  rw [Shape.queue, hg, List.append_assoc] at hsplit
  rw [hg, List.length_append, List.length_cons, List.length_cons] at hfilled
  rcases List.append_eq_append_iff.mp hsplit with ⟨zs, hdone, -⟩ | ⟨zs, hxs, hys⟩
  · -- then the part with both links would be too short
    rw [hdone, List.length_append] at hfilled
    omega
  · cases zs with
    | nil =>
        rw [hxs, List.append_nil] at hfilled
        omega
    | cons z zs =>
        rw [List.cons_append, List.cons_append, List.cons_append] at hys
        obtain ⟨rfl, htail⟩ := List.cons.inj hys
        obtain ⟨p, hp⟩ := h.queued.newer_of_mem hxs
        rw [← htail, firstOf_cons] at hp
        exact ⟨p, hp⟩

/-- What one iteration of `LaunchParallelMemTableWriters` finds behind a member. -/
theorem Inv.launch_next {w last : ℕ} {done todo : List ℕ} (h : Inv g s)
    (hg : g.front = done ++ w :: todo) (hlast : g.front.getLast? = some last) :
    ∃ links, s.links w = some links ∧ (if w = last then none else links.newer) = todo.head? := by
  have hw : w ∈ g.front := hg ▸ by simp
  cases todo with
  | nil =>
      rw [hg, List.getLast?_concat] at hlast
      obtain ⟨f, hf⟩ := h.front.isSome_of_mem hw
      obtain ⟨links, hlinks⟩ := h.isSome_links hf
      exact ⟨links, hlinks, if_pos (Option.some.inj hlast)⟩
  | cons w' todo =>
      obtain ⟨p, hp⟩ := h.newer_front hg
      refine ⟨_, hp, if_neg ?_⟩
      rintro rfl
      -- the last member would be in the group twice
      have hnodup := h.nodup_front
      rw [hg] at hlast hnodup
      rw [List.getLast?_append_of_ne_nil _ (List.cons_ne_nil _ _), List.getLast?_cons_cons] at hlast
      have hnot := (List.nodup_cons.mp (List.nodup_append.mp hnodup).2.1).1
      exact hnot (List.mem_of_getLast? hlast)

/-- The leader of a parallel group goes on to its own batch. -/
theorem Inv.launchNext_none {running : ℕ} {done : List ℕ} (h : Inv g s) (hg : g.front = l :: fs)
    (hs : g.stalled = false) (hparallel : Parallel s.frames l fs done [] running f)
    (hpc : f.pc = .launch none) : Keeps (s.launchNext l none) := by
  have hf := hparallel.frame
  refine ⟨_, g, by rw [State.launchNext, hf, Option.map_some], ?_⟩
  refine h.setFrame_front hf (hg ▸ List.mem_cons_self) rfl ?_
  rw [hg, hs]
  refine .parallel ⟨Function.update_self .., hparallel.leads, hparallel.group, hparallel.split,
    ⟨Or.inr ⟨rfl, Or.inl rfl⟩, hparallel.launches.state⟩, ?_, by simp, ?_, hparallel.pos⟩
  · exact fun b hb hne => (hparallel.launched b hb hne).update_of_ne hne
  · rw [unfinished_update hf (by simp [hpc]), hparallel.count]

/-- The leader of a parallel group tells one member, possibly itself, to insert its batch. -/
theorem Inv.launchNext_some {running w : ℕ} {done todo : List ℕ} (h : Inv g s)
    (hg : g.front = l :: fs) (hs : g.stalled = false)
    (hparallel : Parallel s.frames l fs done (w :: todo) running f)
    (hpc : f.pc = .launch (some w)) : Keeps (s.launchNext l (some w)) := by
  have hf := hparallel.frame
  have hsplit := hparallel.split
  obtain ⟨last, hlast, hgroup⟩ := hparallel.leads
  have hw : w ∈ g.front := hg ▸ hsplit ▸ by simp
  have hl : l ∈ g.front := hg ▸ List.mem_cons_self
  obtain ⟨links, hlinks, hnext⟩ := h.launch_next (hg.trans hsplit) (hg ▸ hlast)
  obtain ⟨fw, hfw⟩ := h.front.isSome_of_mem hw
  set told := Function.update s.frames w (some { fw with state := .parallelMemtableWriter })
    with htold
  obtain ⟨f', hf', hkept, hstate⟩ : ∃ f', told l = some f' ∧
      (f'.pc = f.pc ∧ f'.group = f.group ∧ f'.writeGroup = f.writeGroup) ∧
      f'.state = .parallelMemtableWriter := by
    rcases eq_or_ne l w with rfl | hne
    · rw [hf] at hfw
      cases hfw
      exact ⟨_, Function.update_self .., ⟨rfl, rfl, rfl⟩, rfl⟩
    · refine ⟨f, (Function.update_of_ne hne ..).trans hf, ⟨rfl, rfl, rfl⟩,
        hparallel.launches.state ?_⟩
      rintro rfl
      exact hne (List.cons.inj hsplit).1
  have hnodup : (done ++ w :: todo).Nodup := hsplit ▸ hg ▸ h.nodup_front
  refine ⟨(s.setFrame w { fw with state := .parallelMemtableWriter }).setFrame l
    { f' with pc := .launch todo.head? }, g, ?_, ?_⟩
  · simp [State.launchNext, State.setState, hfw, State.setFrame, hlinks, ← htold, hf', hkept.2.1,
      hgroup, hnext]
  refine h.setFront ?_ (fun b hb => ?_) fun b hb => ?_
  · rw [hg, hs]
    refine .parallel ⟨Function.update_self .., ⟨last, hlast, hkept.2.1.trans hgroup⟩,
      hkept.2.2.trans hparallel.group, (by rw [hsplit]; simp : l :: fs = done ++ [w] ++ todo),
      ⟨Or.inl rfl, fun _ => hstate⟩, ?_, ?_, ?_, hparallel.pos⟩
    · intro b hb hne
      refine Holds.update_of_ne ?_ hne
      rcases List.mem_append.mp hb with hb | hb
      · exact (hparallel.launched b hb hne).update hfw fun hb => ⟨hb.1, rfl, hb.2.2⟩
      · rw [List.mem_singleton] at hb
        subst hb
        obtain ⟨f₀, hf₀, hfollow⟩ := hparallel.follow b List.mem_cons_self hne
        rw [hfw] at hf₀
        cases hf₀
        exact ⟨_, Function.update_self .., Or.inl hfollow.1, rfl, hfollow.2.2⟩
    · intro b hb hne
      have hbw : b ≠ w := ne_of_mem_of_not_mem hb
        (List.nodup_cons.mp (List.nodup_append.mp hnodup).2.1).1
      have hfollow := hparallel.follow b (List.mem_cons_of_mem w hb) hne
      exact (hfollow.update_of_ne hbw).update_of_ne hne
    · change running = (l :: fs).countP (unfinished (Function.update told l _))
      rw [unfinished_update hf' (by simp [hkept.1, hpc]), htold, unfinished_update hfw (by simp),
        hparallel.count]
  · have hbl := (ne_of_mem_of_not_mem hl hb).symm
    have hbw := (ne_of_mem_of_not_mem hw hb).symm
    exact (Function.update_of_ne hbl ..).trans (Function.update_of_ne hbw ..)
  · exact (turn_update { f' with pc := .launch todo.head? } hf' rfl b).trans
      (turn_update { fw with state := .parallelMemtableWriter } hfw rfl b)

theorem countP_unfinished_erase {frames : Memory Frame} {q : List ℕ} (ha : a ∈ q)
    (hunfinished : unfinished frames a = true) :
    q.countP (unfinished frames) = (q.erase a).countP (unfinished frames) + 1 := by
  rw [(List.perm_cons_erase ha).countP_eq, List.countP_cons_of_pos hunfinished]

/-- One member of a group finishes its part of the work. -/
theorem countP_unfinished_finish {frames frames' : Memory Frame} {q : List ℕ} (ha : a ∈ q)
    (hnodup : q.Nodup) (hunfinished : unfinished frames a = true)
    (hfinished : unfinished frames' a = false)
    (hother : ∀ b, b ≠ a → unfinished frames' b = unfinished frames b) :
    q.countP (unfinished frames') + 1 = q.countP (unfinished frames) := by
  rw [countP_unfinished_erase ha hunfinished, (List.perm_cons_erase ha).countP_eq,
    List.countP_cons_of_neg (by simp [hfinished])]
  congr 1
  refine List.countP_congr fun b hb => ?_
  rw [hother b (hnodup.mem_erase_iff.mp hb).1]

theorem Inv.wake_launched {running : ℕ} {done todo : List ℕ} {fl : Frame} (h : Inv g s)
    (hg : g.front = l :: fs) (hs : g.stalled = false)
    (hparallel : Parallel s.frames l fs done todo running fl) (hf : s.frames a = some f)
    (ha : a ∈ done) (hal : a ≠ l) (hpc : f.pc = .awaitState) (hlaunched : f.Launched l) :
    Inv g (s.wake a f) := by
  have hnodup : (done ++ todo).Nodup := hparallel.split ▸ hg ▸ h.nodup_front
  rw [State.wake, hlaunched.2.1]
  refine h.setFrame_front hf (hg ▸ hparallel.split ▸ List.mem_append_left todo ha) rfl ?_
  rw [hg, hs]
  refine .parallel ⟨(Function.update_of_ne hal.symm ..).trans hparallel.frame, hparallel.leads,
    hparallel.group, hparallel.split, hparallel.launches, ?_, ?_, ?_, hparallel.pos⟩
  · intro b hb hne
    exact (hparallel.launched b hb hne).update hf fun hb => ⟨Or.inr (Or.inl rfl), rfl, hb.2.2⟩
  · intro b hb hne
    have hba : b ≠ a := fun hba => (List.nodup_append.mp hnodup).2.2 a ha b hb hba.symm
    exact (hparallel.follow b hb hne).update_of_ne hba
  · rw [unfinished_update hf (by simp [hpc]), hparallel.count]

theorem Parallel.grouped {frames : Memory Frame} {running b : ℕ} {done todo : List ℕ}
    (h : Parallel frames l fs done todo running f) (hb : b ∈ l :: fs) :
    Holds frames b fun f => f.writeGroup = some l := by
  by_cases hne : b = l
  · exact ⟨f, hne ▸ h.frame, h.group⟩
  · rw [h.split] at hb
    rcases List.mem_append.mp hb with hb | hb
    · exact (h.launched b hb hne).imp fun f hf => ⟨hf.1, hf.2.2.2⟩
    · exact (h.follow b hb hne).imp fun f hf => ⟨hf.1, hf.2.2.2⟩

/-- When only one member is at work, the others rest. -/
theorem Parallel.resting {frames : Memory Frame} {running b : ℕ} {done todo : List ℕ}
    (h : Parallel frames l fs done todo running f) (ha : a ∈ l :: fs)
    (hunfinished : unfinished frames a = true) (hone : running ≤ 1) (hb : b ∈ l :: fs)
    (hne : b ≠ a) : Holds frames b Frame.Resting := by
  have hcount := h.count
  rw [countP_unfinished_erase ha hunfinished] at hcount
  have hzero : ((l :: fs).erase a).countP (unfinished frames) = 0 := by omega
  have hfinished := List.countP_eq_zero.mp hzero b ((List.mem_erase_of_ne hne).mpr hb)
  have hpc : ∀ f, frames b = some f → f.pc = .awaitCompleted := by
    intro f hf
    simpa [unfinished, hf] using hfinished
  by_cases hbl : b = l
  · subst hbl
    have hpc := hpc f h.frame
    obtain ⟨rfl, -⟩ := h.launches.pc.resolve_left (by simp [hpc])
    refine ⟨f, h.frame, Or.inr ⟨hpc, h.launches.state ?_⟩⟩
    rintro rfl
    exact List.cons_ne_nil _ _ h.split
  · rw [h.split] at hb
    rcases List.mem_append.mp hb with hb | hb
    · obtain ⟨f, hf, hlaunched⟩ := h.launched b hb hbl
      exact ⟨f, hf, Or.inr ⟨hpc f hf, hlaunched.2.1⟩⟩
    · obtain ⟨f, hf, hfollow⟩ := h.follow b hb hbl
      have := hpc f hf
      rw [hfollow.1] at this
      cases this

/-- The front after a member has finished that is not the last one. Its counter is in the
frame of the leader. -/
theorem Parallel.finish {frames : Memory Frame} {running last : ℕ} {done todo : List ℕ}
    {fl fl' f' : Frame} (h : Parallel frames l fs done todo running fl) (hnodup : (l :: fs).Nodup)
    (hf : frames a = some f) (ha : a = l ∨ a ∈ done) (hpc : f.pc = .insertInto)
    (hmany : 1 < running) (hlast : (l :: fs).getLast? = some last)
    (hfl' : fl' = { fl with group := some ⟨l, last, fs.length + 1, running - 1⟩ })
    (hf' : Function.update frames l (some fl') a = some f') :
    ∃ f₀, Parallel (Function.update (Function.update frames l (some fl')) a
      (some { f' with pc := .awaitCompleted })) l fs done todo (running - 1) f₀ := by
  have hmem : a ∈ l :: fs := by
    rcases ha with rfl | ha
    · exact List.mem_cons_self
    · exact h.split ▸ List.mem_append_left todo ha
  have htodo : ∀ b ∈ todo, b ≠ l → b ≠ a := by
    rintro b hb hne rfl
    have hnodup := h.split ▸ hnodup
    exact (List.nodup_append.mp hnodup).2.2 b (ha.resolve_left hne) b hb rfl
  set counted := Function.update frames l (some fl') with hcounted
  set finished := Function.update counted a (some { f' with pc := .awaitCompleted }) with hfinished
  have hsame : unfinished counted = unfinished frames := unfinished_update h.frame (by rw [hfl'])
  have hcount : (l :: fs).countP (unfinished finished) + 1 = running := by
    rw [h.count]
    refine countP_unfinished_finish hmem hnodup (by simp [unfinished, hf, hpc])
      (by simp [unfinished, hfinished]) fun b hb => ?_
    rw [← hsame, unfinished, hfinished, Function.update_of_ne hb, unfinished]
  have hlaunched : ∀ b ∈ done, b ≠ l → Holds finished b (Frame.Launched l) := fun b hb hne =>
    ((h.launched b hb hne).update_of_ne hne).update hf' fun hb => ⟨Or.inr (Or.inr rfl), hb.2⟩
  have hfollow : ∀ b ∈ todo, b ≠ l → Holds finished b (Frame.Following l) := fun b hb hne =>
    ((h.follow b hb hne).update_of_ne hne).update_of_ne (htodo b hb hne)
  have hleads : fl'.Leads l fs (running - 1) := ⟨last, hlast, by rw [hfl']⟩
  have hgroup : fl'.writeGroup = some l := by rw [hfl']; exact h.group
  have hrunning : running - 1 = (l :: fs).countP (unfinished finished) ∧ 0 < running - 1 := by omega
  rcases eq_or_ne a l with rfl | hne
  · obtain rfl : f = fl := Option.some.inj (hf.symm.trans h.frame)
    obtain rfl : fl' = f' := by
      rw [hcounted, Function.update_self] at hf'
      exact Option.some.inj hf'
    -- the leader has launched all others before its own insertion
    obtain ⟨htodo, -⟩ := h.launches.pc.resolve_left (by simp [hpc])
    refine ⟨_, Function.update_self .., hleads, hgroup, h.split, ⟨Or.inr ⟨htodo, Or.inr rfl⟩, ?_⟩,
      hlaunched, hfollow, hrunning.1, hrunning.2⟩
    rw [hfl']
    exact h.launches.state
  · refine ⟨fl', (Function.update_of_ne hne.symm ..).trans (Function.update_self ..), hleads,
      hgroup, h.split, ?_, hlaunched, hfollow, hrunning.1, hrunning.2⟩
    rw [hfl']
    exact ⟨h.launches.pc, h.launches.state⟩

theorem Inv.completeParallelMemTableWriter {running : ℕ} {done todo : List ℕ} {fl : Frame}
    (h : Inv g s) (hg : g.front = l :: fs) (hs : g.stalled = false)
    (hparallel : Parallel s.frames l fs done todo running fl) (hf : s.frames a = some f)
    (ha : a = l ∨ a ∈ done) (hpc : f.pc = .insertInto) :
    Keeps (s.completeParallelMemTableWriter a f) := by
  have hfl := hparallel.frame
  have hpos := hparallel.pos
  obtain ⟨last, hlast, hgroup⟩ := hparallel.leads
  have hnodup : (l :: fs).Nodup := hg ▸ h.nodup_front
  have hl : l ∈ g.front := hg ▸ List.mem_cons_self
  have hmem : a ∈ l :: fs := by
    rcases ha with rfl | ha
    · exact List.mem_cons_self
    · exact hparallel.split ▸ List.mem_append_left todo ha
  have hwriteGroup : f.writeGroup = some l := by
    obtain ⟨f₀, hf₀, hf₀'⟩ := hparallel.grouped hmem
    rw [hf] at hf₀
    cases hf₀
    exact hf₀'
  have hunfinished : unfinished s.frames a = true := by simp [unfinished, hf, hpc]
  -- the counter in the frame of the leader goes down
  set fl' : Frame := { fl with group := some ⟨l, last, fs.length + 1, running - 1⟩ } with hfl'
  set counted := Function.update s.frames l (some fl') with hcounted
  obtain ⟨f', hf', hkept⟩ : ∃ f', counted a = some f' ∧ f'.state = f.state ∧ f'.turn = f.turn := by
    rcases eq_or_ne a l with rfl | hne
    · rw [hf] at hfl
      cases hfl
      exact ⟨_, Function.update_self .., rfl, rfl⟩
    · exact ⟨f, (Function.update_of_ne hne ..).trans hf, rfl, rfl⟩
  set pc : Pc := if running > 1 then .awaitCompleted else .lastWorker l with hpc'
  have hleads : Holds counted l (Frame.Leads l fs (running - 1)) :=
    ⟨_, Function.update_self .., last, hlast, rfl⟩
  refine ⟨{ s with frames := Function.update counted a (some { f' with pc := pc }) }, g, ?_, ?_⟩
  · simp [State.completeParallelMemTableWriter, hwriteGroup, hfl, hgroup, Nat.ne_of_gt hpos,
      State.setFrame, ← hfl', ← hcounted, hf', hpc']
  refine h.setFront ?_ (fun b hb => ?_) fun b hb => ?_
  · rw [hg, hs]
    have hgrouped : ∀ b ∈ l :: fs, Holds counted b fun f => f.writeGroup = some l := fun b hb =>
      (hparallel.grouped hb).update hfl id
    rcases Nat.lt_or_ge 1 running with hmany | hone
    · rw [if_pos hmany] at hpc'
      obtain ⟨f₀, hf₀⟩ := hparallel.finish hnodup hf ha hpc hmany hlast hfl' hf'
      exact .parallel (hpc' ▸ hf₀)
    · rw [if_neg (Nat.not_lt.mpr hone)] at hpc'
      refine .last ⟨⟨running - 1, hleads.update hf' id⟩, fun b hb => ?_, hmem,
        ⟨_, Function.update_self .., hpc'⟩, fun b hb hne => ?_⟩
      · exact (hgrouped b hb).update hf' id
      · have hrest : Holds counted b Frame.Resting :=
          (hparallel.resting hmem hunfinished hone hb hne).update hfl id
        exact hrest.update_of_ne hne
  · have hbl := (ne_of_mem_of_not_mem hl hb).symm
    have hba := (ne_of_mem_of_not_mem (hg ▸ hmem) hb).symm
    exact (Function.update_of_ne hba ..).trans (Function.update_of_ne hbl ..)
  · exact (turn_update { f' with pc := pc } hf' rfl b).trans (turn_update fl' hfl rfl b)

end PowerLawRocksdb.WriteThread
