import PowerLawRocksdb.WriteHandOver

/-!
# Write stalls

A leader that has to wait puts a dummy at the end of the queue, so that nobody can
join, and completes the pending writers that must not be delayed. It takes them out of
the list by the links from newer to older writers only. This is safe as long as no
link in the other direction leads to one of them.
-/
namespace PowerLawRocksdb.WriteThread
open LinkedHeap LazyQueue

variable {g : Shape} {s : State} {a l : ℕ} {f : Frame} {frames : Memory Frame} {q : List ℕ}

/-- No link from an older writer leads to a writer that a stall would take out. -/
def Unreached (frames : Memory Frame) (links : Memory Links) (q : List ℕ) : Prop :=
  ∀ p ∈ q, ∀ w ∈ (links p).bind LazyQueue.Links.newer, waitsOut frames w = true

instance (frames : Memory Frame) (links : Memory Links) (q : List ℕ) :
    Decidable (Unreached frames links q) :=
  inferInstanceAs (Decidable (∀ p ∈ q, ∀ w ∈ (links p).bind LazyQueue.Links.newer, _))

/-- Then only writers of the second part are taken out, and not the first one of them
unless it is the leader. -/
theorem Inv.reached_waits (h : Inv g s) (hg : g.front = [l]) (hl : waitsOut s.frames l = true)
    (hsafe : Unreached s.frames s.links g.queue) :
    g.xs.filter (waitsOut s.frames) = g.xs ∧
      (g.xs ≠ [] → firstOf (g.ys.filter (waitsOut s.frames)) none = firstOf g.ys none) := by
  have hsplit := h.split
  have hqueued := h.queued
  rw [Shape.queue, hg] at hsplit
  rw [← h.split] at hsafe
  cases hxs : g.xs with
  | nil => exact ⟨rfl, absurd rfl⟩
  | cons x xs =>
      cases hys : g.ys with
      | nil =>
          have := hqueued.newest hys
          rw [hxs] at this
          cases this
      | cons y ys =>
          rw [hxs] at hsplit
          obtain ⟨rfl, -⟩ := List.cons.inj hsplit
          rw [hxs, hys] at hqueued hsafe
          have hreached : ∀ b ∈ xs ++ [y], waitsOut s.frames b = true := by
            intro b hb
            obtain ⟨p, hp, o, hnewer⟩ := hqueued.exists_newer hb
            exact hsafe p hp b (by rw [hnewer]; rfl)
          constructor
          · refine List.filter_eq_self.mpr fun b hb => ?_
            rcases List.mem_cons.mp hb with rfl | hb
            · exact hl
            · exact hreached b (List.mem_append_left [y] hb)
          · intro _
            rw [List.filter_cons_of_pos (hreached y (by simp))]
            rfl

def ticketAt (frames : Memory Frame) (a : ℕ) : ℕ := ((frames a).map Frame.ticket).getD 0

theorem ticketsOf_eq_map (hframes : ∀ a ∈ q, ∃ f, frames a = some f) :
    ticketsOf frames q = q.map (ticketAt frames) := by
  rw [ticketsOf, ← List.filterMap_eq_map]
  refine List.filterMap_congr fun a ha => ?_
  obtain ⟨f, hf⟩ := hframes a ha
  simp [ticketAt, hf]

/-- The tickets of a list without those of some of its members. -/
theorem filter_ticketsOf {keep : ℕ → Bool} (hframes : ∀ a ∈ q, ∃ f, frames a = some f)
    (hnodup : (ticketsOf frames q).Nodup) :
    (ticketsOf frames q).filter
        (fun t => decide (t ∉ ticketsOf frames (q.filter fun a => !keep a).reverse)) =
      ticketsOf frames (q.filter keep) := by
  rw [ticketsOf_eq_map hframes] at hnodup ⊢
  rw [ticketsOf_eq_map fun a ha => hframes a (List.mem_filter.mp ha).1,
    ticketsOf_eq_map fun a ha => hframes a (List.mem_filter.mp (List.mem_reverse.mp ha)).1,
    List.filter_map]
  congr 1
  refine List.filter_congr fun a ha => ?_
  rw [Bool.eq_iff_iff, Function.comp_apply, decide_eq_true_iff, List.mem_map, not_exists]
  constructor
  · intro hnot
    by_contra hkeep
    exact hnot a ⟨by simp [ha, hkeep], rfl⟩
  · rintro hkeep b ⟨hb, heq⟩
    rw [List.mem_reverse, List.mem_filter] at hb
    obtain rfl := List.inj_on_of_nodup_map hnodup hb.1 ha heq
    simp [hkeep] at hb

/-- The history after some of the pending writers have failed. -/
theorem history_fail {turns failed : List ℕ} {keep : ℕ → Bool} {n : ℕ}
    (hframes : ∀ a ∈ q, ∃ f, frames a = some f)
    (hhistory : turns ++ ticketsOf frames q =
      (List.range n).filter fun t => decide (t ∉ failed)) :
    turns ++ ticketsOf frames (q.filter keep) = (List.range n).filter fun t =>
      decide (t ∉ failed ++ ticketsOf frames (q.filter fun a => !keep a).reverse) := by
  have hnodup : (turns ++ ticketsOf frames q).Nodup := by
    rw [hhistory]
    exact List.nodup_range.filter _
  rw [List.nodup_append] at hnodup
  have hturns : turns.filter (fun t =>
      decide (t ∉ ticketsOf frames (q.filter fun a => !keep a).reverse)) = turns := by
    refine List.filter_eq_self.mpr fun t ht => decide_eq_true fun hmem => ?_
    have hsub : t ∈ ticketsOf frames q := by
      rw [ticketsOf, List.mem_filterMap] at hmem ⊢
      obtain ⟨a, ha, heq⟩ := hmem
      exact ⟨a, (List.mem_filter.mp (List.mem_reverse.mp ha)).1, heq⟩
    exact hnodup.2.2 t ht t hsub rfl
  have hsplit : (fun t => decide
      (t ∉ failed ++ ticketsOf frames (q.filter fun a => !keep a).reverse)) = fun t =>
        decide (t ∉ ticketsOf frames (q.filter fun a => !keep a).reverse) &&
          decide (t ∉ failed) := by
    funext t
    simp [Bool.and_comm]
  rw [hsplit, ← List.filter_filter, ← hhistory, List.filter_append, hturns,
    filter_ticketsOf hframes hnodup.2.1]

/-- The frames after the leader has begun a write stall. -/
def stallFrames (frames : Memory Frame) (l : ℕ) (f : Frame) (q : List ℕ) : Memory Frame :=
  failFrames (Function.update frames l (some { f with pc := .writeStall })) q

theorem stallFrames_leader (hl : l ∈ q) (hslow : f.request.noSlowdown = false) :
    stallFrames frames l f q l = some { f with pc := .writeStall } := by
  rw [stallFrames, failFrames, if_pos hl, Function.update_self, Option.map_some, Frame.fail, hslow]
  rfl

theorem stallFrames_of_notMem {b : ℕ} (hl : l ∈ q) (hb : b ∉ q) :
    stallFrames frames l f q b = frames b := by
  rw [stallFrames, failFrames, if_neg hb, Function.update_of_ne (ne_of_mem_of_not_mem hl hb).symm]

theorem stallFrames_waits {b : ℕ} (hb : b ∈ q) (hne : b ≠ l) (hwaits : waitsOut frames b = true) :
    stallFrames frames l f q b = frames b := by
  rw [stallFrames, failFrames, if_pos hb, Function.update_of_ne hne]
  cases hf : frames b with
  | none => rfl
  | some f => simp_all [waitsOut, Frame.fail]

theorem stallFrames_fails {b : ℕ} {f' : Frame} (hb : b ∈ q) (hne : b ≠ l) (hf : frames b = some f')
    (hwaits : waitsOut frames b = false) :
    stallFrames frames l f q b = some { f' with state := .completed } := by
  rw [stallFrames, failFrames, if_pos hb, Function.update_of_ne hne, hf]
  simp_all [waitsOut, Frame.fail]

/-- What the loop of `BeginWriteStall` does in a queue of the right form. -/
theorem Inv.beginWriteStall_eq (h : Inv g s) (hg : g.front = [l]) (hs : g.stalled = false)
    (hf : s.frames l = some f) (hgroup : f.writeGroup = none) :
    ∃ links, s.beginWriteStall l f = some { s with
        frames := stallFrames s.frames l f g.queue
        links := links
        newestWriter := some dummy
        failed := s.failed ++
          ticketsOf s.frames (g.queue.filter fun a => !waitsOut s.frames a).reverse } ∧
      Linked (Older links) none (g.queue.filter (waitsOut s.frames)) none ∧
      Older links dummy (g.queue.filter (waitsOut s.frames)).getLast? none ∧
      (∀ a, (links a).map LazyQueue.Links.newer = (s.links a).map LazyQueue.Links.newer) ∧
      ∀ a, a ∉ g.queue → a ≠ dummy → links a = s.links a := by
  have hdummy := h.dummy_notMem
  obtain ⟨d, hd⟩ := Option.isSome_iff_exists.mp h.reserved.2
  have hnewest : s.newestWriter = lastOf none g.queue := by
    rw [h.newest, hs, lastOf_none]
    rfl
  set stalling := Function.update s.frames l (some { f with pc := .writeStall }) with hstalling
  set t : State := { s with
    frames := stalling
    links := Function.update s.links dummy (some { d with older := s.newestWriter })
    newestWriter := some dummy } with ht
  have hlinks : ∀ b, b ≠ dummy → t.links b = s.links b := fun b hb => Function.update_of_ne hb ..
  have hwaits : waitsOut stalling = waitsOut s.frames := by
    funext b
    unfold waitsOut
    rcases eq_or_ne b l with rfl | hne
    · rw [hstalling, Function.update_self, hf]
      rfl
    · rw [hstalling, Function.update_of_ne hne]
  have htickets : ∀ q, ticketsOf stalling q = ticketsOf s.frames q := fun q =>
    List.filterMap_congr fun b _ => by
      rcases eq_or_ne b l with rfl | hne
      · rw [hstalling, Function.update_self, hf]
        rfl
      · rw [hstalling, Function.update_of_ne hne]
  have htolders : Linked (Older t.links) none g.queue none :=
    h.split ▸ h.queued.olders.congr fun b hb p n hnode => by
      obtain ⟨m, hm⟩ := hnode
      exact ⟨m, (hlinks b (ne_of_mem_of_not_mem (h.split ▸ hb) hdummy)).trans hm⟩
  have htdummy : t.links dummy = some ⟨lastOf none g.queue, d.newer⟩ := by
    rw [← hnewest]
    simp [ht]
  have htframes : ∀ b ∈ g.queue, ∃ f, t.frames b = some f ∧ f.writeGroup = none := by
    intro b hb
    rcases eq_or_ne b l with rfl | hne
    · exact ⟨{ f with pc := .writeStall }, Function.update_self .., hgroup⟩
    · rw [Shape.queue, hg, List.cons_append, List.mem_cons] at hb
      obtain ⟨f', hf', hwaiting⟩ := h.rest b (hb.resolve_left hne)
      exact ⟨f', (Function.update_of_ne hne ..).trans hf', hwaiting.2.2⟩
  obtain ⟨links, heq, holders, hstall, hnewer, hother⟩ := failPending_eq t dummy
    (Nat.lt_succ_of_le h.bound) (h.split ▸ h.queued.nodup) hdummy htolders ⟨d.newer, htdummy⟩
    htframes
  have htwaits : waitsOut t.frames = waitsOut s.frames := hwaits
  rw [htwaits] at heq holders hstall
  rw [lastOf_none] at hstall
  refine ⟨links, ?_, holders, hstall, fun b => ?_,
    fun b hb hne => (hother b hb hne).trans (hlinks b hne)⟩
  · rw [show ticketsOf t.frames = ticketsOf s.frames from funext htickets, ← hnewest] at heq
    rw [State.beginWriteStall, hd]
    exact heq
  · rw [hnewer b]
    rcases eq_or_ne b dummy with rfl | hne
    · rw [htdummy, hd]
      rfl
    · rw [hlinks b hne]

theorem Inv.beginWriteStall (h : Inv g s) (hg : g.front = [l]) (hs : g.stalled = false)
    (hf : s.frames l = some f) (hgroup : f.writeGroup = none)
    (hbatch : f.request.batch.isSome = true) (hslow : f.request.noSlowdown = false)
    (hsafe : Unreached s.frames s.links g.queue) : Keeps (s.beginWriteStall l f) := by
  obtain ⟨links, heq, holders, hstall, hnewer, hlinks⟩ := h.beginWriteStall_eq hg hs hf hgroup
  have hwaits : waitsOut s.frames l = true := by simp [waitsOut, hf, hslow]
  obtain ⟨hxs, hfirst⟩ := h.reached_waits hg hwaits hsafe
  have hqueue : g.queue = l :: g.rest := by rw [Shape.queue, hg]; rfl
  have hl : l ∈ g.queue := hqueue ▸ List.mem_cons_self
  have houtside : ∀ b, b ∉ g.queue → stallFrames s.frames l f g.queue b = s.frames b :=
    fun b hb => stallFrames_of_notMem hl hb
  -- a writer that is taken out is done
  have hfailed : ∀ b ∈ g.queue, b ∉ g.queue.filter (waitsOut s.frames) →
      Holds (stallFrames s.frames l f g.queue) b Frame.Done := by
    intro b hb hnot
    rw [List.mem_filter, not_and, Bool.not_eq_true] at hnot
    have hne : b ≠ l := fun hbl => by
      have := hnot hb
      rw [hbl, hwaits] at this
      cases this
    rw [hqueue] at hb
    obtain ⟨f', hf', hwaiting⟩ := h.rest b ((List.mem_cons.mp hb).resolve_left hne)
    rw [← hqueue] at hb
    exact ⟨_, stallFrames_fails hb hne hf' (hnot hb), Or.inr ⟨Or.inl hwaiting.1, rfl⟩⟩
  have hfilter : g.queue.filter (waitsOut s.frames) = l :: g.rest.filter (waitsOut s.frames) := by
    rw [hqueue, List.filter_cons_of_pos hwaits]
  have hsplit : g.xs ++ g.ys.filter (waitsOut s.frames) = g.queue.filter (waitsOut s.frames) := by
    rw [← h.split, List.filter_append, hxs]
  obtain ⟨g', hg'⟩ : ∃ g' : Shape, g' = { g with
    ys := g.ys.filter (waitsOut s.frames)
    rest := g.rest.filter (waitsOut s.frames)
    stalled := true } := ⟨_, rfl⟩
  have hqueue' : g'.queue = g.queue.filter (waitsOut s.frames) := by
    rw [hfilter, hg', Shape.queue, hg]
    rfl
  have hbusy : ∀ e b, g'.Busy e b ↔ g.Busy e b := fun e b => by rw [hg']; rfl
  -- nobody in the queue is in a group, so that their tickets are pending
  have hungrouped : ∀ b ∈ g.queue, Holds s.frames b fun f => f.writeGroup = none := by
    intro b hb
    rw [hqueue] at hb
    rcases List.mem_cons.mp hb with rfl | hb
    · exact ⟨f, hf, hgroup⟩
    · exact (h.rest b hb).imp fun f hf => ⟨hf.1, hf.2.2.2⟩
  have hpending : pendingOf s.frames g.queue = ticketsOf s.frames g.queue :=
    pendingOf_ungrouped hungrouped
  have hturn : ∀ b ∈ g.queue.filter (waitsOut s.frames),
      (stallFrames s.frames l f g.queue b).map Frame.turn = (s.frames b).map Frame.turn := by
    intro b hb
    obtain ⟨hb, hkeep⟩ := List.mem_filter.mp hb
    rcases eq_or_ne b l with rfl | hne
    · rw [stallFrames_leader hb hslow, hf]
      rfl
    · rw [stallFrames_waits hb hne hkeep]
  have hpending' : pendingOf (stallFrames s.frames l f g.queue)
      (g.queue.filter (waitsOut s.frames)) =
        ticketsOf s.frames (g.queue.filter (waitsOut s.frames)) := by
    rw [← pendingOf_ungrouped fun b hb => hungrouped b (List.mem_filter.mp hb).1]
    exact pendingOf_congr_turn hturn
  refine ⟨_, g', heq, ?_⟩
  constructor
  case queued =>
    rw [hg']
    exact h.queued.thin List.filter_sublist hfirst (hsplit ▸ holders) fun b _ => hnewer b
  case split => rw [hqueue', hg']; exact hsplit
  case front =>
    rw [hg', hg]
    exact .single (stallFrames_leader hl hslow) hgroup (.stalled rfl hbatch)
  case filled => rw [hg']; exact h.filled
  case empty =>
    intro hnil
    rw [hg', hg] at hnil
    cases hnil
  case rest =>
    intro b hb
    rw [hg'] at hb
    obtain ⟨hb, hkeep⟩ := List.mem_filter.mp hb
    have hb' : b ∈ g.queue := List.mem_append_right _ hb
    have hne : b ≠ l := (ne_of_mem_of_not_mem (hg ▸ List.mem_cons_self) (h.notMem_front hb)).symm
    exact (h.rest b hb).congr (stallFrames_waits hb' hne hkeep)
  case leaving =>
    intro e he
    have hchain : g'.chain = g.chain := by rw [hg']
    rw [hchain] at he ⊢
    have hapart : ∀ b, b = e ∨ b ∈ g.chain e → b ∉ g.queue := fun b hb => h.apart e b ⟨he, hb⟩
    refine (h.leaving e he).congr (fun b hb => houtside b (hapart b hb)) fun b hb => ?_
    obtain ⟨f', hf'⟩ := h.exists_frame_of_busy ⟨he, Or.inr hb⟩
    exact hlinks b (hapart b (Or.inr hb)) (h.ne_dummy hf')
  case apart =>
    intro e b hb hb'
    rw [hqueue'] at hb'
    exact h.apart e b ((hbusy e b).mp hb) (List.mem_filter.mp hb').1
  case alone => exact fun e e' b hb hb' => h.alone e e' b ((hbusy e b).mp hb) ((hbusy e' b).mp hb')
  case outside =>
    intro b f' hf' hq hb
    rw [hqueue'] at hq
    by_cases hb' : b ∈ g.queue
    · obtain ⟨f₀, hf₀, hdone⟩ := hfailed b hb' hq
      obtain rfl : f' = f₀ := Option.some.inj (hf'.symm.trans hf₀)
      exact Or.inl hdone
    · dsimp only at hf' ⊢
      rw [houtside b hb'] at hf'
      rw [hlinks b hb' (h.ne_dummy hf')]
      exact h.outside b f' hf' hb' fun e he => hb e ((hbusy e b).mpr he)
  case newest => rw [hg']; rfl
  case stall =>
    intro _
    rw [hqueue']
    exact hstall
  case allocated =>
    intro b hne hq
    rw [hqueue'] at hq
    dsimp only
    by_cases hb : b ∈ g.queue
    · obtain ⟨l₀, hl₀⟩ := h.queued.exists_links (h.split ▸ hb)
      have hsome := congrArg Option.isSome (hnewer b)
      rw [Option.isSome_map, Option.isSome_map, hl₀] at hsome
      obtain ⟨f₀, hf₀, -⟩ := hfailed b hb hq
      rw [hsome, hf₀]
      rfl
    · rw [houtside b hb, hlinks b hb hne]
      exact h.allocated b hne hb
  case reserved =>
    obtain ⟨n, hn⟩ := hstall
    dsimp only
    rw [houtside dummy h.dummy_notMem, hn]
    exact ⟨h.reserved.1, rfl⟩
  case bound =>
    rw [hqueue']
    exact (List.length_filter_le _ _).trans h.bound
  case failed =>
    intro ticket hticket
    rcases List.mem_append.mp hticket with hticket | hticket
    · exact h.failed ticket hticket
    · rw [ticketsOf, List.mem_filterMap] at hticket
      obtain ⟨b, hb, hb'⟩ := hticket
      obtain ⟨hb, hfails⟩ := List.mem_filter.mp (List.mem_reverse.mp hb)
      obtain ⟨f₀, hf₀, hrequest⟩ := h.requests b hb
      rw [hf₀, Option.map_some, Option.some.injEq] at hb'
      subst hb'
      exact ⟨f₀.request, hrequest, by simpa [waitsOut, hf₀] using hfails⟩
  case history =>
    have hhistory := h.history
    rw [hpending] at hhistory
    rw [hqueue', hpending']
    exact history_fail (fun b hb => h.exists_frame hb) hhistory
  case requests =>
    intro b hb
    rw [hqueue'] at hb
    exact (h.requests b (List.mem_filter.mp hb).1).congr_turn (hturn b hb)
  case fits => exact h.fits

end PowerLawRocksdb.WriteThread
