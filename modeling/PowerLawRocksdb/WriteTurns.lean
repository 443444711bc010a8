import PowerLawRocksdb.WriteQueue

/-!
# The invariant of the writer queue

A list of writers that is long enough for all interleavings: the queue, whose first
part is the leader together with its group once it has formed one, and for every
thread that is completing a group the writers that it has not completed yet. All
other threads have not been linked, or are done.
-/
namespace PowerLawRocksdb.WriteThread
open LinkedHeap LazyQueue

variable {frames frames' : Memory Frame} {links : Memory Links} {a b l e : ℕ} {f : Frame}
  {s t : State}

def Holds (frames : Memory Frame) (a : ℕ) (P : Frame → Prop) : Prop :=
  ∃ f, frames a = some f ∧ P f

theorem Holds.congr {P : Frame → Prop} (h : Holds frames a P) (heq : frames' a = frames a) :
    Holds frames' a P := by
  unfold Holds
  rwa [heq]

/-- A frame changes in a way that keeps `P`, at this address or at another one. -/
theorem Holds.update {f' : Frame} {P : Frame → Prop} (h : Holds frames a P) (hf : frames b = some f)
    (hP : P f → P f') : Holds (Function.update frames b (some f')) a P := by
  obtain ⟨f₀, hf₀, hp⟩ := h
  rcases eq_or_ne a b with rfl | hne
  · rw [hf] at hf₀
    cases hf₀
    exact ⟨f', Function.update_self .., hP hp⟩
  · exact ⟨f₀, (Function.update_of_ne hne ..).trans hf₀, hp⟩

theorem Holds.update_of_ne {f' : Frame} {P : Frame → Prop} (h : Holds frames a P) (hne : a ≠ b) :
    Holds (Function.update frames b (some f')) a P :=
  h.congr (Function.update_of_ne hne ..)

/-- In the queue, and in no group. -/
def Frame.Waiting (f : Frame) : Prop :=
  f.pc = .awaitState ∧ f.state = .init ∧ f.writeGroup = none

/-- In a group that has not been told to insert its batches. -/
def Frame.Following (leader : ℕ) (f : Frame) : Prop :=
  f.pc = .awaitState ∧ f.state = .init ∧ f.writeGroup = some leader

/-- In a group that inserts in parallel. -/
def Frame.Launched (leader : ℕ) (f : Frame) : Prop :=
  (f.pc = .awaitState ∨ f.pc = .insertInto ∨ f.pc = .awaitCompleted) ∧
    f.state = .parallelMemtableWriter ∧ f.writeGroup = some leader

/-- Only another thread can go on. -/
def Frame.Resting (f : Frame) : Prop :=
  (f.pc = .awaitState ∧ f.state = .init) ∨
    (f.pc = .awaitCompleted ∧ f.state = .parallelMemtableWriter)

def Frame.Unlinked (f : Frame) : Prop :=
  (f.pc = .start ∨ ∃ writers, f.pc = .linkOne writers) ∧ f.state = .init ∧ f.writeGroup = none

def Frame.Done (f : Frame) : Prop :=
  f.pc = .returned ∨ (f.pc = .awaitState ∨ f.pc = .awaitCompleted) ∧ f.state = .completed

/-- The leader has a group that consists of it and `fs`. -/
def Frame.Leads (l : ℕ) (fs : List ℕ) (running : ℕ) (f : Frame) : Prop :=
  ∃ last, (l :: fs).getLast? = some last ∧ f.group = some ⟨l, last, fs.length + 1, running⟩

def unfinished (frames : Memory Frame) (a : ℕ) : Bool :=
  ((frames a).map fun f => decide (f.pc ≠ .awaitCompleted)).getD false

/-- A leader that has no group yet. The flag tells whether it stalls the writes. -/
inductive Frame.Alone (ys : List ℕ) (f : Frame) : Bool → Prop where
  | elected (hpc : f.pc = .awaitState) (hstate : f.state = .groupLeader) : Alone ys f false
  | leading (hpc : f.pc = .leader) (hbatch : f.request.batch.isSome = true) : Alone ys f false
  | unbatched (hpc : f.pc = .unbatched) (hbatch : f.request.batch = none) : Alone ys f false
  | stalled (hpc : f.pc = .writeStall) (hbatch : f.request.batch.isSome = true) : Alone ys f true
  | entering {newest : ℕ} (hpc : f.pc = .enterAsBatchGroupLeader newest)
      (hbatch : f.request.batch.isSome = true) (hnewest : newest ∈ ys) : Alone ys f false

/-- The leader of a parallel group, which has told the writers of `todo` nothing yet. -/
structure Frame.Launches (done todo : List ℕ) (f : Frame) : Prop where
  pc : f.pc = .launch todo.head? ∨ todo = [] ∧ (f.pc = .insertInto ∨ f.pc = .awaitCompleted)
  state : done ≠ [] → f.state = .parallelMemtableWriter

/-- The leader writes the log, and then either inserts all batches or launches the others. -/
structure Writing (frames : Memory Frame) (l : ℕ) (fs : List ℕ) (running : ℕ) (f : Frame) :
    Prop where
  frame : frames l = some f
  pc : f.pc = .write
  leads : f.Leads l fs running
  group : f.writeGroup = some l
  follow : ∀ a ∈ fs, Holds frames a (Frame.Following l)

/-- A group inserts in parallel. The members that count are those that have not finished. -/
structure Parallel (frames : Memory Frame) (l : ℕ) (fs done todo : List ℕ) (running : ℕ)
    (f : Frame) : Prop where
  frame : frames l = some f
  leads : f.Leads l fs running
  group : f.writeGroup = some l
  split : l :: fs = done ++ todo
  launches : f.Launches done todo
  launched : ∀ a ∈ done, a ≠ l → Holds frames a (Frame.Launched l)
  follow : ∀ a ∈ todo, a ≠ l → Holds frames a (Frame.Following l)
  count : running = (l :: fs).countP (unfinished frames)
  pos : 0 < running

/-- The thread `e` acts for a group, and is where `P` tells. All others rest. -/
structure Exits (frames : Memory Frame) (l : ℕ) (fs : List ℕ) (e : ℕ) (P : Frame → Prop) :
    Prop where
  leads : ∃ running, Holds frames l (Frame.Leads l fs running)
  grouped : ∀ a ∈ l :: fs, Holds frames a fun f => f.writeGroup = some l
  mem : e ∈ l :: fs
  executor : Holds frames e P
  others : ∀ a ∈ l :: fs, a ≠ e → Holds frames a Frame.Resting

/-- Where the leader and its group are. -/
inductive Front (frames : Memory Frame) (ys rest : List ℕ) : Bool → List ℕ → Prop where
  | empty : Front frames ys rest false []
  | single {l : ℕ} {f : Frame} {stalled : Bool} (hf : frames l = some f)
      (hgroup : f.writeGroup = none) (halone : f.Alone ys stalled) :
      Front frames ys rest stalled [l]
  | writing {l running : ℕ} {fs : List ℕ} {f : Frame} (h : Writing frames l fs running f) :
      Front frames ys rest false (l :: fs)
  | parallel {l running : ℕ} {fs done todo : List ℕ} {f : Frame}
      (h : Parallel frames l fs done todo running f) : Front frames ys rest false (l :: fs)
  | last {l e : ℕ} {fs : List ℕ} (h : Exits frames l fs e fun f => f.pc = .lastWorker l) :
      Front frames ys rest false (l :: fs)
  | exiting {l e head : ℕ} {fs : List ℕ}
      (h : Exits frames l fs e fun f => f.pc = .exitAsBatchGroupLeader l head)
      (hhead : head ∈ ys) (hplace : (l :: fs).getLast? = some head ∨ head ∈ rest) :
      Front frames ys rest false (l :: fs)

/-- The thread `e` completes the writers of the list `c`, from the newest to the leader. -/
structure Leaves (frames : Memory Frame) (links : Memory Links) (e : ℕ) (c : List ℕ) : Prop where
  nodup : c.Nodup
  olders : Linked (Older links) none c none
  executor : ∃ f leader last, frames e = some f ∧ c.head? = some leader ∧ c.getLast? = some last ∧
    f.pc = .complete leader last ∧ (e ∉ c → f.state = .completed)
  members : ∀ a ∈ c, a ≠ e → Holds frames a Frame.Resting

/-- The queue is `xs ++ ys`, and also `front ++ rest`. -/
structure Shape where
  xs : List ℕ
  ys : List ℕ
  front : List ℕ
  rest : List ℕ
  stalled : Bool
  chain : ℕ → List ℕ

def Shape.queue (g : Shape) : List ℕ := g.front ++ g.rest

/-- The thread `e` is completing a group, and `a` is `e` or waits for it. -/
def Shape.Busy (g : Shape) (e a : ℕ) : Prop := g.chain e ≠ [] ∧ (a = e ∨ a ∈ g.chain e)

def ungrouped (frames : Memory Frame) (a : ℕ) : Bool :=
  ((frames a).map fun f => decide (f.writeGroup = none)).getD false

/-- The tickets of the writers of a list that are in no group. -/
def pendingOf (frames : Memory Frame) (l : List ℕ) : List ℕ :=
  ticketsOf frames (l.filter (ungrouped frames))

/-- The tickets of a turn: of one writer without a batch, or of a leader and the writers that
it takes into its group. -/
def Turn (joined : List Request) (turn : List ℕ) : Prop :=
  ∃ leader rest, (turn.map fun ticket => joined[ticket]?) = (leader :: rest).map some ∧
    (leader.batch = none ∧ rest = [] ∨ ∃ batch, leader.batch = some batch ∧
      Fits leader (maxGroupSize batch.length) batch.length rest)

/-- The ticket of a writer stands for its request. -/
def Frame.Ticketed (joined : List Request) (f : Frame) : Prop :=
  joined[f.ticket]? = some f.request

structure Inv (g : Shape) (s : State) : Prop where
  queued : Queued s.links g.xs g.ys
  split : g.xs ++ g.ys = g.queue
  front : Front s.frames g.ys g.rest g.stalled g.front
  filled : g.front.length ≤ g.xs.length + 1
  empty : g.front = [] → g.rest = []
  rest : ∀ a ∈ g.rest, Holds s.frames a Frame.Waiting
  leaving : ∀ e, g.chain e ≠ [] → Leaves s.frames s.links e (g.chain e)
  apart : ∀ e a, g.Busy e a → a ∉ g.queue
  alone : ∀ e e' a, g.Busy e a → g.Busy e' a → e = e'
  outside : ∀ a f, s.frames a = some f → a ∉ g.queue → (∀ e, ¬ g.Busy e a) →
    f.Done ∨ f.Unlinked ∧ ∃ p, s.links a = some ⟨p, none⟩
  newest : s.newestWriter = if g.stalled then some dummy else g.queue.getLast?
  stall : g.stalled = true → Older s.links dummy g.queue.getLast? none
  allocated : ∀ a, a ≠ dummy → a ∉ g.queue → (s.links a).isSome = (s.frames a).isSome
  reserved : s.frames dummy = none ∧ (s.links dummy).isSome = true
  bound : g.queue.length ≤ s.joined.length
  failed : ∀ ticket ∈ s.failed, ∃ r, s.joined[ticket]? = some r ∧ r.noSlowdown = true
  history : s.turns.flatten ++ pendingOf s.frames g.queue =
    (List.range s.joined.length).filter fun ticket => decide (ticket ∉ s.failed)
  requests : ∀ a ∈ g.queue, Holds s.frames a (Frame.Ticketed s.joined)
  fits : ∀ turn ∈ s.turns, Turn s.joined turn

theorem Frame.Ticketed.append {joined : List Request} (h : f.Ticketed joined) (request : Request) :
    f.Ticketed (joined ++ [request]) := by
  rw [Frame.Ticketed, List.getElem?_append_left (List.getElem?_eq_some_iff.mp h).1, h]

theorem Turn.append {joined : List Request} {turn : List ℕ} (h : Turn joined turn)
    (request : Request) : Turn (joined ++ [request]) turn := by
  obtain ⟨leader, rest, heq, hfits⟩ := h
  refine ⟨leader, rest, ?_, hfits⟩
  rw [← heq]
  refine List.map_congr_left fun ticket hticket => ?_
  have hmem : joined[ticket]? ∈ (leader :: rest).map some :=
    heq ▸ List.mem_map_of_mem (f := fun ticket => joined[ticket]?) hticket
  obtain ⟨r, -, hr⟩ := List.mem_map.mp hmem
  rw [← hr, List.getElem?_append_left (List.getElem?_eq_some_iff.mp hr.symm).1, hr]

theorem Frame.Alone.mono {ys ys' : List ℕ} {stalled : Bool} (h : f.Alone ys stalled)
    (hys : ∀ n ∈ ys, n ∈ ys') : f.Alone ys' stalled := by
  cases h with
  | elected hpc hstate => exact .elected hpc hstate
  | leading hpc hbatch => exact .leading hpc hbatch
  | unbatched hpc hbatch => exact .unbatched hpc hbatch
  | stalled hpc hbatch => exact .stalled hpc hbatch
  | entering hpc hbatch hnewest => exact .entering hpc hbatch (hys _ hnewest)

theorem Exits.congr {fs : List ℕ} {P : Frame → Prop} (h : Exits frames l fs e P)
    (heq : ∀ a ∈ l :: fs, frames' a = frames a) : Exits frames' l fs e P where
  leads := h.leads.imp fun _ hl => hl.congr (heq l List.mem_cons_self)
  grouped a ha := (h.grouped a ha).congr (heq a ha)
  mem := h.mem
  executor := h.executor.congr (heq e h.mem)
  others a ha hne := (h.others a ha hne).congr (heq a ha)

theorem Writing.congr {fs : List ℕ} {running : ℕ} (h : Writing frames l fs running f)
    (heq : ∀ a ∈ l :: fs, frames' a = frames a) : Writing frames' l fs running f where
  frame := (heq l List.mem_cons_self).trans h.frame
  pc := h.pc
  leads := h.leads
  group := h.group
  follow a ha := (h.follow a ha).congr (heq a (List.mem_cons_of_mem l ha))

theorem Parallel.congr {fs done todo : List ℕ} {running : ℕ}
    (h : Parallel frames l fs done todo running f) (heq : ∀ a ∈ l :: fs, frames' a = frames a) :
    Parallel frames' l fs done todo running f where
  frame := (heq l List.mem_cons_self).trans h.frame
  leads := h.leads
  group := h.group
  split := h.split
  launches := h.launches
  launched a ha hne := (h.launched a ha hne).congr (heq a (h.split ▸ List.mem_append_left todo ha))
  follow a ha hne := (h.follow a ha hne).congr (heq a (h.split ▸ List.mem_append_right done ha))
  count := by
    rw [h.count]
    refine List.countP_congr fun a ha => ?_
    unfold unfinished
    rw [heq a ha]
  pos := h.pos

/-- The front does not depend on other frames, and more writers may be behind it. -/
theorem Front.congr {ys ys' rest rest' front : List ℕ} {stalled : Bool}
    (h : Front frames ys rest stalled front) (heq : ∀ a ∈ front, frames' a = frames a)
    (hys : ∀ n ∈ ys, n ∈ ys') (hrest : ∀ n ∈ rest, n ∈ rest') :
    Front frames' ys' rest' stalled front := by
  cases h with
  | empty => exact .empty
  | single hf hgroup halone =>
      exact .single ((heq _ List.mem_cons_self).trans hf) hgroup (halone.mono hys)
  | writing h => exact .writing (h.congr heq)
  | parallel h => exact .parallel (h.congr heq)
  | last h => exact .last (h.congr heq)
  | exiting h hhead hplace => exact .exiting (h.congr heq) (hys _ hhead) (hplace.imp id (hrest _))

theorem Front.isSome_of_mem {ys rest front : List ℕ} {stalled : Bool}
    (h : Front frames ys rest stalled front) (ha : a ∈ front) : ∃ f, frames a = some f := by
  cases h with
  | empty => cases ha
  | single hf hgroup halone =>
      rw [List.mem_singleton] at ha
      exact ⟨_, ha ▸ hf⟩
  | writing h =>
      rcases List.mem_cons.mp ha with rfl | ha
      · exact ⟨_, h.frame⟩
      · obtain ⟨f, hf, -⟩ := h.follow a ha
        exact ⟨f, hf⟩
  | @parallel l _ _ _ _ _ h =>
      by_cases hne : a = l
      · exact ⟨_, hne ▸ h.frame⟩
      · rw [h.split] at ha
        rcases List.mem_append.mp ha with ha | ha
        · obtain ⟨f, hf, -⟩ := h.launched a ha hne
          exact ⟨f, hf⟩
        · obtain ⟨f, hf, -⟩ := h.follow a ha hne
          exact ⟨f, hf⟩
  | last h | exiting h hhead hplace =>
      obtain ⟨f, hf, -⟩ := h.grouped a ha
      exact ⟨f, hf⟩

theorem Leaves.congr {links' : Memory Links} {c : List ℕ} (h : Leaves frames links e c)
    (heq : ∀ a, a = e ∨ a ∈ c → frames' a = frames a) (hlinks : ∀ a ∈ c, links' a = links a) :
    Leaves frames' links' e c where
  nodup := h.nodup
  olders := h.olders.congr fun a ha _ _ hnode =>
    hnode.imp fun _ hn => (hlinks a ha).trans hn
  executor := by
    rw [heq e (Or.inl rfl)]
    exact h.executor
  members a ha hne := (h.members a ha hne).congr (heq a (Or.inr ha))

/-- What decides about the turn of a writer. -/
def Frame.turn (f : Frame) : ℕ × Option ℕ × Request := (f.ticket, f.writeGroup, f.request)

theorem turn_update (f' : Frame) (hf : frames a = some f) (hturn : f'.turn = f.turn) (b : ℕ) :
    (Function.update frames a (some f') b).map Frame.turn = (frames b).map Frame.turn := by
  rcases eq_or_ne b a with rfl | hne
  · rw [Function.update_self, hf, Option.map_some, Option.map_some, hturn]
  · rw [Function.update_of_ne hne]

theorem pendingOf_congr_turn {q : List ℕ}
    (heq : ∀ a ∈ q, (frames' a).map Frame.turn = (frames a).map Frame.turn) :
    pendingOf frames' q = pendingOf frames q := by
  have hungrouped : ∀ (frames : Memory Frame) a, ungrouped frames a =
      (((frames a).map Frame.turn).map fun turn => decide (turn.2.1 = none)).getD false := by
    intro frames a
    rw [Option.map_map]
    rfl
  have htickets : ∀ (frames : Memory Frame) (q : List ℕ), ticketsOf frames q =
      q.filterMap fun a => ((frames a).map Frame.turn).map Prod.fst := by
    intro frames q
    exact List.filterMap_congr fun a _ => by rw [Option.map_map]; rfl
  have hfilter : q.filter (ungrouped frames') = q.filter (ungrouped frames) :=
    List.filter_congr fun a ha => by rw [hungrouped, hungrouped, heq a ha]
  rw [pendingOf, pendingOf, hfilter, htickets, htickets]
  exact List.filterMap_congr fun a ha => by rw [heq a (List.mem_filter.mp ha).1]

theorem Holds.congr_turn {joined : List Request} (h : Holds frames a (Frame.Ticketed joined))
    (heq : (frames' a).map Frame.turn = (frames a).map Frame.turn) :
    Holds frames' a (Frame.Ticketed joined) := by
  obtain ⟨f, hf, hrequest⟩ := h
  rw [hf, Option.map_some, Option.map_eq_some_iff] at heq
  obtain ⟨f', hf', hturn⟩ := heq
  refine ⟨f', hf', ?_⟩
  rw [Frame.Ticketed, show f'.ticket = f.ticket from congrArg Prod.fst hturn,
    show f'.request = f.request from congrArg (fun turn => turn.2.2) hturn]
  exact hrequest

theorem pendingOf_congr {q : List ℕ} (heq : ∀ a ∈ q, frames' a = frames a) :
    pendingOf frames' q = pendingOf frames q :=
  pendingOf_congr_turn fun a ha => by rw [heq a ha]

variable {g : Shape}

theorem Inv.exists_frame (h : Inv g s) (ha : a ∈ g.queue) : ∃ f, s.frames a = some f := by
  rcases List.mem_append.mp ha with ha | ha
  · exact h.front.isSome_of_mem ha
  · obtain ⟨f, hf, -⟩ := h.rest a ha
    exact ⟨f, hf⟩

theorem Inv.exists_frame_of_busy (h : Inv g s) (ha : g.Busy e a) : ∃ f, s.frames a = some f := by
  obtain ⟨hne, ha⟩ := ha
  have hleaves := h.leaving e hne
  obtain ⟨f, _, _, hf, -⟩ := hleaves.executor
  by_cases hae : a = e
  · exact ⟨f, hae ▸ hf⟩
  · obtain ⟨f, hf, -⟩ := hleaves.members a (ha.resolve_left hae) hae
    exact ⟨f, hf⟩

/-- Nothing is known to wait for a writer outside of the queue, so it may change. -/
theorem Inv.elsewhere {frames : Memory Frame} {links : Memory Links} (h : Inv g s)
    (hqueue : a ∉ g.queue) (hbusy : ∀ e, ¬ g.Busy e a) (hdummy : a ≠ dummy)
    (hframes : ∀ b, b ≠ a → frames b = s.frames b) (hlinks : ∀ b, b ≠ a → links b = s.links b)
    (halloc : (links a).isSome = (frames a).isSome)
    (hout : ∀ f, frames a = some f → f.Done ∨ f.Unlinked ∧ ∃ p, links a = some ⟨p, none⟩) :
    Inv g { s with frames := frames, links := links } := by
  have hmem : ∀ b ∈ g.queue, b ≠ a := fun b hb => ne_of_mem_of_not_mem hb hqueue
  have hchain : ∀ e, ∀ b, g.Busy e b → b ≠ a := fun e b hb hba => hbusy e (hba ▸ hb)
  constructor
  case queued => exact h.queued.congr fun b hb => hlinks b (hmem b (h.split ▸ hb))
  case split => exact h.split
  case front =>
    exact h.front.congr (fun b hb => hframes b (hmem b (List.mem_append_left _ hb)))
      (fun _ hn => hn) fun _ hn => hn
  case filled => exact h.filled
  case empty => exact h.empty
  case rest =>
    exact fun b hb => (h.rest b hb).congr (hframes b (hmem b (List.mem_append_right _ hb)))
  case leaving =>
    intro e he
    exact (h.leaving e he).congr (fun b hb => hframes b (hchain e b ⟨he, hb⟩))
      fun b hb => hlinks b (hchain e b ⟨he, Or.inr hb⟩)
  case apart => exact h.apart
  case alone => exact h.alone
  case outside =>
    intro b f hf hq hb
    rcases eq_or_ne b a with rfl | hne
    · exact hout f hf
    · dsimp only at hf ⊢
      rw [hframes b hne] at hf
      rw [hlinks b hne]
      exact h.outside b f hf hq hb
  case newest => exact h.newest
  case stall =>
    intro hstalled
    obtain ⟨n, hn⟩ := h.stall hstalled
    exact ⟨n, (hlinks dummy hdummy.symm).trans hn⟩
  case allocated =>
    intro b hb hq
    rcases eq_or_ne b a with rfl | hne
    · exact halloc
    · dsimp only
      rw [hframes b hne, hlinks b hne]
      exact h.allocated b hb hq
  case reserved =>
    dsimp only
    rw [hframes dummy hdummy.symm, hlinks dummy hdummy.symm]
    exact h.reserved
  case bound => exact h.bound
  case failed => exact h.failed
  case history =>
    rw [pendingOf_congr fun b hb => hframes b (hmem b hb)]
    exact h.history
  case requests => exact fun b hb => (h.requests b hb).congr (hframes b (hmem b hb))
  case fits => exact h.fits

/-- The step is defined, and the invariant holds after it. -/
def Keeps (r : Option State) : Prop := ∃ t g, r = some t ∧ Inv g t

theorem Inv.call (h : Inv g s) (hdummy : a ≠ dummy) (hfree : s.frames a = none)
    (request : Request) : Inv g (s.call a request) := by
  have hnone : ∀ {P : Prop}, (∃ f, s.frames a = some f) → P := by
    rintro P ⟨f, hf⟩
    rw [hfree] at hf
    cases hf
  refine h.elsewhere (fun ha => hnone (h.exists_frame ha))
    (fun e he => hnone (h.exists_frame_of_busy he)) hdummy
    (fun b hb => Function.update_of_ne hb ..) (fun b hb => Function.update_of_ne hb ..) ?_ ?_
  · simp [State.setFrame]
  · intro f hf
    simp only [State.setFrame, Function.update_self, Option.some.injEq] at hf
    subst hf
    exact Or.inr ⟨⟨Or.inl rfl, rfl, rfl⟩, none, Function.update_self ..⟩

theorem Inv.ne_dummy (h : Inv g s) (hf : s.frames a = some f) : a ≠ dummy := by
  rintro rfl
  rw [h.reserved.1] at hf
  cases hf

theorem Inv.dummy_notMem (h : Inv g s) : dummy ∉ g.queue := fun hmem => by
  obtain ⟨f, hf⟩ := h.exists_frame hmem
  exact h.ne_dummy hf rfl

theorem Inv.isSome_links (h : Inv g s) (hf : s.frames a = some f) : ∃ l, s.links a = some l := by
  by_cases ha : a ∈ g.queue
  · exact h.queued.exists_links (h.split ▸ ha)
  · have halloc := h.allocated a (h.ne_dummy hf) ha
    rw [hf, Option.isSome_some, Option.isSome_iff_exists] at halloc
    exact halloc

theorem Inv.setFrame_outside {f' : Frame} (h : Inv g s) (hf : s.frames a = some f)
    (hqueue : a ∉ g.queue) (hbusy : ∀ e, ¬ g.Busy e a)
    (hout : f'.Done ∨ f'.Unlinked ∧ ∃ p, s.links a = some ⟨p, none⟩) :
    Inv g (s.setFrame a f') := by
  obtain ⟨l, hl⟩ := h.isSome_links hf
  refine h.elsewhere hqueue hbusy (h.ne_dummy hf) (fun b hb => Function.update_of_ne hb ..)
    (fun b hb => rfl) ?_ ?_
  · rw [hl, Function.update_self]
    rfl
  · intro f hf
    rw [Function.update_self, Option.some.injEq] at hf
    exact hf ▸ hout

theorem Inv.ret (h : Inv g s) (hf : s.frames a = some f) (hqueue : a ∉ g.queue)
    (hbusy : ∀ e, ¬ g.Busy e a) : Inv g (s.ret a) := by
  refine h.elsewhere hqueue hbusy (h.ne_dummy hf) (fun b hb => Function.update_of_ne hb ..)
    (fun b hb => Function.update_of_ne hb ..) ?_ ?_
  · rw [Function.update_self, Function.update_self]
    rfl
  · intro f hf
    rw [Function.update_self] at hf
    cases hf

theorem pendingOf_append (q q' : List ℕ) :
    pendingOf frames (q ++ q') = pendingOf frames q ++ pendingOf frames q' := by
  rw [pendingOf, List.filter_append, ticketsOf, List.filterMap_append]
  rfl

theorem pendingOf_singleton (hf : frames a = some f) (hgroup : f.writeGroup = none) :
    pendingOf frames [a] = [f.ticket] := by
  simp [pendingOf, ungrouped, ticketsOf, hf, hgroup]

/-- A writer is linked behind the newest one. -/
theorem Inv.join {front rest : List ℕ} {f' : Frame} (h : Inv g s) (hf : s.frames a = some f)
    (hqueue : a ∉ g.queue) (hbusy : ∀ e, ¬ g.Busy e a) (hstalled : g.stalled = false)
    (hgroup : f'.writeGroup = none) (hticket : f'.ticket = s.joined.length)
    (hsplit : front ++ rest = g.queue ++ [a]) (hnonempty : front ≠ [])
    (hfilled : front.length ≤ g.xs.length + 1)
    (hfront : Front (Function.update s.frames a (some f')) (g.ys ++ [a]) rest false front)
    (hrest : ∀ b ∈ rest, Holds (Function.update s.frames a (some f')) b Frame.Waiting) :
    Inv { g with ys := g.ys ++ [a], front := front, rest := rest }
      { s with
        frames := Function.update s.frames a (some f')
        links := Function.update s.links a (some ⟨g.queue.getLast?, none⟩)
        newestWriter := some a
        joined := s.joined ++ [f'.request] } := by
  have hdummy := h.ne_dummy hf
  have hframes : ∀ b, b ≠ a → Function.update s.frames a (some f') b = s.frames b :=
    fun b hb => Function.update_of_ne hb ..
  have hlinks : ∀ b, b ≠ a → Function.update s.links a (some ⟨g.queue.getLast?, none⟩) b =
      s.links b := fun b hb => Function.update_of_ne hb ..
  have hmem : ∀ b ∈ g.queue, b ≠ a := fun b hb => ne_of_mem_of_not_mem hb hqueue
  have hchain : ∀ e b, g.Busy e b → b ≠ a := fun e b hb hba => hbusy e (hba ▸ hb)
  have hqueue' : ({ g with ys := g.ys ++ [a], front := front, rest := rest } : Shape).queue =
      g.queue ++ [a] := hsplit
  constructor
  case queued =>
    refine h.queued.push (h.split ▸ hqueue) ?_ fun b hb => hlinks b (hmem b (h.split ▸ hb))
    rw [h.split]
    exact Function.update_self ..
  case split =>
    dsimp only
    rw [hqueue', ← List.append_assoc, h.split]
  case front => exact hstalled ▸ hfront
  case filled => exact hfilled
  case empty => exact fun hnil => absurd hnil hnonempty
  case rest => exact hrest
  case leaving =>
    intro e he
    exact (h.leaving e he).congr (fun b hb => hframes b (hchain e b ⟨he, hb⟩))
      fun b hb => hlinks b (hchain e b ⟨he, Or.inr hb⟩)
  case apart =>
    intro e b hb
    rw [hqueue', List.mem_append, List.mem_singleton, not_or]
    exact ⟨h.apart e b hb, hchain e b hb⟩
  case alone => exact h.alone
  case outside =>
    intro b f hf hq hb
    rw [hqueue', List.mem_append, List.mem_singleton, not_or] at hq
    dsimp only at hf ⊢
    rw [hframes b hq.2] at hf
    rw [hlinks b hq.2]
    exact h.outside b f hf hq.1 hb
  case newest =>
    dsimp only
    rw [hqueue', hstalled, List.getLast?_concat]
    rfl
  case stall =>
    intro hs
    rw [hstalled] at hs
    cases hs
  case allocated =>
    intro b hb hq
    rw [hqueue', List.mem_append, List.mem_singleton, not_or] at hq
    dsimp only
    rw [hframes b hq.2, hlinks b hq.2]
    exact h.allocated b hb hq.1
  case reserved =>
    dsimp only
    rw [hframes dummy hdummy.symm, hlinks dummy hdummy.symm]
    exact h.reserved
  case bound =>
    rw [hqueue', List.length_append, List.length_append]
    exact Nat.add_le_add_right h.bound 1
  case failed =>
    intro ticket hmem
    obtain ⟨r, hr, hslow⟩ := h.failed ticket hmem
    refine ⟨r, ?_, hslow⟩
    dsimp only
    rw [List.getElem?_append_left (List.getElem?_eq_some_iff.mp hr).1, hr]
  case history =>
    have hfresh : s.joined.length ∉ s.failed := fun hmem => by
      obtain ⟨r, hr, -⟩ := h.failed _ hmem
      exact (List.getElem?_eq_some_iff.mp hr).1.ne rfl
    dsimp only
    rw [hqueue', pendingOf_append, pendingOf_congr fun b hb => hframes b (hmem b hb),
      pendingOf_singleton (Function.update_self ..) hgroup, hticket, ← List.append_assoc,
      h.history, List.length_append, List.length_singleton, List.range_succ, List.filter_append]
    simp [hfresh]
  case requests =>
    intro b hb
    rw [hqueue', List.mem_append, List.mem_singleton] at hb
    rcases hb with hb | rfl
    · obtain ⟨f₀, hf₀, hrequest⟩ := h.requests b hb
      exact ⟨f₀, (hframes b (hmem b hb)).trans hf₀, hrequest.append f'.request⟩
    · refine ⟨f', Function.update_self .., ?_⟩
      dsimp only
      rw [Frame.Ticketed, hticket, List.getElem?_concat_length]
  case fits => exact fun turn hturn => (h.fits turn hturn).append f'.request

theorem linked_writeGroup (f : Frame) (ticket : ℕ) (writers : Option ℕ) :
    (f.linked ticket writers).writeGroup = f.writeGroup := by
  unfold Frame.linked
  split <;> rfl

theorem linked_ticket (f : Frame) (ticket : ℕ) (writers : Option ℕ) :
    (f.linked ticket writers).ticket = ticket := by
  unfold Frame.linked
  split <;> rfl

theorem linked_request (f : Frame) (ticket : ℕ) (writers : Option ℕ) :
    (f.linked ticket writers).request = f.request := by
  unfold Frame.linked
  split <;> rfl

theorem Inv.link {writers : Option ℕ} (h : Inv g s) (hf : s.frames a = some f)
    (hqueue : a ∉ g.queue) (hbusy : ∀ e, ¬ g.Busy e a) (hunlinked : f.Unlinked)
    (hwriters : s.newestWriter = writers) (hdummy : writers ≠ some dummy) :
    ∃ g', Inv g' ((s.setLinks a ⟨writers, none⟩).link a f writers) := by
  have hnewest := h.newest
  have hstalled : g.stalled = false := by
    by_contra hs
    rw [Bool.not_eq_false] at hs
    rw [hs, hwriters, if_pos rfl] at hnewest
    exact hdummy hnewest
  rw [hstalled, hwriters, if_neg Bool.false_ne_true] at hnewest
  subst hnewest
  rw [State.link, ← linked_request f s.joined.length g.queue.getLast?]
  have hself : ∀ f', Function.update s.frames a (some f') a = some f' := fun _ =>
    Function.update_self ..
  have hgroup : (f.linked s.joined.length g.queue.getLast?).writeGroup = none := by
    rw [linked_writeGroup]
    exact hunlinked.2.2
  by_cases hnil : g.front = []
  · -- the writer finds the queue empty and is its own leader
    have hempty : g.queue = [] := by rw [Shape.queue, hnil, h.empty hnil]; rfl
    refine ⟨_, h.join hf hqueue hbusy hstalled hgroup (linked_ticket ..)
      (by rw [hempty]; rfl : [a] ++ [] = g.queue ++ [a]) (List.cons_ne_nil a [])
      (Nat.le_add_left 1 _)
      (.single (hself _) hgroup ?_) (by simp)⟩
    rw [hempty]
    cases hbatch : f.request.batch with
    | none => exact .unbatched (by simp [Frame.linked, hbatch]) (by simp [Frame.linked, hbatch])
    | some batch => exact .leading (by simp [Frame.linked, hbatch]) (by simp [Frame.linked, hbatch])
  · obtain ⟨w, hw⟩ : ∃ w, g.queue.getLast? = some w :=
      ⟨_, List.getLast?_eq_some_getLast (List.append_ne_nil_of_left_ne_nil hnil _)⟩
    have hframes : ∀ b ∈ g.queue, Function.update s.frames a
        (some (f.linked s.joined.length g.queue.getLast?)) b = s.frames b := fun b hb =>
      Function.update_of_ne (ne_of_mem_of_not_mem hb hqueue) ..
    refine ⟨_, h.join hf hqueue hbusy hstalled hgroup (linked_ticket ..)
      (List.append_assoc ..).symm hnil h.filled ?_ ?_⟩
    · rw [← hstalled]
      exact h.front.congr (fun b hb => hframes b (List.mem_append_left _ hb))
        (fun n hn => List.mem_append_left _ hn) fun n hn => List.mem_append_left _ hn
    · intro b hb
      rcases List.mem_append.mp hb with hb | hb
      · exact (h.rest b hb).congr (hframes b (List.mem_append_right _ hb))
      · rw [List.mem_singleton.mp hb]
        refine ⟨_, hself _, ?_, ?_, hgroup⟩
        · rw [hw]
          rfl
        · rw [hw]
          exact hunlinked.2.1

theorem Inv.linkOne {p writers : Option ℕ} (h : Inv g s) (hf : s.frames a = some f)
    (hqueue : a ∉ g.queue) (hbusy : ∀ e, ¬ g.Busy e a) (hunlinked : f.Unlinked)
    (hlinks : s.links a = some ⟨p, none⟩) (spurious : Bool) :
    Keeps (s.linkOne a f writers spurious) := by
  have hretry : ({ f with pc := .linkOne s.newestWriter } : Frame).Unlinked :=
    ⟨Or.inr ⟨_, rfl⟩, hunlinked.2⟩
  rw [State.linkOne, if_neg (not_not.mpr hunlinked.2.1)]
  split_ifs with hdummy hslow
  · exact ⟨_, g, rfl, h.setFrame_outside hf hqueue hbusy (Or.inl (Or.inl rfl))⟩
  · exact ⟨_, g, rfl, h.setFrame_outside hf hqueue hbusy (Or.inr ⟨hretry, p, hlinks⟩)⟩
  · rw [hlinks, Option.map_some]
    dsimp only
    split_ifs with hcas
    · obtain ⟨g', hg'⟩ := h.link hf hqueue hbusy hunlinked hcas.1 hdummy
      exact ⟨_, g', rfl, hg'⟩
    · refine ⟨_, g, rfl, h.elsewhere hqueue hbusy (h.ne_dummy hf)
        (fun b hb => Function.update_of_ne hb ..) (fun b hb => Function.update_of_ne hb ..) ?_ ?_⟩
      · simp [State.setLinks]
      · intro f' hf'
        rw [Function.update_self, Option.some.injEq] at hf'
        exact Or.inr ⟨hf' ▸ hretry, writers, Function.update_self ..⟩

/-- Something has changed inside the queue, but the writers in it are the same. -/
theorem Inv.within {g' : Shape} (h : Inv g s) (hqueue : g'.queue = g.queue)
    (hchain : g'.chain = g.chain) (hqueued : Queued t.links g'.xs g'.ys)
    (hsplit : g'.xs ++ g'.ys = g'.queue)
    (hfront : Front t.frames g'.ys g'.rest g'.stalled g'.front)
    (hfilled : g'.front.length ≤ g'.xs.length + 1) (hempty : g'.front = [] → g'.rest = [])
    (hrest : ∀ b ∈ g'.rest, Holds t.frames b Frame.Waiting)
    (hframes : ∀ b, b ∉ g.queue → t.frames b = s.frames b)
    (hlinks : ∀ b, b ∉ g.queue → t.links b = s.links b)
    (hnewest : t.newestWriter = if g'.stalled then some dummy else g'.queue.getLast?)
    (hstall : g'.stalled = true → g.stalled = true) (hjoined : t.joined = s.joined)
    (hfailed : t.failed = s.failed)
    (hhistory : t.turns.flatten ++ pendingOf t.frames g.queue =
      s.turns.flatten ++ pendingOf s.frames g.queue)
    (hrequests : ∀ b ∈ g.queue, Holds t.frames b (Frame.Ticketed s.joined))
    (hfits : ∀ turn ∈ t.turns, Turn s.joined turn) : Inv g' t := by
  have hdummy := h.dummy_notMem
  have hbusy : ∀ e b, g'.Busy e b ↔ g.Busy e b := fun e b => by rw [Shape.Busy, Shape.Busy, hchain]
  constructor
  case queued => exact hqueued
  case split => exact hsplit
  case front => exact hfront
  case filled => exact hfilled
  case empty => exact hempty
  case rest => exact hrest
  case leaving =>
    intro e he
    have hapart : ∀ b, b = e ∨ b ∈ g.chain e → b ∉ g.queue := fun b hb =>
      h.apart e b ⟨hchain ▸ he, hb⟩
    rw [hchain] at he ⊢
    exact (h.leaving e he).congr (fun b hb => hframes b (hapart b hb))
      fun b hb => hlinks b (hapart b (Or.inr hb))
  case apart =>
    intro e b hb
    rw [hqueue]
    exact h.apart e b ((hbusy e b).mp hb)
  case alone => exact fun e e' b hb hb' => h.alone e e' b ((hbusy e b).mp hb) ((hbusy e' b).mp hb')
  case outside =>
    intro b f hf hq hb
    rw [hqueue] at hq
    rw [hframes b hq] at hf
    rw [hlinks b hq]
    exact h.outside b f hf hq fun e he => hb e ((hbusy e b).mpr he)
  case newest => exact hnewest
  case stall =>
    intro hs
    rw [hqueue]
    obtain ⟨n, hn⟩ := h.stall (hstall hs)
    exact ⟨n, (hlinks dummy hdummy).trans hn⟩
  case allocated =>
    intro b hb hq
    rw [hqueue] at hq
    rw [hframes b hq, hlinks b hq]
    exact h.allocated b hb hq
  case reserved =>
    rw [hframes dummy hdummy, hlinks dummy hdummy]
    exact h.reserved
  case bound =>
    rw [hqueue, hjoined]
    exact h.bound
  case failed =>
    rw [hfailed, hjoined]
    exact h.failed
  case history =>
    rw [hqueue, hhistory, hjoined, hfailed]
    exact h.history
  case requests =>
    rw [hqueue, hjoined]
    exact hrequests
  case fits =>
    rw [hjoined]
    exact hfits

/-- Only threads at the front have changed, and neither their tickets nor their groups. -/
theorem Inv.setFront {frames : Memory Frame} (h : Inv g s)
    (hfront : Front frames g.ys g.rest g.stalled g.front)
    (hframes : ∀ b, b ∉ g.front → frames b = s.frames b)
    (hturn : ∀ b ∈ g.front, (frames b).map Frame.turn = (s.frames b).map Frame.turn) :
    Inv g { s with frames := frames } := by
  have hrest : ∀ b ∈ g.rest, b ∉ g.front := by
    have hnodup := h.queued.nodup
    rw [h.split, Shape.queue, List.nodup_append] at hnodup
    exact fun b hb hb' => hnodup.2.2 b hb' b hb rfl
  have hturn' : ∀ b ∈ g.queue, (frames b).map Frame.turn = (s.frames b).map Frame.turn := by
    intro b _
    by_cases hb' : b ∈ g.front
    · exact hturn b hb'
    · rw [hframes b hb']
  refine h.within rfl rfl h.queued h.split hfront h.filled h.empty ?_ ?_ (fun _ _ => rfl) h.newest
    id rfl rfl ?_ (fun b hb => (h.requests b hb).congr_turn (hturn' b hb)) h.fits
  · exact fun b hb => (h.rest b hb).congr (hframes b (hrest b hb))
  · exact fun b hb => hframes b fun hmem => hb (List.mem_append_left _ hmem)
  · rw [pendingOf_congr_turn hturn']

/-- One thread at the front has gone on. -/
theorem Inv.setFrame_front {f' : Frame} (h : Inv g s) (hf : s.frames a = some f)
    (ha : a ∈ g.front) (hturn : f'.turn = f.turn)
    (hfront : Front (Function.update s.frames a (some f')) g.ys g.rest g.stalled g.front) :
    Inv g (s.setFrame a f') := by
  refine h.setFront hfront (fun b hb => ?_) fun b _ => turn_update f' hf hturn b
  exact Function.update_of_ne (ne_of_mem_of_not_mem ha hb).symm ..

end PowerLawRocksdb.WriteThread
