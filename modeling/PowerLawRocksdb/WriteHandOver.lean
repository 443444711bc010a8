import PowerLawRocksdb.WriteSteps

/-!
# Leaving the writer queue

A turn ends when the front leaves the queue: the first writer behind it is made the
leader, and one thread of the group completes the others. A write stall takes writers
out of the queue from behind.
-/
namespace PowerLawRocksdb.WriteThread
open LinkedHeap LazyQueue

variable {g g' : Shape} {s t : State} {a b l e last : ℕ} {f f' : Frame} {fs c : List ℕ}

/-- What the thread `e` does when the front leaves the queue: it is done, or it goes on to
complete the writers of the list. -/
inductive Departs (frames : Memory Frame) (front : List ℕ) (e : ℕ) (f : Frame) :
    List ℕ → Prop where
  | done (hfront : front = [e]) (hdone : f.Done) : Departs frames front e f []
  | group {leader last : ℕ} (hmem : e ∈ front) (hleader : front.head? = some leader)
      (hlast : front.getLast? = some last) (hpc : f.pc = .complete leader last)
      (hothers : ∀ a ∈ front, a ≠ e → Holds frames a Frame.Resting) :
      Departs frames front e f front

theorem Departs.mem {frames : Memory Frame} {front : List ℕ} (h : Departs frames front e f c) :
    e ∈ front := by
  cases h with
  | done hfront hdone => exact hfront ▸ List.mem_cons_self
  | group hmem hleader hlast hpc hothers => exact hmem

theorem Departs.subset {frames : Memory Frame} {front : List ℕ} (h : Departs frames front e f c) :
    ∀ a ∈ c, a ∈ front := by
  cases h with
  | done hfront hdone => simp
  | group hmem hleader hlast hpc hothers => exact fun a ha => ha

theorem Inv.notMem_front (h : Inv g s) (hb : b ∈ g.rest) : b ∉ g.front := by
  have hnodup := h.queued.nodup
  rw [h.split, Shape.queue, List.nodup_append] at hnodup
  exact fun hb' => hnodup.2.2 b hb' b hb rfl

theorem Inv.depart (h : Inv g s) (hdeparts : Departs s.frames g.front e f' c)
    (hqueue : g'.queue = g.rest) (hchain : g'.chain = Function.update g.chain e c)
    (hqueued : Queued t.links g'.xs g'.ys) (hsplit : g'.xs ++ g'.ys = g'.queue)
    (hfront : Front t.frames g'.ys g'.rest false g'.front) (hstalled : g'.stalled = false)
    (hfilled : g'.front.length ≤ g'.xs.length + 1) (hempty : g'.front = [] → g'.rest = [])
    (hrest : ∀ b ∈ g'.rest, Holds t.frames b Frame.Waiting)
    (holders : Linked (Older t.links) none g.front none)
    (hframes : ∀ b, b ∉ g.rest → b ≠ e → t.frames b = s.frames b) (hown : t.frames e = some f')
    (hlinks : ∀ b, b ∉ g.queue → t.links b = s.links b)
    (hnewest : t.newestWriter = g.rest.getLast?) (hjoined : t.joined = s.joined)
    (hfailed : t.failed = s.failed)
    (hturn : ∀ b ∈ g.rest, (t.frames b).map Frame.turn = (s.frames b).map Frame.turn)
    (hturns : t.turns.flatten = s.turns.flatten ++ pendingOf s.frames g.front)
    (hfits : ∀ turn ∈ t.turns, Turn s.joined turn) : Inv g' t := by
  have hdummy := h.dummy_notMem
  have hmem := hdeparts.mem
  have hqueue' : ∀ b, b ∉ g.queue ↔ b ∉ g.front ∧ b ∉ g.rest := fun b => by
    rw [Shape.queue, List.mem_append, not_or]
  have hsame : ∀ b, b ∉ g.queue → t.frames b = s.frames b := fun b hb =>
    hframes b ((hqueue' b).mp hb).2 (ne_of_mem_of_not_mem hmem ((hqueue' b).mp hb).1).symm
  have hidle : ∀ b, ¬ g.Busy e b := fun b hb =>
    h.apart e e ⟨hb.1, Or.inl rfl⟩ (List.mem_append_left _ hmem)
  have hbusy : ∀ e' b, g'.Busy e' b → e' = e ∧ c ≠ [] ∧ b ∈ g.front ∨ e' ≠ e ∧ g.Busy e' b := by
    intro e' b hb
    rw [Shape.Busy, hchain] at hb
    rcases eq_or_ne e' e with rfl | hne
    · rw [Function.update_self] at hb
      refine Or.inl ⟨rfl, hb.1, ?_⟩
      rcases hb.2 with rfl | hb
      · exact hmem
      · exact hdeparts.subset b hb
    · rw [Function.update_of_ne hne] at hb
      exact Or.inr ⟨hne, hb⟩
  have hbusy' : ∀ e' b, g.Busy e' b → g'.Busy e' b := by
    intro e' b hb
    have hne : e' ≠ e := fun heq => hidle b (heq ▸ hb)
    rw [Shape.Busy, hchain, Function.update_of_ne hne]
    exact hb
  constructor
  case queued => exact hqueued
  case split => exact hsplit
  case front => exact hstalled ▸ hfront
  case filled => exact hfilled
  case empty => exact hempty
  case rest => exact hrest
  case leaving =>
    intro e' he
    rw [hchain] at he ⊢
    rcases eq_or_ne e' e with rfl | hne
    · rw [Function.update_self] at he ⊢
      cases hdeparts with
      | done hfront hdone => exact absurd rfl he
      | group hmem hleader hlast hpc hothers =>
          refine ⟨h.nodup_front, holders, ⟨f', _, _, hown, hleader, hlast, hpc, ?_⟩, ?_⟩
          · exact fun hnot => absurd hmem hnot
          · intro b hb hne
            have hb' : b ∉ g.rest := fun hrest => h.notMem_front hrest hb
            exact (hothers b hb hne).congr (hframes b hb' hne)
    · rw [Function.update_of_ne hne] at he ⊢
      have hapart : ∀ b, b = e' ∨ b ∈ g.chain e' → b ∉ g.queue := fun b hb => h.apart e' b ⟨he, hb⟩
      exact (h.leaving e' he).congr (fun b hb => hsame b (hapart b hb))
        fun b hb => hlinks b (hapart b (Or.inr hb))
  case apart =>
    intro e' b hb
    rw [hqueue]
    rcases hbusy e' b hb with ⟨-, -, hb⟩ | ⟨-, hb⟩
    · exact fun hrest => h.notMem_front hrest hb
    · exact ((hqueue' b).mp (h.apart e' b hb)).2
  case alone =>
    intro e₁ e₂ b hb₁ hb₂
    rcases hbusy e₁ b hb₁ with ⟨rfl, -, hmem₁⟩ | ⟨-, hb₁⟩
    · rcases hbusy e₂ b hb₂ with ⟨rfl, -, -⟩ | ⟨-, hb₂⟩
      · rfl
      · exact absurd hmem₁ ((hqueue' b).mp (h.apart e₂ b hb₂)).1
    · rcases hbusy e₂ b hb₂ with ⟨-, -, hmem₂⟩ | ⟨-, hb₂⟩
      · exact absurd hmem₂ ((hqueue' b).mp (h.apart e₁ b hb₁)).1
      · exact h.alone e₁ e₂ b hb₁ hb₂
  case outside =>
    intro b f hf hq hb
    rw [hqueue] at hq
    by_cases hb' : b ∈ g.front
    · cases hdeparts with
      | done hfront hdone =>
          rw [hfront, List.mem_singleton] at hb'
          subst hb'
          rw [hown, Option.some.injEq] at hf
          exact Or.inl (hf ▸ hdone)
      | group hmem hleader hlast hpc hothers =>
          refine absurd ?_ (hb e)
          rw [Shape.Busy, hchain, Function.update_self]
          exact ⟨List.ne_nil_of_mem hb', Or.inr hb'⟩
    · have hout := (hqueue' b).mpr ⟨hb', hq⟩
      rw [hsame b hout] at hf
      rw [hlinks b hout]
      exact h.outside b f hf hout fun e' he => hb e' (hbusy' e' b he)
  case newest =>
    rw [hnewest, hstalled, hqueue]
    rfl
  case stall =>
    intro hs
    rw [hstalled] at hs
    cases hs
  case allocated =>
    intro b hb hq
    rw [hqueue] at hq
    by_cases hb' : b ∈ g.front
    · obtain ⟨l, hl⟩ := exists_links_of_linked holders hb'
      obtain ⟨f, hf⟩ : ∃ f, t.frames b = some f := by
        rcases eq_or_ne b e with rfl | hne
        · exact ⟨f', hown⟩
        · rw [hframes b hq hne]
          exact h.front.isSome_of_mem hb'
      rw [hl, hf]
      rfl
    · have hout := (hqueue' b).mpr ⟨hb', hq⟩
      rw [hsame b hout, hlinks b hout]
      exact h.allocated b hb hout
  case reserved =>
    rw [hsame dummy hdummy, hlinks dummy hdummy]
    exact h.reserved
  case bound =>
    have hle := h.bound
    rw [Shape.queue, List.length_append] at hle
    rw [hqueue, hjoined]
    exact (Nat.le_add_left ..).trans hle
  case failed =>
    rw [hfailed, hjoined]
    exact h.failed
  case history =>
    have hhistory := h.history
    rw [Shape.queue, pendingOf_append, ← List.append_assoc, ← hturns,
      ← pendingOf_congr_turn hturn] at hhistory
    rw [hqueue, hjoined, hfailed]
    exact hhistory
  case requests =>
    intro b hb
    rw [hqueue] at hb
    rw [hjoined]
    exact (h.requests b (List.mem_append_right _ hb)).congr_turn (hturn b hb)
  case fits =>
    rw [hjoined]
    exact hfits

theorem Inv.close {turns : List (List ℕ)} (h : Inv g s)
    (hdeparts : Departs s.frames g.front e f' c) (hrest : g.rest = [])
    (hturns : turns.flatten = s.turns.flatten ++ pendingOf s.frames g.front)
    (hfits : ∀ turn ∈ turns, Turn s.joined turn) :
    Inv ⟨[], [], [], [], false, Function.update g.chain e c⟩
      { s with
        frames := Function.update s.frames e (some f')
        newestWriter := none
        turns := turns } := by
  have holders := h.queued.olders
  rw [h.split, Shape.queue, hrest, List.append_nil] at holders
  refine h.depart hdeparts hrest.symm rfl queued_nil rfl .empty rfl (Nat.zero_le _) (fun _ => rfl)
    (by simp) holders ?_ (Function.update_self ..) (fun _ _ => rfl) (by rw [hrest]; rfl) rfl rfl
    (by simp [hrest]) hturns hfits
  exact fun b _ hne => Function.update_of_ne hne ..

/-- Once the links are filled in, the last writer of the front leads to the one behind it. -/
theorem Inv.successor {head : ℕ} (h : Inv g s) (hlast : g.front.getLast? = some last)
    (hhead : head ∈ g.ys) (hrest : head ∈ g.rest) :
    ∃ links b rest xs ys n, createMissingNewerLinks (s.bound + 1) s.links head = some links ∧
      g.rest = b :: rest ∧ Newer links last b ∧ links b = some ⟨some last, n⟩ ∧
      Queued links (g.front ++ xs) ys ∧ xs ++ ys = g.rest ∧
      ∀ a, a ∉ g.queue → links a = s.links a := by
  obtain ⟨ys₁, ys₂, hys⟩ := List.append_of_mem hhead
  have hbound : ys₁.length < s.bound + 1 := by
    have hle := h.bound
    rw [← h.split, hys, List.length_append, List.length_append] at hle
    rw [State.bound]
    omega
  obtain ⟨links, hlinks, hqueued, hsame⟩ := createMissingNewerLinks_queued (hys ▸ h.queued) hbound
  have hsplit := h.split
  rw [hys, ← List.append_assoc, Shape.queue] at hsplit
  -- the front is a part of the writers whose links are filled in
  obtain ⟨xs, hxs, hrest'⟩ : ∃ xs, g.xs ++ ys₁ = g.front ++ xs ∧ g.rest = xs ++ head :: ys₂ := by
    rcases List.append_eq_append_iff.mp hsplit with ⟨zs, hfront, hzs⟩ | ⟨xs, hxs, hrest'⟩
    · cases zs with
      | nil => exact ⟨[], by simp [hfront], hzs.symm⟩
      | cons z zs =>
          refine absurd ?_ (h.notMem_front hrest)
          rw [hfront, (List.cons.inj hzs).1]
          simp
    · exact ⟨xs, hxs, hrest'⟩
  obtain ⟨zs, hzs⟩ := List.getLast?_eq_some_iff.mp hlast
  obtain ⟨b, rest, hb⟩ := List.exists_cons_of_ne_nil (List.ne_nil_of_mem hrest)
  rw [hxs] at hqueued
  have hfront : g.front ++ xs = zs ++ last :: xs := by rw [hzs, List.append_assoc]; rfl
  obtain ⟨p, hp⟩ := hqueued.newer_of_mem hfront
  rw [← hrest', hb, firstOf_cons] at hp
  obtain ⟨n, hn⟩ := hqueued.older_next (a := last) (b := b) (by
    rw [List.append_assoc, ← hrest', hb, hzs, List.append_assoc]
    rfl)
  refine ⟨links, b, rest, xs, head :: ys₂, n, hlinks, hb, ⟨p, hp⟩, hn, hqueued, hrest'.symm, ?_⟩
  refine fun a ha => hsame a fun hmem => ha ?_
  rw [← h.split, hys]
  simp [hmem]

/-- The first writer behind the front is the leader now. -/
theorem Inv.elect {links : Memory Links} {rest xs ys : List ℕ} {p n : Option ℕ} {fb : Frame}
    {turns : List (List ℕ)} (h : Inv g s) (hstalled : g.stalled = false)
    (hdeparts : Departs s.frames g.front e f' c) (hrest : g.rest = b :: rest)
    (hb : links b = some ⟨p, n⟩) (hqueued : Queued links (g.front ++ xs) ys)
    (hsplit : xs ++ ys = g.rest) (hsame : ∀ a, a ∉ g.queue → links a = s.links a)
    (hfb : s.frames b = some fb)
    (hturns : turns.flatten = s.turns.flatten ++ pendingOf s.frames g.front)
    (hfits : ∀ turn ∈ turns, Turn s.joined turn) :
    Inv ⟨xs, ys, [b], rest, false, Function.update g.chain e c⟩
      { s with
        frames := Function.update (Function.update s.frames b
          (some { fb with state := .groupLeader })) e (some f')
        links := Function.update links b (some ⟨none, n⟩)
        turns := turns } := by
  have hmem : b ∈ g.rest := hrest ▸ List.mem_cons_self
  have hbe : ∀ a ∈ g.rest, a ≠ e := fun a ha => (ne_of_mem_of_not_mem hdeparts.mem
    (h.notMem_front ha)).symm
  have hnodup : (b :: rest).Nodup := by
    have hnodup := h.queued.nodup
    rw [h.split, Shape.queue, hrest] at hnodup
    exact hnodup.of_append_right
  obtain ⟨f₀, hf₀, hwaiting⟩ := h.rest b hmem
  rw [hfb, Option.some.injEq] at hf₀
  subst hf₀
  have hframes : ∀ a ∈ g.rest, Function.update (Function.update s.frames b
      (some { fb with state := .groupLeader })) e (some f') a = Function.update s.frames b
      (some { fb with state := .groupLeader }) a := fun a ha => Function.update_of_ne (hbe a ha) ..
  refine h.depart hdeparts hrest.symm rfl ?_ (hsplit.trans hrest) ?_ rfl (Nat.le_add_left 1 _)
    (by simp) ?_ ?_ ?_ (Function.update_self ..) ?_ ?_ rfl rfl ?_ hturns hfits
  · refine hqueued.pop (hsplit.trans hrest) (fun l hl => ?_) fun a ha => ?_
    · rw [hb, Option.some.injEq] at hl
      rw [← hl]
      exact Function.update_self ..
    · exact Function.update_of_ne (ne_of_mem_of_not_mem ha (List.nodup_cons.mp hnodup).1) ..
  · exact .single ((hframes b hmem).trans (Function.update_self ..)) hwaiting.2.2
      (.elected hwaiting.1 rfl)
  · intro a ha
    have hne := ne_of_mem_of_not_mem ha (List.nodup_cons.mp hnodup).1
    have hmem : a ∈ g.rest := hrest ▸ List.mem_cons_of_mem b ha
    exact ((h.rest a hmem).update_of_ne hne).congr (hframes a hmem)
  · have holders := hqueued.olders
    rw [List.append_assoc] at holders
    refine (linked_older_any (linked_append.mp holders).1).congr fun a ha p n hnode => ?_
    obtain ⟨m, hm⟩ := hnode
    have hne : a ≠ b := ne_of_mem_of_not_mem ha (h.notMem_front hmem)
    exact ⟨m, (Function.update_of_ne hne ..).trans hm⟩
  · intro a ha hne
    exact (Function.update_of_ne hne ..).trans
      (Function.update_of_ne (ne_of_mem_of_not_mem hmem ha).symm ..)
  · intro a ha
    have hne : a ≠ b := (ne_of_mem_of_not_mem (List.mem_append_right _ hmem) ha).symm
    exact (Function.update_of_ne hne ..).trans (hsame a ha)
  · rw [h.newest, hstalled, Shape.queue, List.getLast?_append_of_ne_nil _ (List.ne_nil_of_mem hmem)]
    rfl
  · intro a ha
    dsimp only
    rw [hframes a ha]
    exact turn_update { fb with state := .groupLeader } hfb rfl a

theorem Inv.rest_nil (h : Inv g s) (hfront : last ∈ g.front)
    (hlast : g.queue.getLast? = some last) :
    g.rest = [] := by
  by_contra hne
  rw [Shape.queue, List.getLast?_append_of_ne_nil _ hne] at hlast
  exact h.notMem_front (List.mem_of_getLast? hlast) hfront

theorem Inv.exitAsBatchGroupLeader {head : ℕ} {P : Frame → Prop} (h : Inv g s)
    (hg : g.front = l :: fs) (hs : g.stalled = false) (hf : s.frames e = some f)
    (hexits : Exits s.frames l fs e P) (hhead : head ∈ g.ys)
    (hplace : (l :: fs).getLast? = some head ∨ head ∈ g.rest) :
    Keeps (s.exitAsBatchGroupLeader e l head) := by
  obtain ⟨running, fl, hfl, last, hlast, hgroup⟩ := hexits.leads
  have hsplit := h.split
  rw [Shape.queue, hg, List.cons_append] at hsplit
  obtain ⟨n, hown⟩ := h.queued.older_head hsplit
  rw [← hg] at hlast hplace
  have hdeparts : Departs s.frames g.front e { f with pc := .complete l last } g.front :=
    .group (hg ▸ hexits.mem) (by rw [hg]; rfl) hlast rfl (hg ▸ hexits.others)
  have hturns : s.turns.flatten = s.turns.flatten ++ pendingOf s.frames g.front := by
    rw [hg, pendingOf_grouped hexits.grouped, List.append_nil]
  obtain ⟨newest, hnewest, hmem, hqueue⟩ :=
    h.newest_mem hs (by rw [hg]; exact List.cons_ne_nil l fs)
  have hnot : ∀ w ∈ g.rest, w ≠ last := fun w hw =>
    (ne_of_mem_of_not_mem (List.mem_of_getLast? hlast) (h.notMem_front hw)).symm
  by_cases hcas : head = last ∧ s.newestWriter = some head
  · have hrest : g.rest = [] := by
      refine h.rest_nil (hcas.1 ▸ List.mem_of_getLast? hlast) ?_
      rw [hqueue, ← hnewest, hcas.2]
    refine ⟨_, _, ?_, h.close hdeparts hrest hturns h.fits⟩
    simp [State.exitAsBatchGroupLeader, hfl, hgroup, hown, hcas.1, hcas.2, hf, State.setFrame]
  · -- the head of the new queue, which the compare-and-swap may have loaded
    obtain ⟨head', heq, hhead', hrest⟩ : ∃ head',
        (if head = last then s.newestWriter else some head) = some head' ∧ head' ∈ g.ys ∧
          head' ∈ g.rest := by
      by_cases hlast' : head = last
      · refine ⟨newest, by rw [if_pos hlast', hnewest], hmem, ?_⟩
        refine (Shape.newest_place hqueue).resolve_left fun hfront => hcas ⟨hlast', ?_⟩
        rw [hnewest, ← hfront, hlast, hlast']
      · refine ⟨head, if_neg hlast', hhead, hplace.resolve_left fun hfront => hlast' ?_⟩
        exact Option.some.inj (hfront.symm.trans hlast)
    obtain ⟨links, b, rest, xs, ys, n, hlinks, hb, hnewer, holder, hqueued, hsplit', hsame⟩ :=
      h.successor hlast hhead' hrest
    have hmem : b ∈ g.rest := hb ▸ List.mem_cons_self
    obtain ⟨fb, hfb⟩ := h.exists_frame (List.mem_append_right g.front hmem)
    have hbe : e ≠ b := ne_of_mem_of_not_mem hdeparts.mem (h.notMem_front hmem)
    obtain ⟨p, hp⟩ := hnewer
    refine ⟨_, _, ?_, h.elect hs hdeparts hb holder hqueued hsplit' hsame hfb hturns h.fits⟩
    by_cases hlast' : head = last
    · rw [if_pos hlast'] at heq
      have hne := hnot head' hrest
      simp [State.exitAsBatchGroupLeader, hfl, hgroup, hown, hlast', heq, hne, hlinks, hp, holder,
        State.promote, State.setState, State.setLinks, State.setFrame, hfb, hbe, hf]
    · rw [if_neg hlast', Option.some.injEq] at heq
      subst heq
      simp [State.exitAsBatchGroupLeader, hfl, hgroup, hown, hlast', hlinks, hp, holder,
        State.promote, State.setState, State.setLinks, State.setFrame, hfb, hbe, hf]

theorem Inv.exitUnbatched (h : Inv g s) (hg : g.front = [l]) (hs : g.stalled = false)
    (hf : s.frames l = some f) (hgroup : f.writeGroup = none) (hbatch : f.request.batch = none) :
    Keeps (s.exitUnbatched l f) := by
  have hdeparts : Departs s.frames g.front l { f with pc := .returned } [] :=
    .done hg (Or.inl rfl)
  have hturns : (s.turns ++ [[f.ticket]]).flatten =
      s.turns.flatten ++ pendingOf s.frames g.front := by
    rw [hg, pendingOf_singleton hf hgroup]
    simp
  have hfits : ∀ turn ∈ s.turns ++ [[f.ticket]], Turn s.joined turn := by
    intro turn hturn
    rcases List.mem_append.mp hturn with hturn | hturn
    · exact h.fits turn hturn
    · obtain ⟨f₀, hf₀, hrequest⟩ := h.requests l (List.mem_append_left _ (hg ▸ List.mem_cons_self))
      obtain rfl : f = f₀ := Option.some.inj (hf.symm.trans hf₀)
      rw [List.mem_singleton] at hturn
      refine ⟨f.request, [], ?_, Or.inl ⟨hbatch, rfl⟩⟩
      rw [hturn, List.map_singleton, List.map_singleton, hrequest]
  obtain ⟨newest, hnewest, hmem, hqueue⟩ :=
    h.newest_mem hs (by rw [hg]; exact List.cons_ne_nil l [])
  rcases Shape.newest_place hqueue with hplace | hplace
  · have hfront := List.mem_of_getLast? hplace
    refine ⟨_, _, ?_, h.close hdeparts (h.rest_nil hfront hqueue) hturns hfits⟩
    rw [hg, List.mem_singleton] at hfront
    simp [State.exitUnbatched, hnewest, hfront, State.setFrame]
  · obtain ⟨links, b, rest, xs, ys, n, hlinks, hb, hnewer, holder, hqueued, hsplit, hsame⟩ :=
      h.successor (by rw [hg]; rfl : g.front.getLast? = some l) hmem hplace
    have hmem : b ∈ g.rest := hb ▸ List.mem_cons_self
    obtain ⟨fb, hfb⟩ := h.exists_frame (List.mem_append_right g.front hmem)
    have hne : newest ≠ l :=
      (ne_of_mem_of_not_mem (hg ▸ List.mem_cons_self) (h.notMem_front hplace)).symm
    refine ⟨_, _, ?_, h.elect hs hdeparts hb holder hqueued hsplit hsame hfb hturns hfits⟩
    obtain ⟨p, hp⟩ := hnewer
    simp [State.exitUnbatched, hnewest, hne, hlinks, hp, holder, State.promote, State.setState,
      State.setLinks, State.setFrame, hfb]

theorem Inv.leave {frames : Memory Frame} (h : Inv g s) (hbusy : g.chain e ≠ [])
    (hsub : ∀ b ∈ c, b ∈ g.chain e) (hframes : ∀ b, ¬ g.Busy e b → frames b = s.frames b)
    (hsome : ∀ b, g.Busy e b → ∃ f, frames b = some f)
    (hleaves : c ≠ [] → Leaves frames s.links e c)
    (hdone : ∀ b f, g.Busy e b → frames b = some f → (c ≠ [] → b ≠ e ∧ b ∉ c) → f.Done) :
    Inv { g with chain := Function.update g.chain e c } { s with frames := frames } := by
  set g' : Shape := { g with chain := Function.update g.chain e c }
  have hchain : g'.chain = Function.update g.chain e c := rfl
  have hqueue : ∀ b ∈ g.queue, frames b = s.frames b := fun b hb =>
    hframes b fun hbusy => h.apart e b hbusy hb
  have hsmaller : ∀ e' b, g'.Busy e' b → g.Busy e' b := by
    intro e' b hb
    rw [Shape.Busy, hchain] at hb
    rcases eq_or_ne e' e with rfl | hne
    · rw [Function.update_self] at hb
      exact ⟨hbusy, hb.2.imp id (hsub b)⟩
    · rw [Function.update_of_ne hne] at hb
      exact hb
  have hother : ∀ e' b, e' ≠ e → g.Busy e' b → g'.Busy e' b := by
    intro e' b hne hb
    rw [Shape.Busy, hchain, Function.update_of_ne hne]
    exact hb
  constructor
  case queued => exact h.queued
  case split => exact h.split
  case front =>
    exact h.front.congr (fun b hb => hqueue b (List.mem_append_left _ hb)) (fun _ hn => hn)
      fun _ hn => hn
  case filled => exact h.filled
  case empty => exact h.empty
  case rest => exact fun b hb => (h.rest b hb).congr (hqueue b (List.mem_append_right _ hb))
  case leaving =>
    intro e' he
    rw [hchain] at he ⊢
    rcases eq_or_ne e' e with rfl | hne
    · rw [Function.update_self] at he ⊢
      exact hleaves he
    · rw [Function.update_of_ne hne] at he ⊢
      refine (h.leaving e' he).congr (fun b hb => hframes b fun hb' => ?_) fun _ _ => rfl
      exact hne (h.alone e' e b ⟨he, hb⟩ hb')
  case apart => exact fun e' b hb => h.apart e' b (hsmaller e' b hb)
  case alone => exact fun e₁ e₂ b h₁ h₂ => h.alone e₁ e₂ b (hsmaller e₁ b h₁) (hsmaller e₂ b h₂)
  case outside =>
    intro b f hf hq hb
    by_cases hb' : g.Busy e b
    · refine Or.inl (hdone b f hb' hf fun hne => ?_)
      have hnot := hb e
      rw [Shape.Busy, hchain, Function.update_self, not_and, not_or] at hnot
      exact hnot hne
    · dsimp only at hf
      rw [hframes b hb'] at hf
      refine h.outside b f hf hq fun e' he => hb e' (hother e' b ?_ he)
      rintro rfl
      exact hb' he
  case newest => exact h.newest
  case stall => exact h.stall
  case allocated =>
    intro b hne hq
    rw [h.allocated b hne hq]
    by_cases hb : g.Busy e b
    · obtain ⟨f, hf⟩ := hsome b hb
      obtain ⟨f', hf'⟩ := h.exists_frame_of_busy hb
      dsimp only
      rw [hf, hf']
      rfl
    · dsimp only
      rw [hframes b hb]
  case reserved =>
    have hdummy : ¬ g.Busy e dummy := fun hb => by
      obtain ⟨f, hf⟩ := h.exists_frame_of_busy hb
      exact h.ne_dummy hf rfl
    dsimp only
    rw [hframes dummy hdummy]
    exact h.reserved
  case bound => exact h.bound
  case failed => exact h.failed
  case history =>
    have hpending : pendingOf frames g'.queue = pendingOf s.frames g.queue := pendingOf_congr hqueue
    rw [hpending]
    exact h.history
  case requests => exact fun b hb => (h.requests b hb).congr (hqueue b hb)
  case fits => exact h.fits

theorem Shape.Busy.ne (ha : g.Busy e a) (hb : ¬ g.Busy e b) : b ≠ a :=
  fun hba => hb (hba ▸ ha)

theorem Frame.Resting.done (h : f.Resting) : ({ f with state := .completed } : Frame).Done :=
  Or.inr ⟨h.imp And.left And.left, rfl⟩

/-- The thread that has completed all others of its group returns. -/
theorem Inv.complete_leader (h : Inv g s) (hchain : g.chain e = [l]) (hf : s.frames e = some f)
    (hstate : e ≠ l → f.state = .completed)
    (hresting : l ≠ e → Holds s.frames l Frame.Resting) : Keeps (s.complete e l l) := by
  have hbusy : g.chain e ≠ [] := hchain ▸ List.cons_ne_nil l []
  have hmem : ∀ b, g.Busy e b → b = e ∨ b = l := fun b hb => by
    rw [Shape.Busy, hchain, List.mem_singleton] at hb
    exact hb.2
  have hown : g.Busy e e := ⟨hbusy, Or.inl rfl⟩
  have hleader : g.Busy e l := ⟨hbusy, Or.inr (hchain ▸ List.mem_cons_self)⟩
  rcases eq_or_ne e l with rfl | hne
  · refine ⟨{ s with frames := Function.update s.frames e (some { f with pc := .returned }) }, _,
      ?_, h.leave (c := []) hbusy (by simp) (fun b hb => ?_) (fun b hb => ?_) (absurd rfl) ?_⟩
    · simp [State.complete, hf, State.setFrame]
    · exact Function.update_of_ne (hown.ne hb) ..
    · obtain rfl : b = e := (hmem b hb).elim id id
      exact ⟨_, Function.update_self ..⟩
    · intro b f' hb hf' _
      obtain rfl : b = e := (hmem b hb).elim id id
      rw [Function.update_self, Option.some.injEq] at hf'
      exact hf' ▸ Or.inl rfl
  · obtain ⟨fl, hfl, hfl'⟩ := hresting hne.symm
    refine ⟨{ s with frames := Function.update (Function.update s.frames l
      (some { fl with state := .completed })) e (some { f with pc := .returned }) }, _, ?_,
      h.leave (c := []) hbusy (by simp) (fun b hb => ?_) (fun b hb => ?_) (absurd rfl) ?_⟩
    · simp [State.complete, hne, State.setState, hfl, State.setFrame, hf, hstate hne]
    · exact (Function.update_of_ne (hown.ne hb) ..).trans
        (Function.update_of_ne (hleader.ne hb) ..)
    · rcases hmem b hb with rfl | rfl
      · exact ⟨_, Function.update_self ..⟩
      · exact ⟨_, (Function.update_of_ne hne.symm ..).trans (Function.update_self ..)⟩
    · intro b f' hb hf' _
      rcases hmem b hb with rfl | rfl
      · rw [Function.update_self, Option.some.injEq] at hf'
        exact hf' ▸ Or.inl rfl
      · rw [Function.update_of_ne hne.symm, Function.update_self, Option.some.injEq] at hf'
        exact hf' ▸ hfl'.done

/-- The last member of a group that is not its leader is completed. -/
theorem Inv.complete_member {next : ℕ} (h : Inv g s) (hchain : g.chain e = c ++ [last])
    (hleader : c.head? = some l) (hnext : c.getLast? = some next) (hf : s.frames e = some f)
    (hleaves : Leaves s.frames s.links e (c ++ [last]))
    (hstate : e ∉ c ++ [last] → f.state = .completed) :
    Keeps (s.complete e l last) := by
  have hbusy : g.chain e ≠ [] := hchain ▸ by simp
  have hown : g.Busy e e := ⟨hbusy, Or.inl rfl⟩
  have hmem : g.Busy e last := ⟨hbusy, Or.inr (hchain ▸ by simp)⟩
  obtain ⟨hnodup, -, hdisj⟩ := List.nodup_append.mp hleaves.nodup
  have hlast : last ∉ c := fun hc => hdisj last hc last List.mem_cons_self rfl
  have hne : last ≠ l := fun heq => hlast (heq ▸ List.mem_of_head? hleader)
  obtain ⟨holders, ⟨n, hlinks⟩, -⟩ := linked_append.mp hleaves.olders
  rw [lastOf_none, hnext] at hlinks
  obtain ⟨fl, hfl⟩ := h.exists_frame_of_busy hmem
  set told := Function.update s.frames last (some { fl with state := .completed }) with htold
  obtain ⟨f', hf', hstate'⟩ : ∃ f', told e = some f' ∧ (e ∉ c → f'.state = .completed) := by
    rcases eq_or_ne e last with rfl | hne
    · exact ⟨_, Function.update_self .., fun _ => rfl⟩
    · refine ⟨f, (Function.update_of_ne hne ..).trans hf, fun he => hstate ?_⟩
      rw [List.mem_append, List.mem_singleton, not_or]
      exact ⟨he, hne⟩
  refine ⟨{ s with frames := Function.update told e (some { f' with pc := .complete l next }) }, _,
    ?_, h.leave (c := c) hbusy (fun b hb => ?_) (fun b hb => ?_) (fun b hb => ?_) (fun _ => ?_) ?_⟩
  · simp [State.complete, hne, hlinks, State.setState, hfl, State.setFrame, ← htold, hf']
  · rw [hchain]
    exact List.mem_append_left [last] hb
  · exact (Function.update_of_ne (hown.ne hb) ..).trans
      (Function.update_of_ne (hmem.ne hb) ..)
  · obtain ⟨f₀, hf₀⟩ := h.exists_frame_of_busy hb
    rcases eq_or_ne b e with rfl | hbe
    · exact ⟨_, Function.update_self ..⟩
    · rw [Function.update_of_ne hbe, htold]
      rcases eq_or_ne b last with rfl | hbl
      · exact ⟨_, Function.update_self ..⟩
      · exact ⟨f₀, (Function.update_of_ne hbl ..).trans hf₀⟩
  · refine ⟨hnodup, linked_older_any holders, ⟨_, l, next, Function.update_self .., hleader, hnext,
      rfl, hstate'⟩, fun b hb hbe => ?_⟩
    have hbl : b ≠ last := ne_of_mem_of_not_mem hb hlast
    have hresting := hleaves.members b (List.mem_append_left [last] hb) hbe
    exact (hresting.update_of_ne hbl).update_of_ne hbe
  · intro b f₀ hb hf₀ hnot
    obtain ⟨hbe, hbc⟩ := hnot (List.ne_nil_of_mem (List.mem_of_head? hleader))
    obtain rfl : b = last := by
      have hb := hb.2.resolve_left hbe
      rw [hchain, List.mem_append, List.mem_singleton] at hb
      exact hb.resolve_left hbc
    rw [Function.update_of_ne hbe, htold, Function.update_self, Option.some.injEq] at hf₀
    obtain ⟨f₁, hf₁, hresting⟩ := hleaves.members b (by simp) hbe
    rw [hfl, Option.some.injEq] at hf₁
    exact hf₀ ▸ (hf₁ ▸ hresting).done

theorem Inv.complete {leader : ℕ} (h : Inv g s) (hbusy : g.chain e ≠ [])
    (hf : s.frames e = some f) (hpc : f.pc = .complete leader last) :
    Keeps (s.complete e leader last) := by
  have hleaves := h.leaving e hbusy
  obtain ⟨f₀, leader₀, last₀, hf₀, hleader, hlast, hpc₀, hstate⟩ := hleaves.executor
  obtain rfl : f = f₀ := Option.some.inj (hf.symm.trans hf₀)
  obtain ⟨rfl, rfl⟩ : leader = leader₀ ∧ last = last₀ := by
    rw [hpc] at hpc₀
    exact Pc.complete.inj hpc₀
  obtain ⟨c, hchain⟩ := List.getLast?_eq_some_iff.mp hlast
  rw [hchain] at hleader hstate hleaves
  cases c with
  | nil =>
      obtain rfl : last = leader := Option.some.inj hleader
      refine h.complete_leader hchain hf (fun hne => hstate (by simpa using hne)) fun hne => ?_
      exact hleaves.members last (by simp) hne
  | cons x c =>
      exact h.complete_member hchain hleader
        (List.getLast?_eq_some_getLast (List.cons_ne_nil x c)) hf hleaves hstate

end PowerLawRocksdb.WriteThread
