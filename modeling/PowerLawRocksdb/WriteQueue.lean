import PowerLawRocksdb.WriteThread

/-!
# The loops over the writer queue

What each loop over the links does to a queue of the right form: the missing links
are filled in up to a given writer, a group takes over a part of the writers behind
its leader, and a write stall takes out the writers that must not be delayed.
-/
namespace PowerLawRocksdb.WriteThread
open LinkedHeap LazyQueue

variable {links : Memory Links} {frames : Memory Frame} {xs ys zs ws : List ℕ}
  {a head newest fuel : ℕ}

theorem createMissingNewerLinks_succ {next : ℕ} {p n : Option ℕ}
    (hhead : links head = some ⟨some next, n⟩) (hnext : links next = some ⟨p, none⟩) :
    createMissingNewerLinks (fuel + 1) links head =
      createMissingNewerLinks fuel (Function.update links next (some ⟨p, some head⟩)) next := by
  simp [createMissingNewerLinks, hhead, hnext]

/-- The missing links before `head` are filled in from the newest to the oldest one. -/
theorem createMissingNewerLinks_full (hfuel : ys.length < fuel) (hnodup : (xs ++ ys).Nodup)
    (hfull : Linked (Full links) none xs (firstOf (ys ++ [head]) none))
    (hhalf : Linked (Half links) (lastOf none xs) ys none)
    (hhead : Older links head (lastOf none (xs ++ ys)) none) :
    ∃ links', createMissingNewerLinks fuel links head = some links' ∧
      Linked (Full links') none (xs ++ ys) (some head) ∧ ∀ a, a ∉ ys → links' a = links a := by
  obtain ⟨fuel, rfl⟩ : ∃ k, fuel = k + 1 := ⟨fuel - 1, by omega⟩
  obtain ⟨n, hhead⟩ := hhead
  induction ys using List.reverseRecOn generalizing head links fuel n with
  | nil =>
      refine ⟨links, ?_, by simpa using hfull, fun _ _ => rfl⟩
      rw [List.append_nil] at hhead
      cases xs using List.reverseRecOn with
      | nil => simp [createMissingNewerLinks, hhead]
      | append_singleton xs x _ =>
          have hx : links x = some ⟨_, some head⟩ := (linked_append.mp hfull).2.1
          simp [createMissingNewerLinks, hhead, hx]
  | append_singleton ys y ih =>
      rw [← List.append_assoc, lastOf_append, lastOf_cons, lastOf_nil] at hhead
      rw [← List.append_assoc, List.nodup_append] at hnodup
      obtain ⟨hys, hy, -⟩ := linked_append.mp hhalf
      rw [← lastOf_append] at hy
      -- the link behind `y` is filled in, and the loop goes on with `y`
      set filled := Function.update links y (some ⟨lastOf none (xs ++ ys), some head⟩)
      have hkept : ∀ b ∈ xs ++ ys, filled b = links b := fun b hb =>
        Function.update_of_ne (hnodup.2.2 b hb y List.mem_cons_self) ..
      have hfull' : Linked (Full filled) none xs (firstOf (ys ++ [y]) none) := by
        rw [List.append_assoc, firstOf_append] at hfull
        rw [firstOf_append]
        exact hfull.congr fun b hb p n hnode =>
          (hkept b (List.mem_append_left ys hb)).trans hnode
      have hhalf' : Linked (Half filled) (lastOf none xs) ys none :=
        linked_half_any (hys.congr fun b hb p n hnode =>
          (hkept b (List.mem_append_right xs hb)).trans hnode)
      have hlen : ys.length < fuel := by
        rw [List.length_append, List.length_singleton] at hfuel
        omega
      obtain ⟨fuel, rfl⟩ : ∃ k, fuel = k + 1 := ⟨fuel - 1, by omega⟩
      obtain ⟨links', hlinks', hlinked, hsame⟩ :=
        ih hnodup.1 hfull' hhalf' fuel hlen (some head) (Function.update_self ..)
      have hny : y ∉ ys := fun hmem =>
        hnodup.2.2 y (List.mem_append_right xs hmem) y List.mem_cons_self rfl
      refine ⟨links', ?_, ?_, ?_⟩
      · rw [createMissingNewerLinks_succ hhead hy]
        exact hlinks'
      · rw [← List.append_assoc]
        refine linked_append.mpr ⟨hlinked, ?_, trivial⟩
        exact (hsame y hny).trans (Function.update_self ..)
      · intro b hb
        rw [List.mem_append, List.mem_singleton, not_or] at hb
        rw [hsame b hb.1]
        exact Function.update_of_ne hb.2 ..

theorem createMissingNewerLinks_queued (h : Queued links xs (ys ++ head :: zs))
    (hfuel : ys.length < fuel) :
    ∃ links', createMissingNewerLinks fuel links head = some links' ∧
      Queued links' (xs ++ ys) (head :: zs) ∧ ∀ a, a ∉ ys → links' a = links a := by
  have hnodup := h.nodup
  rw [← List.append_assoc, List.nodup_append] at hnodup
  obtain ⟨hys, hhead, -⟩ := linked_append.mp h.half
  rw [← lastOf_append] at hhead
  have hfull : Linked (Full links) none xs (firstOf (ys ++ [head]) none) := by
    have hfirst := h.full
    rw [firstOf_append] at hfirst ⊢
    exact hfirst
  obtain ⟨links', hlinks', hlinked, hsame⟩ :=
    createMissingNewerLinks_full hfuel hnodup.1 hfull (linked_half_any hys) ⟨none, hhead⟩
  refine ⟨links', hlinks', h.fill hlinked ?_, hsame⟩
  intro b hb
  exact hsame b fun hmem => hnodup.2.2 b (List.mem_append_right xs hmem) b hb rfl

/-- The writers of a list become members of the group of the leader. -/
def joinGroup (frames : Memory Frame) (leader : ℕ) (ms : List ℕ) : Memory Frame := fun a =>
  if a ∈ ms then (frames a).map fun f => { f with writeGroup := some leader } else frames a

theorem joinGroup_cons {f : Frame} {leader w : ℕ} {ms : List ℕ} (hf : frames w = some f)
    (hw : w ∉ ms) :
    joinGroup (Function.update frames w (some { f with writeGroup := some leader })) leader ms =
      joinGroup frames leader (w :: ms) := by
  funext a
  unfold joinGroup
  rcases eq_or_ne a w with rfl | hne
  · rw [if_neg hw, if_pos List.mem_cons_self, Function.update_self, hf]
    rfl
  · simp [hne]

/-- The requests that a leader takes into its group behind its own batch. -/
def Fits (request : Request) (maxSize : ℕ) : ℕ → List Request → Prop
  | _, [] => True
  | size, r :: rs => ∃ batch, r.batch = some batch ∧ mayFollow request r = true ∧
      size + batch.length ≤ maxSize ∧ Fits request maxSize (size + batch.length) rs

def requestsOf (frames : Memory Frame) (l : List ℕ) : List Request :=
  l.filterMap fun a => (frames a).map Frame.request

theorem extendGroup_take {request : Request} {maxSize size w : ℕ} {group : WriteGroup} {f : Frame}
    {batch : Numerals.Bytes} (hne : group.lastWriter ≠ newest)
    (hnext : Newer links group.lastWriter w) (hf : frames w = some f)
    (hbatch : f.request.batch = some batch) (hmay : mayFollow request f.request = true)
    (hsize : size + batch.length ≤ maxSize) :
    extendGroup links request newest maxSize (fuel + 1) frames group size =
      extendGroup links request newest maxSize fuel
        (Function.update frames w (some { f with writeGroup := some group.leader }))
        { group with lastWriter := w, size := group.size + 1 } (size + batch.length) := by
  obtain ⟨p, hp⟩ := hnext
  simp [extendGroup, hne, hp, hf, hbatch, hmay, hsize]

theorem extendGroup_stop {request : Request} {maxSize size w : ℕ} {group : WriteGroup} {f : Frame}
    (hnext : Newer links group.lastWriter w) (hf : frames w = some f)
    (hrefused : ∀ batch, f.request.batch = some batch → mayFollow request f.request = true →
      ¬ size + batch.length ≤ maxSize) :
    extendGroup links request newest maxSize (fuel + 1) frames group size =
      some (frames, group) := by
  obtain ⟨p, hp⟩ := hnext
  by_cases hlast : group.lastWriter = newest
  · rw [extendGroup, if_pos hlast]
  · cases hbatch : f.request.batch with
    | none => simp [extendGroup, hlast, hp, hf, hbatch]
    | some batch =>
        have hsize := hrefused batch hbatch
        simp [extendGroup, hlast, hp, hf, hbatch]
        intro hmay hle
        exact absurd hle (hsize hmay)

/-- A group takes over the first ones of the writers behind its last member. -/
theorem extendGroup_eq (frames : Memory Frame) (request : Request) (maxSize size : ℕ)
    (group : WriteGroup) (hfuel : ws.length < fuel)
    (hchain : List.IsChain (Newer links) (group.lastWriter :: ws))
    (hnewest : (group.lastWriter :: ws).getLast? = some newest)
    (hnodup : (group.lastWriter :: ws).Nodup) (hframes : ∀ w ∈ ws, ∃ f, frames w = some f) :
    ∃ ms rest last, ws = ms ++ rest ∧ (group.lastWriter :: ms).getLast? = some last ∧
      Fits request maxSize size (requestsOf frames ms) ∧
      extendGroup links request newest maxSize fuel frames group size =
        some (joinGroup frames group.leader ms,
          { group with lastWriter := last, size := group.size + ms.length }) := by
  obtain ⟨fuel, rfl⟩ : ∃ k, fuel = k + 1 := ⟨fuel - 1, by omega⟩
  have hnone : ∀ (group : WriteGroup) (frames : Memory Frame), (joinGroup frames group.leader [],
      { group with lastWriter := group.lastWriter, size := group.size + ([] : List ℕ).length }) =
        (frames, group) := fun _ _ => rfl
  induction ws generalizing frames group size fuel with
  | nil =>
      have hlast : group.lastWriter = newest := by simpa using hnewest
      exact ⟨[], [], group.lastWriter, rfl, rfl, trivial, by rw [extendGroup, if_pos hlast, hnone]⟩
  | cons w ws ih =>
      obtain ⟨hnext, hchain⟩ := List.isChain_cons_cons.mp hchain
      obtain ⟨hfirst, hnodup⟩ := List.nodup_cons.mp hnodup
      rw [List.getLast?_cons_cons] at hnewest
      have hne : group.lastWriter ≠ newest := fun heq =>
        hfirst (heq ▸ List.mem_of_getLast? hnewest)
      obtain ⟨f, hf⟩ := hframes w List.mem_cons_self
      by_cases htake : ∃ batch, f.request.batch = some batch ∧ mayFollow request f.request = true ∧
          size + batch.length ≤ maxSize
      · obtain ⟨batch, hbatch, hmay, hsize⟩ := htake
        obtain ⟨fuel, rfl⟩ : ∃ k, fuel = k + 1 :=
          ⟨fuel - 1, by rw [List.length_cons] at hfuel; omega⟩
        have hw : w ∉ ws := (List.nodup_cons.mp hnodup).1
        set joined := Function.update frames w (some { f with writeGroup := some group.leader })
        have hkept : ∀ b ∈ ws, joined b = frames b := fun b hb =>
          Function.update_of_ne (ne_of_mem_of_not_mem hb hw) ..
        obtain ⟨ms, rest, last, hws, hlast, hfits, heq⟩ :=
          ih joined (size + batch.length) { group with lastWriter := w, size := group.size + 1 }
            hchain hnewest hnodup
            (fun b hb => by rw [hkept b hb]; exact hframes b (List.mem_cons_of_mem w hb))
            fuel (by rw [List.length_cons] at hfuel; omega)
        have hms : w ∉ ms := fun hmem => hw (hws ▸ List.mem_append_left rest hmem)
        have hrequests : requestsOf joined ms = requestsOf frames ms :=
          List.filterMap_congr fun b hb => by
            rw [hkept b (hws ▸ List.mem_append_left rest hb)]
        refine ⟨w :: ms, rest, last, by rw [hws, List.cons_append], ?_, ?_, ?_⟩
        · rw [List.getLast?_cons_cons]
          exact hlast
        · rw [requestsOf, List.filterMap_cons, hf]
          rw [hrequests] at hfits
          exact ⟨batch, hbatch, hmay, hsize, hfits⟩
        · rw [extendGroup_take hne hnext hf hbatch hmay hsize, heq, joinGroup_cons hf hms]
          simp only [List.length_cons, Nat.add_assoc, Nat.add_comm 1]
      · refine ⟨[], w :: ws, group.lastWriter, rfl, rfl, trivial, ?_⟩
        rw [hnone]
        exact extendGroup_stop hnext hf fun batch hbatch hmay hsize =>
          htake ⟨batch, hbatch, hmay, hsize⟩

def ticketsOf (frames : Memory Frame) (l : List ℕ) : List ℕ :=
  l.filterMap fun a => (frames a).map Frame.ticket

/-- The tickets of a list do not depend on the groups. -/
theorem ticketsOf_joinGroup (leader : ℕ) (ms l : List ℕ) :
    ticketsOf (joinGroup frames leader ms) l = ticketsOf frames l := by
  refine List.filterMap_congr fun a _ => ?_
  unfold joinGroup
  split_ifs
  · rw [Option.map_map]
    rfl
  · rfl

theorem groupTickets_eq {w last : ℕ} {ms : List ℕ} (hfuel : ms.length < fuel)
    (hchain : List.IsChain (Newer links) (w :: ms)) (hlast : (w :: ms).getLast? = some last)
    (hnodup : (w :: ms).Nodup) (hframes : ∀ b ∈ w :: ms, ∃ f, frames b = some f) :
    groupTickets frames links last fuel w = some (ticketsOf frames (w :: ms)) := by
  obtain ⟨fuel, rfl⟩ : ∃ k, fuel = k + 1 := ⟨fuel - 1, by omega⟩
  obtain ⟨f, hf⟩ := hframes w List.mem_cons_self
  induction ms generalizing w fuel f with
  | nil =>
      obtain rfl : w = last := by simpa using hlast
      simp [groupTickets, ticketsOf, hf]
  | cons m ms ih =>
      obtain ⟨⟨p, hp⟩, hchain⟩ := List.isChain_cons_cons.mp hchain
      obtain ⟨hfirst, hnodup⟩ := List.nodup_cons.mp hnodup
      rw [List.getLast?_cons_cons] at hlast
      have hne : w ≠ last := fun heq => hfirst (heq ▸ List.mem_of_getLast? hlast)
      obtain ⟨fuel, rfl⟩ : ∃ k, fuel = k + 1 :=
        ⟨fuel - 1, by rw [List.length_cons] at hfuel; omega⟩
      have hframes' : ∀ b ∈ m :: ms, ∃ f, frames b = some f := fun b hb =>
        hframes b (List.mem_cons_of_mem w hb)
      obtain ⟨g, hg⟩ := hframes' m List.mem_cons_self
      have hrest := ih hchain hlast hnodup hframes' fuel (by rw [List.length_cons] at hfuel; omega)
        g hg
      rw [groupTickets, hf, ticketsOf, List.filterMap_cons, hf]
      simp [hne, hp, hrest, ticketsOf]

/-- What a write stall makes of a writer that has been linked. -/
def Frame.fail (f : Frame) : Frame :=
  if f.request.noSlowdown then { f with state := .completed } else f

def failFrames (frames : Memory Frame) (l : List ℕ) : Memory Frame := fun a =>
  if a ∈ l then (frames a).map Frame.fail else frames a

/-- The writer at this address waits for the end of a write stall. -/
def waitsOut (frames : Memory Frame) (a : ℕ) : Bool :=
  ((frames a).map fun f => !f.request.noSlowdown).getD false

theorem failFrames_append {f : Frame} {w : ℕ} {l : List ℕ} (hf : frames w = some f) (hw : w ∉ l) :
    failFrames frames (l ++ [w]) = failFrames (Function.update frames w (some f.fail)) l := by
  funext a
  unfold failFrames
  rcases eq_or_ne a w with rfl | hne
  · rw [if_neg hw, if_pos (by simp), Function.update_self, hf, Option.map_some]
  · simp [hne]

theorem waitsOut_fail {f : Frame} {w : ℕ} (hf : frames w = some f) :
    waitsOut (Function.update frames w (some f.fail)) = waitsOut frames := by
  funext a
  unfold waitsOut
  rcases eq_or_ne a w with rfl | hne
  · rw [Function.update_self, hf, Option.map_some, Option.map_some, Frame.fail]
    split_ifs <;> rfl
  · rw [Function.update_of_ne hne]

theorem failPending_keep {s : State} {prev w : ℕ} {o n : Option ℕ} {f : Frame}
    (hf : s.frames w = some f) (hgroup : f.writeGroup = none) (hslow : f.request.noSlowdown = false)
    (hw : s.links w = some ⟨o, n⟩) :
    failPending (fuel + 1) s prev (some w) = failPending fuel s w o := by
  simp [failPending, hf, hgroup, hslow, hw]

theorem failPending_fail {s : State} {prev w : ℕ} {o n po pn : Option ℕ} {f : Frame}
    (hf : s.frames w = some f) (hgroup : f.writeGroup = none) (hslow : f.request.noSlowdown = true)
    (hw : s.links w = some ⟨o, n⟩) (hprev : s.links prev = some ⟨po, pn⟩) :
    failPending (fuel + 1) s prev (some w) = failPending fuel { s with
      frames := Function.update s.frames w (some f.fail)
      links := Function.update s.links prev (some ⟨o, pn⟩)
      failed := s.failed ++ [f.ticket] } prev o := by
  simp [failPending, hf, hgroup, hslow, hw, hprev, State.setLinks, State.setState, State.setFrame,
    Frame.fail]

/-- The loop takes the writers that must not be delayed out of the list. -/
theorem failPending_eq (s : State) (prev : ℕ) {l : List ℕ} (hfuel : l.length < fuel)
    (hnodup : l.Nodup) (hprev : prev ∉ l) (holders : Linked (Older s.links) none l none)
    (hlinks : Older s.links prev (lastOf none l) none)
    (hframes : ∀ a ∈ l, ∃ f, s.frames a = some f ∧ f.writeGroup = none) :
    ∃ links, failPending fuel s prev (lastOf none l) = some { s with
        frames := failFrames s.frames l
        links := links
        failed := s.failed ++
          ticketsOf s.frames (l.filter fun a => !waitsOut s.frames a).reverse } ∧
      Linked (Older links) none (l.filter (waitsOut s.frames)) none ∧
      Older links prev (lastOf none (l.filter (waitsOut s.frames))) none ∧
      (∀ a, (links a).map Links.newer = (s.links a).map Links.newer) ∧
      ∀ a, a ∉ l → a ≠ prev → links a = s.links a := by
  obtain ⟨fuel, rfl⟩ : ∃ k, fuel = k + 1 := ⟨fuel - 1, by omega⟩
  induction l using List.reverseRecOn generalizing s prev fuel with
  | nil =>
      refine ⟨s.links, ?_, trivial, hlinks, fun _ => rfl, fun _ _ _ => rfl⟩
      simp only [lastOf_nil, failPending, List.filter_nil, List.reverse_nil, ticketsOf,
        List.filterMap_nil, List.append_nil]
      rfl
  | append_singleton l w ih =>
      obtain ⟨hl, ⟨n, hw⟩, -⟩ := linked_append.mp holders
      obtain ⟨f, hf, hgroup⟩ := hframes w (by simp)
      rw [List.nodup_append] at hnodup
      have hwl : w ∉ l := fun hmem => hnodup.2.2 w hmem w List.mem_cons_self rfl
      rw [List.mem_append, List.mem_singleton, not_or] at hprev
      have hframes' : ∀ a ∈ l, ∃ f, s.frames a = some f ∧ f.writeGroup = none := fun a ha =>
        hframes a (List.mem_append_left [w] ha)
      rw [List.length_append, List.length_singleton] at hfuel
      obtain ⟨fuel, rfl⟩ : ∃ k, fuel = k + 1 := ⟨fuel - 1, by omega⟩
      rw [lastOf_append, lastOf_cons, lastOf_nil] at hlinks ⊢
      by_cases hslow : f.request.noSlowdown = true
      · have hwaits : waitsOut s.frames w = false := by simp [waitsOut, hf, hslow]
        have hfilter : (l ++ [w]).filter (waitsOut s.frames) = l.filter (waitsOut s.frames) := by
          simp [List.filter_append, hwaits]
        obtain ⟨pn, hp⟩ := hlinks
        set t : State := { s with
          frames := Function.update s.frames w (some f.fail)
          links := Function.update s.links prev (some ⟨lastOf none l, pn⟩)
          failed := s.failed ++ [f.ticket] } with ht
        have htlinks : ∀ a, a ≠ prev → t.links a = s.links a := fun a ha =>
          Function.update_of_ne ha ..
        have htframes : ∀ a ∈ l, t.frames a = s.frames a := fun a ha =>
          Function.update_of_ne (ne_of_mem_of_not_mem ha hwl) ..
        have hwaits' : waitsOut t.frames = waitsOut s.frames := waitsOut_fail hf
        obtain ⟨links, heq, holders', hprev', hnewer, hother⟩ := ih t prev hnodup.1 hprev.1
          (linked_older_any (hl.congr fun a ha p n hnode => by
            obtain ⟨m, hm⟩ := hnode
            exact ⟨m, (htlinks a (ne_of_mem_of_not_mem ha hprev.1)).trans hm⟩))
          ⟨pn, Function.update_self ..⟩
          (fun a ha => by rw [htframes a ha]; exact hframes' a ha) fuel (by omega)
        rw [hwaits'] at heq holders' hprev'
        refine ⟨links, ?_, hfilter ▸ holders', hfilter ▸ hprev', fun a => ?_, fun a ha hne => ?_⟩
        · rw [failPending_fail hf hgroup hslow hw hp, ← ht, heq, failFrames_append hf hwl]
          have htickets : ticketsOf t.frames (l.filter fun a => !waitsOut s.frames a).reverse =
              ticketsOf s.frames (l.filter fun a => !waitsOut s.frames a).reverse :=
            List.filterMap_congr fun a ha => by
              rw [htframes a (List.mem_filter.mp (List.mem_reverse.mp ha)).1]
          rw [htickets]
          simp [ht, List.filter_append, hwaits, ticketsOf, hf]
        · rw [hnewer a]
          rcases eq_or_ne a prev with rfl | hne
          · rw [hp, show t.links a = _ from Function.update_self ..]
            rfl
          · rw [htlinks a hne]
        · rw [hother a (fun hmem => ha (List.mem_append_left [w] hmem)) hne, htlinks a hne]
      · rw [Bool.not_eq_true] at hslow
        have hwaits : waitsOut s.frames w = true := by simp [waitsOut, hf, hslow]
        have hsame : Function.update s.frames w (some f.fail) = s.frames := by
          rw [Frame.fail, hslow, if_neg Bool.false_ne_true, ← hf, Function.update_eq_self]
        have hfilter : (l ++ [w]).filter (waitsOut s.frames) =
            l.filter (waitsOut s.frames) ++ [w] := by
          simp [List.filter_append, hwaits]
        obtain ⟨links, heq, holders', hw', hnewer, hother⟩ := ih s w hnodup.1 hwl
          (linked_older_any hl) ⟨n, hw⟩ hframes' fuel (by omega)
        refine ⟨links, ?_, ?_, ?_, hnewer, fun a ha hne => ?_⟩
        · rw [failPending_keep hf hgroup hslow hw, heq, failFrames_append hf hwl, hsame,
            List.filter_append]
          simp [hwaits]
        · rw [hfilter]
          exact linked_append.mpr ⟨linked_older_any holders', hw', trivial⟩
        · rw [hfilter, lastOf_append, lastOf_cons, lastOf_nil]
          obtain ⟨m, hm⟩ := hlinks
          exact ⟨m, (hother prev hprev.1 hprev.2).trans hm⟩
        · rw [List.mem_append, List.mem_singleton, not_or] at ha
          exact hother a ha.1 ha.2

end PowerLawRocksdb.WriteThread
