import PowerLawRocksdb.LogLifeCycle

/-!
# What the logs stand for

The logs hold write groups. Each group adds updates to the column families and changes
which transactions are prepared. If the records on disk are those of a sequence of groups,
then replaying them gives every column family the updates from the logs that it still
needs, and gives back the transactions that are prepared.
-/
namespace PowerLawRocksdb.LogHistory
open Numerals WriteBatch BatchEntries BatchIterate BatchContents MemTableInserter WriteCommitted
open RecordReplay LogLifeCycle

structure Group where
  log : ℕ
  sequence : ℕ
  ops : List LogOp

/-- What has been added, each time with the log that it is in, and what is prepared. -/
structure Effect where
  history : List (ℕ × UInt32 × MemEntry)
  prepared : List Prepared

def Effect.group (t : Effect) (g : Group) : Effect :=
  ⟨t.history ++ (additions g.sequence (replay g.log g.ops t.prepared).1).map (Prod.mk g.log),
    (replay g.log g.ops t.prepared).2⟩

def effect (groups : List Group) : Effect := groups.foldl Effect.group ⟨[], []⟩

/-- The updates of a column family in the logs from `n` on. -/
def fromLog (n : ℕ) (cf : UInt32) (history : List (ℕ × UInt32 × MemEntry)) : List MemEntry :=
  forFamily cf ((history.filter fun a => n ≤ a.1).map Prod.snd)

theorem fromLog_append (n : ℕ) (cf : UInt32) (h₁ h₂ : List (ℕ × UInt32 × MemEntry)) :
    fromLog n cf (h₁ ++ h₂) = fromLog n cf h₁ ++ fromLog n cf h₂ := by
  rw [fromLog, List.filter_append, List.map_append, forFamily_append]
  rfl

theorem fromLog_log (n : ℕ) (cf : UInt32) (log : ℕ) (as : List (UInt32 × MemEntry)) :
    fromLog n cf (as.map (Prod.mk log)) = if n ≤ log then forFamily cf as else [] := by
  unfold fromLog
  rw [List.filter_map]
  by_cases hn : n ≤ log
  · have hall : as.filter ((fun a : ℕ × UInt32 × MemEntry => decide (n ≤ a.1)) ∘
        Prod.mk log) = as :=
      List.filter_eq_self.mpr fun a _ => decide_eq_true hn
    rw [hall, if_pos hn, List.map_map]
    exact congrArg (forFamily cf) (List.map_id as)
  · have hnone : as.filter ((fun a : ℕ × UInt32 × MemEntry => decide (n ≤ a.1)) ∘
        Prod.mk log) = [] :=
      List.filter_eq_nil_iff.mpr fun a _ => by simpa using hn
    rw [hnone, if_neg hn]
    rfl

theorem mem_of_mem_fromLog {n : ℕ} {cf : UInt32} {history : List (ℕ × UInt32 × MemEntry)}
    {e : MemEntry} (he : e ∈ fromLog n cf history) : ∃ a ∈ history, n ≤ a.1 ∧ a.2 = (cf, e) := by
  simp only [fromLog, forFamily, List.mem_map, List.mem_filter, decide_eq_true_eq] at he
  obtain ⟨b, ⟨⟨a, ⟨ha, hn⟩, rfl⟩, hcf⟩, rfl⟩ := he
  exact ⟨a, ha, hn, by rw [← hcf]⟩

/-- No log from `n` on has an update of the column family. -/
theorem fromLog_eq_nil {n : ℕ} {cf : UInt32} {history : List (ℕ × UInt32 × MemEntry)}
    (h : ∀ a ∈ history, a.1 < n) : fromLog n cf history = [] := by
  rw [List.eq_nil_iff_forall_not_mem]
  intro e he
  obtain ⟨a, ha, hn, -⟩ := mem_of_mem_fromLog he
  exact absurd (h a ha) (Nat.not_lt.mpr hn)

/-- The group can be logged next. -/
structure Follows (families : UInt32 → Option Bool) (allow2pc : Bool) (t : Effect) (g : Group) :
    Prop where
  log : 0 < g.log
  newer : ∀ a ∈ t.history, a.2.2.sequence < g.sequence
  valid : ValidOps families allow2pc g.log g.ops t.prepared
  numbers : Numberable g.sequence (replay g.log g.ops t.prepared).1

def Chronicle (families : UInt32 → Option Bool) (allow2pc : Bool) : Effect → List Group → Prop
  | _, [] => True
  | t, g :: groups =>
      Follows families allow2pc t g ∧ Chronicle families allow2pc (t.group g) groups

theorem effect_append (groups : List Group) (g : Group) :
    effect (groups ++ [g]) = (effect groups).group g := by
  rw [effect, List.foldl_append]
  rfl

theorem Chronicle.append {families : UInt32 → Option Bool} {allow2pc : Bool} {groups : List Group}
    {g : Group} {t : Effect} (h : Chronicle families allow2pc t groups)
    (hg : Follows families allow2pc (groups.foldl Effect.group t) g) :
    Chronicle families allow2pc t (groups ++ [g]) := by
  induction groups generalizing t with
  | nil => exact ⟨hg, trivial⟩
  | cons g' groups ih => exact ⟨h.1, ih h.2 hg⟩

section Groups
variable {groups : List Group}

theorem valid_replay {families : UInt32 → Option Bool} {allow2pc : Bool} {log : ℕ}
    {ops : List LogOp} {prepared : List Prepared} (h : ∀ q ∈ prepared, q.Valid families)
    (hops : ValidOps families allow2pc log ops prepared) :
    ∀ q ∈ (replay log ops prepared).2, q.Valid families := by
  induction ops generalizing prepared with
  | nil => exact h
  | cons op ops ih =>
      apply ih _ hops.2
      intro q hq
      cases op with
      | updates entries => exact h q hq
      | commit name => exact h q (List.mem_of_mem_filter hq)
      | rollback name => exact h q (List.mem_of_mem_filter hq)
      | prepare name entries =>
          rcases List.mem_append.mp hq with hq | hq
          · exact h q hq
          · rw [List.mem_singleton.mp hq]
            exact { hops.1.2.1 with }

theorem valid_of_chronicle {families : UInt32 → Option Bool} {allow2pc : Bool} {t : Effect}
    (ht : ∀ q ∈ t.prepared, q.Valid families) (h : Chronicle families allow2pc t groups) :
    ∀ q ∈ (groups.foldl Effect.group t).prepared, q.Valid families := by
  induction groups generalizing t with
  | nil => exact ht
  | cons g groups ih => exact ih (valid_replay ht h.1.valid) h.2

theorem le_sequence_of_mem_additions {sequence : ℕ} {entries : List Entry}
    {a : UInt32 × MemEntry} (ha : a ∈ additions sequence entries) : sequence ≤ a.2.sequence := by
  induction entries generalizing sequence with
  | nil => cases ha
  | cons e entries ih =>
      cases hpayload : payload e with
      | none =>
          rw [additions_of_none hpayload] at ha
          exact ih ha
      | some b =>
          rw [additions_of_some hpayload, List.mem_cons] at ha
          rcases ha with rfl | ha
          · exact le_rfl
          · exact Nat.le_of_succ_le (ih ha)

/-- Later groups only add, each from its sequence number on. -/
theorem exists_later (groups : List Group) (t : Effect) :
    ∃ later, (groups.foldl Effect.group t).history = t.history ++ later ∧
      ∀ a ∈ later, ∃ g ∈ groups, a.1 = g.log ∧ g.sequence ≤ a.2.2.sequence := by
  induction groups generalizing t with
  | nil => exact ⟨[], (List.append_nil _).symm, fun _ ha => absurd ha List.not_mem_nil⟩
  | cons g groups ih =>
      obtain ⟨later, heq, hlater⟩ := ih (t.group g)
      rw [Effect.group, List.append_assoc] at heq
      refine ⟨_, heq, ?_⟩
      intro a ha
      rcases List.mem_append.mp ha with ha | ha
      · obtain ⟨b, hb, rfl⟩ := List.mem_map.mp ha
        exact ⟨g, List.mem_cons_self, rfl, le_sequence_of_mem_additions hb⟩
      · obtain ⟨g', hg', hg⟩ := hlater a ha
        exact ⟨g', List.mem_cons_of_mem g hg', hg⟩

/-- What a group adds if it holds only updates. -/
def Group.added (g : Group) : List (ℕ × UInt32 × MemEntry) :=
  (additions g.sequence (replay g.log g.ops []).1).map (Prod.mk g.log)

theorem replay_updates {log : ℕ} {ops : List LogOp}
    (h : ∀ op ∈ ops, ∃ entries, op = .updates entries) (prepared : List Prepared) :
    replay log ops prepared = ((replay log ops []).1, prepared) := by
  induction ops generalizing prepared with
  | nil => rfl
  | cons op ops ih =>
      obtain ⟨entries, rfl⟩ := h op List.mem_cons_self
      have ih := ih fun op' hop' => h op' (List.mem_cons_of_mem _ hop')
      rw [replay, replay]
      simp only [LogOp.after, LogOp.applied]
      rw [ih prepared]

theorem group_updates {g : Group} (h : ∀ op ∈ g.ops, ∃ entries, op = .updates entries)
    (t : Effect) : t.group g = ⟨t.history ++ g.added, t.prepared⟩ := by
  rw [Effect.group, replay_updates h]
  rfl

theorem foldl_updates (h : ∀ g ∈ groups, ∀ op ∈ g.ops, ∃ entries, op = .updates entries)
    (t : Effect) :
    groups.foldl Effect.group t = ⟨t.history ++ groups.flatMap Group.added, t.prepared⟩ := by
  induction groups generalizing t with
  | nil => rw [List.flatMap_nil, List.append_nil]; rfl
  | cons g groups ih =>
      rw [List.foldl_cons, ih (fun g' hg' => h g' (List.mem_cons_of_mem g hg')),
        group_updates (h g List.mem_cons_self), List.flatMap_cons, List.append_assoc]

theorem validOps_updates {families : UInt32 → Option Bool} {allow2pc : Bool} {log : ℕ}
    {ops : List LogOp} (h : ∀ op ∈ ops, ∃ entries, op = .updates entries)
    {prepared : List Prepared} (hvalid : ValidOps families allow2pc log ops prepared)
    (prepared' : List Prepared) : ValidOps families allow2pc log ops prepared' := by
  induction ops generalizing prepared prepared' with
  | nil => trivial
  | cons op ops ih =>
      obtain ⟨entries, rfl⟩ := h op List.mem_cons_self
      exact ⟨hvalid.1, ih (fun op' hop' => h op' (List.mem_cons_of_mem _ hop')) hvalid.2 _⟩

/-- Groups that hold only updates can be left out. -/
theorem Chronicle.sublist {families : UInt32 → Option Bool} {allow2pc : Bool}
    {groups' : List Group} (hsub : groups'.Sublist groups)
    (hupdates : ∀ g ∈ groups, ∀ op ∈ g.ops, ∃ entries, op = .updates entries) {t t' : Effect}
    (ht : t'.history ⊆ t.history) (h : Chronicle families allow2pc t groups) :
    Chronicle families allow2pc t' groups' := by
  induction hsub generalizing t t' with
  | slnil => trivial
  | @cons _ _ g _ ih =>
      apply ih (fun g' hg' => hupdates g' (List.mem_cons_of_mem g hg')) _ h.2
      intro a ha
      exact List.mem_append_left _ (ht ha)
  | @cons_cons _ _ g _ ih =>
      have hg := hupdates g List.mem_cons_self
      have hnumbers : Numberable g.sequence (replay g.log g.ops t'.prepared).1 := by
        have hsame := h.1.numbers
        rw [replay_updates hg] at hsame ⊢
        exact hsame
      refine ⟨⟨h.1.log, fun a ha => h.1.newer a (ht ha), validOps_updates hg h.1.valid _,
        hnumbers⟩, ?_⟩
      apply ih (fun g' hg' => hupdates g' (List.mem_cons_of_mem g hg')) _ h.2
      rw [group_updates hg, group_updates hg]
      exact List.append_subset.mpr ⟨fun a ha => List.mem_append_left _ (ht ha),
        List.subset_append_right _ _⟩

/-- The groups of one log do not matter for those who are past it. -/
theorem fromLog_filter {k n : ℕ} (hlt : n < k) (cf : UInt32) (groups : List Group) :
    fromLog k cf ((groups.filter fun g => g.log ≠ n).flatMap Group.added) =
      fromLog k cf (groups.flatMap Group.added) := by
  induction groups with
  | nil => rfl
  | cons g groups ih =>
      rw [List.flatMap_cons, fromLog_append, List.filter_cons]
      split_ifs with hkeep
      · rw [List.flatMap_cons, fromLog_append, ih]
      · have hlog : g.log = n := by simpa using hkeep
        have hnone : fromLog k cf g.added = [] := by
          rw [Group.added, fromLog_log, hlog, if_neg (Nat.not_le.mpr hlt)]
        rw [hnone, List.nil_append, ih]

theorem Chronicle.of_append {families : UInt32 → Option Bool} {allow2pc : Bool} {t : Effect}
    {groups' : List Group} (h : Chronicle families allow2pc t (groups ++ groups')) :
    Chronicle families allow2pc t groups ∧
      Chronicle families allow2pc (groups.foldl Effect.group t) groups' := by
  induction groups generalizing t with
  | nil => exact ⟨trivial, h⟩
  | cons g groups ih => exact ⟨⟨h.1, (ih h.2).1⟩, (ih h.2).2⟩

end Groups

section Release
variable {number : ℕ} {prepared : List Prepared}

/-- What is left of an effect without the logs before `number`. -/
def Effect.since (number : ℕ) (t : Effect) : Effect :=
  ⟨t.history.filter fun a => number ≤ a.1, t.prepared.filter fun q => number ≤ q.log⟩

theorem lookup_cons (q : Prepared) (prepared : List Prepared) (name : Bytes) :
    lookup (q :: prepared) name = if q.name = name then q.entries else lookup prepared name := by
  rw [lookup, List.find?_cons]
  by_cases hname : q.name = name
  · rw [if_pos hname, decide_eq_true hname]
  · rw [if_neg hname, decide_eq_false hname]
    rfl

theorem lookup_since {name : Bytes} (h : ∀ q ∈ prepared, q.log < number → q.name ≠ name) :
    lookup (prepared.filter fun q => number ≤ q.log) name = lookup prepared name := by
  induction prepared with
  | nil => rfl
  | cons q prepared ih =>
      have ih := ih fun q' hq' => h q' (List.mem_cons_of_mem q hq')
      by_cases hq : number ≤ q.log
      · rw [List.filter_cons_of_pos (by simpa using hq), lookup_cons, lookup_cons, ih]
      · have hname := h q List.mem_cons_self (Nat.not_le.mp hq)
        rw [List.filter_cons_of_neg (by simpa using hq), ih, lookup_cons, if_neg hname]

theorem after_since {log : ℕ} (hlog : number ≤ log) (op : LogOp) (prepared : List Prepared) :
    op.after log (prepared.filter fun q => number ≤ q.log) =
      (op.after log prepared).filter fun q => number ≤ q.log := by
  cases op with
  | updates entries => rfl
  | prepare name entries =>
      rw [LogOp.after, LogOp.after, List.filter_append, List.filter_singleton, decide_eq_true hlog]
      rfl
  | commit name | rollback name =>
      rw [LogOp.after, LogOp.after, RecordReplay.discard, RecordReplay.discard, List.filter_filter,
        List.filter_filter]
      simp only [Bool.and_comm]

theorem mem_after {log : ℕ} {op : LogOp} {q : Prepared} (hq : q ∈ op.after log prepared) :
    q ∈ prepared ∨ (q.log = log ∧ op = .prepare q.name q.entries) := by
  cases op with
  | updates entries => exact .inl hq
  | prepare name entries =>
      rcases List.mem_append.mp hq with hq | hq
      · exact .inl hq
      · rw [List.mem_singleton.mp hq]
        exact .inr ⟨rfl, rfl⟩
  | commit name | rollback name => exact .inl (List.mem_of_mem_filter hq)

theorem mem_replay {log : ℕ} {ops : List LogOp} {q : Prepared}
    (hq : q ∈ (replay log ops prepared).2) :
    q ∈ prepared ∨ (q.log = log ∧ .prepare q.name q.entries ∈ ops) := by
  induction ops generalizing prepared with
  | nil => exact .inl hq
  | cons op ops ih =>
      rcases ih hq with hafter | ⟨hlog, hmem⟩
      · rcases mem_after hafter with hq | ⟨hlog, hop⟩
        · exact .inl hq
        · exact .inr ⟨hlog, hop ▸ List.mem_cons_self⟩
      · exact .inr ⟨hlog, List.mem_cons_of_mem op hmem⟩

/-- What is prepared was prepared before or by one of the groups. -/
theorem mem_prepared {t : Effect} {groups : List Group} {q : Prepared}
    (hq : q ∈ (groups.foldl Effect.group t).prepared) :
    q ∈ t.prepared ∨ ∃ g ∈ groups, q.log = g.log ∧ .prepare q.name q.entries ∈ g.ops := by
  induction groups generalizing t with
  | nil => exact .inl hq
  | cons g groups ih =>
      rcases ih hq with hgroup | ⟨g', hg', hprepare⟩
      · rcases mem_replay hgroup with hq | hprepare
        · exact .inl hq
        · exact .inr ⟨g, List.mem_cons_self, hprepare⟩
      · exact .inr ⟨g', List.mem_cons_of_mem g hg', hprepare⟩

/-- Operations that commit nothing from the logs before `number` can do without them. -/
theorem replay_since {log : ℕ} (hlog : number ≤ log) {ops : List LogOp}
    (h : ∀ q ∈ prepared, q.log < number → .commit q.name ∉ ops) :
    replay log ops (prepared.filter fun q => number ≤ q.log) =
      ((replay log ops prepared).1,
        (replay log ops prepared).2.filter fun q => number ≤ q.log) := by
  induction ops generalizing prepared with
  | nil => rfl
  | cons op ops ih =>
      have happlied : op.applied (prepared.filter fun q => number ≤ q.log) =
          op.applied prepared := by
        cases op with
        | updates entries | prepare name entries | rollback name => rfl
        | commit name =>
            apply lookup_since
            rintro q hq hlt rfl
            exact h q hq hlt List.mem_cons_self
      have hafter : ∀ q ∈ op.after log prepared, q.log < number → .commit q.name ∉ ops := by
        intro q hq hlt hcommit
        rcases mem_after hq with hq | ⟨heq, -⟩
        · exact h q hq hlt (List.mem_cons_of_mem op hcommit)
        · exact absurd hlog (Nat.not_le.mpr (heq ▸ hlt))
      rw [replay, replay, happlied, after_since hlog, ih hafter]

theorem validOps_since {families : UInt32 → Option Bool} {allow2pc : Bool} {log : ℕ}
    (hlog : number ≤ log) {ops : List LogOp} (h : ValidOps families allow2pc log ops prepared) :
    ValidOps families allow2pc log ops (prepared.filter fun q => number ≤ q.log) := by
  induction ops generalizing prepared with
  | nil => trivial
  | cons op ops ih =>
      refine ⟨?_, after_since hlog op prepared ▸ ih h.2⟩
      cases op with
      | updates entries | commit name | rollback name => exact h.1
      | prepare name entries =>
          exact ⟨h.1.1, h.1.2.1, fun q hq => h.1.2.2 q (List.mem_of_mem_filter hq)⟩

theorem group_since {t : Effect} {g : Group} (hlog : number ≤ g.log)
    (h : ∀ q ∈ t.prepared, q.log < number → .commit q.name ∉ g.ops) :
    (t.since number).group g = (t.group g).since number := by
  have hall : ∀ as : List (UInt32 × MemEntry),
      (as.map (Prod.mk g.log)).filter (fun a => number ≤ a.1) = as.map (Prod.mk g.log) := by
    intro as
    apply List.filter_eq_self.mpr
    intro a ha
    obtain ⟨b, -, rfl⟩ := List.mem_map.mp ha
    exact decide_eq_true hlog
  rw [Effect.group, Effect.group, Effect.since, Effect.since, replay_since hlog h,
    List.filter_append, hall]

/-- The logs before `number` can be left out, if later groups commit nothing from them. -/
theorem Chronicle.since {families : UInt32 → Option Bool} {allow2pc : Bool} {t : Effect}
    {groups : List Group} (h : Chronicle families allow2pc t groups)
    (hlogs : ∀ g ∈ groups, number ≤ g.log)
    (hapart : ∀ q ∈ t.prepared, q.log < number → ∀ g ∈ groups, .commit q.name ∉ g.ops) :
    Chronicle families allow2pc (t.since number) groups ∧
      groups.foldl Effect.group (t.since number) =
        (groups.foldl Effect.group t).since number := by
  induction groups generalizing t with
  | nil => exact ⟨trivial, rfl⟩
  | cons g groups ih =>
      have hlog := hlogs g List.mem_cons_self
      have hg : ∀ q ∈ t.prepared, q.log < number → .commit q.name ∉ g.ops :=
        fun q hq hlt => hapart q hq hlt g List.mem_cons_self
      have hnext : ∀ q ∈ (t.group g).prepared, q.log < number →
          ∀ g' ∈ groups, .commit q.name ∉ g'.ops := by
        intro q hq hlt g' hg'
        rcases mem_replay hq with hq | ⟨heq, -⟩
        · exact hapart q hq hlt g' (List.mem_cons_of_mem g hg')
        · exact absurd hlog (Nat.not_le.mpr (heq ▸ hlt))
      obtain ⟨hrest, heq⟩ := ih h.2 (fun g' hg' => hlogs g' (List.mem_cons_of_mem g hg')) hnext
      rw [← group_since hlog hg] at hrest heq
      have hnumbers := h.1.numbers
      refine ⟨⟨⟨h.1.log, ?_, validOps_since hlog h.1.valid, ?_⟩, hrest⟩, heq⟩
      · intro a ha
        exact h.1.newer a (List.mem_of_mem_filter ha)
      · show Numberable g.sequence (replay g.log g.ops (t.prepared.filter _)).1
        rw [replay_since hlog hg]
        exact hnumbers

theorem fromLog_since {k : ℕ} (hk : number ≤ k) (cf : UInt32)
    (history : List (ℕ × UInt32 × MemEntry)) :
    fromLog k cf (history.filter fun a => number ≤ a.1) = fromLog k cf history := by
  unfold fromLog
  rw [List.filter_filter]
  congr 2
  apply List.filter_congr
  intro a _
  by_cases hle : k ≤ a.1
  · simp [hle, hk.trans hle]
  · simp [hle]

/-- The groups of the logs before `number` come first. -/
theorem append_of_logs {groups : List Group} (h : (groups.map Group.log).Pairwise (· ≤ ·))
    (number : ℕ) :
    groups = (groups.filter fun g => g.log < number) ++ groups.filter fun g => number ≤ g.log := by
  induction groups with
  | nil => rfl
  | cons g groups ih =>
      rw [List.map_cons, List.pairwise_cons] at h
      by_cases hlt : g.log < number
      · rw [List.filter_cons_of_pos (by simpa using hlt),
          List.filter_cons_of_neg (by simpa using hlt), List.cons_append, ← ih h.2]
      · have hall : ∀ g' ∈ g :: groups, number ≤ g'.log := by
          refine List.forall_mem_cons.mpr ⟨Nat.not_lt.mp hlt, ?_⟩
          intro g' hg'
          exact (Nat.not_lt.mp hlt).trans (h.1 _ (List.mem_map_of_mem hg'))
        rw [List.filter_eq_nil_iff.mpr fun g' hg' => by simpa using hall g' hg',
          List.filter_eq_self.mpr fun g' hg' => decide_eq_true (hall g' hg'), List.nil_append]

/-- Nothing of groups in logs before `number` is left. -/
theorem effect_since_eq_empty {groups : List Group} (h : ∀ g ∈ groups, g.log < number) :
    (effect groups).since number = ⟨[], []⟩ := by
  obtain ⟨later, heq, hlater⟩ := exists_later groups ⟨[], []⟩
  have hhistory : (effect groups).history.filter (fun a => number ≤ a.1) = [] := by
    rw [List.filter_eq_nil_iff]
    intro a ha
    rw [effect, heq, List.nil_append] at ha
    obtain ⟨g, hg, hlog, -⟩ := hlater a ha
    have hlt := h g hg
    simp only [decide_eq_true_eq]
    omega
  have hprepared : (effect groups).prepared.filter (fun q => number ≤ q.log) = [] := by
    rw [List.filter_eq_nil_iff]
    intro q hq
    rcases mem_prepared hq with hnone | ⟨g, hg, hlog, -⟩
    · cases hnone
    · have hlt := h g hg
      simp only [decide_eq_true_eq]
      omega
  rw [Effect.since, hhistory, hprepared]

end Release

/-- A record on disk and the group that it was written for. -/
def Holds (record : ℕ × Bytes) (g : Group) : Prop :=
  record.1 = g.log ∧ Records record.2 g.sequence g.ops

/-- What is known while the logs are replayed. -/
structure Recovered (base : ColumnFamilies) (t : Effect) (r : Recovery) : Prop where
  absent : ∀ {cf}, base cf = none → r.columnFamilies cf = none
  present : ∀ {cf family}, base cf = some family →
    ∃ mem, r.columnFamilies cf = some { family with mem } ∧
      mem.entries = fromLog family.logNumber cf t.history
  tracks : List.Forall₂ Tracks r.recoveredTransactions t.prepared
  valid : ∀ q ∈ t.prepared, q.Valid (schema base)
  next : ∀ a ∈ t.history, ∃ n, r.nextSequence = some n ∧ a.2.2.sequence < n

section
variable {base : ColumnFamilies} {t : Effect} {r : Recovery}

theorem Recovered.schema_eq (h : Recovered base t r) : schema r.columnFamilies = schema base := by
  funext cf
  unfold schema
  cases hbase : base cf with
  | none => rw [h.absent hbase]
  | some family =>
      obtain ⟨mem, hmem, -⟩ := h.present hbase
      rw [hmem]
      rfl

theorem Recovered.older (h : Recovered base t r) {sequence : ℕ}
    (hnewer : ∀ a ∈ t.history, a.2.2.sequence < sequence) : Older r.columnFamilies sequence := by
  intro cf family hfamily e he
  cases hbase : base cf with
  | none =>
      rw [h.absent hbase] at hfamily
      cases hfamily
  | some old =>
      obtain ⟨mem, hmem, hentries⟩ := h.present hbase
      rw [hmem] at hfamily
      cases hfamily
      rw [hentries] at he
      obtain ⟨a, ha, -, hcf⟩ := mem_of_mem_fromLog he
      have hlt := hnewer a ha
      rwa [hcf] at hlt

theorem policy_options (db : Database) (ignoreMissing : Bool) (log : ℕ) :
    Policy (db.options ignoreMissing log) := ⟨rfl, rfl, rfl⟩

/-- A record of a group that follows is accepted, and the recovery then knows the group. -/
theorem Recovered.recoverRecord {db : Database} {g : Group} (h : Recovered base t r)
    (hg : Follows (schema base) db.allow2pc t g) {record : Bytes}
    (hrecord : Records record g.sequence g.ops) :
    ∃ r', db.recoverRecord g.log record r = some (.ok, r') ∧ Recovered base (t.group g) r' := by
  have hstart : Replays (.start g.sequence r.columnFamilies r.recoveredTransactions) t.prepared :=
    ⟨rfl, rfl, rfl, h.older hg.newer, h.tracks, h.schema_eq.symm ▸ h.valid⟩
  obtain ⟨i, hinsert, hi, hsequence, hreceived⟩ :=
    insertIntoBatch_records (policy_options db true g.log) (Nat.pos_iff_ne_zero.mp hg.log) hrecord
      hstart (h.schema_eq.symm ▸ hg.valid) hg.numbers
  have hschema := hreceived.schema_eq.trans h.schema_eq
  refine ⟨⟨i.columnFamilies, i.recoveredTransactions, some i.sequence⟩, ?_, ?_⟩
  · rw [Database.recoverRecord, if_neg (Nat.not_lt.mpr hrecord.represents.header), hinsert]
    rfl
  · refine ⟨?_, ?_, hi.tracks, hschema ▸ hi.valid, ?_⟩
    · intro cf hbase
      exact hreceived.absent (h.absent hbase)
    · intro cf family hbase
      obtain ⟨mem, hmem, hentries⟩ := h.present hbase
      obtain ⟨mem', hmem', hentries'⟩ := hreceived.present hmem
      refine ⟨mem', hmem', ?_⟩
      have hskips : Skips (db.options true g.log) { family with mem } ↔
          ¬ family.logNumber ≤ g.log :=
        ⟨fun hskips => Nat.not_le.mpr hskips.2,
          fun hlt => ⟨Nat.pos_iff_ne_zero.mp hg.log, Nat.not_le.mp hlt⟩⟩
      rw [hentries', hentries, Effect.group, fromLog_append, fromLog_log]
      by_cases hle : family.logNumber ≤ g.log
      · rw [if_neg (hskips.not.mpr (not_not.mpr hle)), if_pos hle]
        rfl
      · rw [if_pos (hskips.mpr hle), if_neg hle]
    · intro a ha
      refine ⟨i.sequence, rfl, ?_⟩
      rw [hsequence]
      rw [Effect.group, List.mem_append, List.mem_map] at ha
      rcases ha with ha | ⟨b, hb, rfl⟩
      · exact Nat.lt_add_right _ (hg.newer a ha)
      · exact sequence_of_mem_additions hb

/-- The recovery accepts all records of a chronicle. -/
theorem Recovered.recoverRecords {db : Database} {records : List (ℕ × Bytes)}
    {groups : List Group} (hrecords : List.Forall₂ Holds records groups) (h : Recovered base t r)
    (hgroups : Chronicle (schema base) db.allow2pc t groups) :
    ∃ r', db.recoverRecords records r = some (.ok, r') ∧
      Recovered base (groups.foldl Effect.group t) r' := by
  induction hrecords generalizing t r with
  | nil => exact ⟨r, rfl, h⟩
  | @cons record g records groups hrecord _ ih =>
      obtain ⟨log, record⟩ := record
      obtain ⟨rfl, hrecord⟩ := hrecord
      obtain ⟨r₁, hrecover, h₁⟩ := h.recoverRecord hgroups.1 hrecord
      obtain ⟨r₂, hrest, h₂⟩ := ih h₁ hgroups.2
      refine ⟨r₂, ?_, h₂⟩
      rw [Database.recoverRecords, hrecover]
      exact hrest

end

end PowerLawRocksdb.LogHistory
