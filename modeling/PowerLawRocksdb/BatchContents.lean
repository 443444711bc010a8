import PowerLawRocksdb.BatchGrammar
import PowerLawRocksdb.BatchIterate
import PowerLawRocksdb.WriteGroups

/-!
# The contents of a write batch

A batch stands for a list of entries: its bytes are theirs, and its header counts the
updates among them. Every call that extends a batch, and the merging of the batches of
a write group, keep this. `Iterate` gives a handler exactly these entries.

If a batch is cut short, then `Iterate` finds out unless the cut is between two entries
and no update is lost.
-/
namespace PowerLawRocksdb.BatchGrammar
open Numerals WriteBatch BatchEntries

/-- The entries become a prepare section if a no-op stands in front of them. -/
def prepareSection (xid : Bytes) (writeAfterCommit unpreparedBatch : Bool) :
    List Entry → Option (List Entry)
  | .noop :: rest =>
      some ((if writeAfterCommit then .beginPrepare
        else if unpreparedBatch then .beginUnprepare else .beginPersistedPrepare) ::
          rest ++ [.endPrepare xid])
  | _ => none

/-- The entries after a call, unless it is refused. -/
def Update.extend (entries : List Entry) : Update → Option (List Entry)
  | .put cf key value =>
      if key.length > maxUint32 ∨ value.length > maxUint32 then none
      else some (entries ++ [.put cf key value])
  | .delete cf key => some (entries ++ [.delete cf key])
  | .singleDelete cf key => some (entries ++ [.singleDelete cf key])
  | .deleteRange cf beginKey endKey => some (entries ++ [.deleteRange cf beginKey endKey])
  | .merge cf key value =>
      if key.length > maxUint32 ∨ value.length > maxUint32 then none
      else some (entries ++ [.merge cf key value])
  | .putBlobIndex cf key value => some (entries ++ [.putBlobIndex cf key value])
  | .putLogData blob => some (entries ++ [.logData blob])
  | .insertNoop => some (entries ++ [.noop])
  | .markEndPrepare xid writeAfterCommit unpreparedBatch =>
      prepareSection xid writeAfterCommit unpreparedBatch entries
  | .markCommit xid => some (entries ++ [.commit xid])
  | .markRollback xid => some (entries ++ [.rollback xid])

/-- The lengths that a call does not check. -/
def Update.Fits : Update → Prop
  | .put .. | .merge .. | .insertNoop => True
  | .delete _ key | .singleDelete _ key => key.length ≤ maxUint32
  | .deleteRange _ key value | .putBlobIndex _ key value =>
      key.length ≤ maxUint32 ∧ value.length ≤ maxUint32
  | .putLogData slice | .markEndPrepare slice _ _ | .markCommit slice | .markRollback slice =>
      slice.length ≤ maxUint32

instance (u : Update) : Decidable u.Fits := by
  cases u <;> unfold Update.Fits <;> infer_instance

end PowerLawRocksdb.BatchGrammar

namespace PowerLawRocksdb.BatchContents
open Numerals WriteBatch Readers BatchEntries BatchIterate BatchGrammar WriteGroups

def updateCount (entries : List Entry) : ℕ := entries.countP Entry.counted

def bytesOf (entries : List Entry) : Bytes := (entries.map Entry.bytes).flatten

/-- The batch stands for the entries. The count is kept in 32 bits. -/
structure Represents (rep : Bytes) (entries : List Entry) : Prop where
  header : headerSize ≤ rep.length
  body_eq : body rep = bytesOf entries
  count_eq : count rep = updateCount entries % 2 ^ 32
  fits : ∀ e ∈ entries, e.Fits

/-- What a list of calls leaves in a new batch. -/
def contents (updates : List Update) : List Entry :=
  updates.foldl (fun entries u => (u.extend entries).getD entries) []

theorem bytesOf_append (es fs : List Entry) : bytesOf (es ++ fs) = bytesOf es ++ bytesOf fs := by
  rw [bytesOf, List.map_append, List.flatten_append]
  rfl

theorem bytesOf_singleton (e : Entry) : bytesOf [e] = e.bytes := by
  rw [bytesOf, List.map_singleton, List.flatten_singleton]

theorem updateCount_append (es fs : List Entry) :
    updateCount (es ++ fs) = updateCount es + updateCount fs := List.countP_append

theorem updateCount_cons (e : Entry) (es : List Entry) :
    updateCount (e :: es) = updateCount es + if e.counted then 1 else 0 := List.countP_cons ..

theorem count_setCount {rep : Bytes} (h : headerSize ≤ rep.length) (n : ℕ) (rest : Bytes) :
    count (setCount rep n ++ rest) = n % 2 ^ 32 := by
  have hfront : (rep.take 8).length = 8 := by
    rw [List.length_take, Nat.min_eq_left ((by decide : 8 ≤ headerSize).trans h)]
  have hcount : (littleEndian 4 n).length = 4 := length_littleEndian 4 n
  rw [count, setCount, List.append_assoc, List.append_assoc, List.drop_left' hfront,
    List.take_left' hcount, ofLittleEndian_littleEndian]
  rfl

theorem count_append {rep : Bytes} (h : headerSize ≤ rep.length) (rest : Bytes) :
    count (rep ++ rest) = count rep := by
  have hdrop : 4 ≤ (rep.drop 8).length := by
    rw [List.length_drop]
    unfold headerSize at h
    omega
  have hle : 8 ≤ rep.length := (by decide : 8 ≤ headerSize).trans h
  rw [count, List.drop_append_of_le_length hle, List.take_append_of_le_length hdrop, count]

theorem body_append {rep : Bytes} (h : headerSize ≤ rep.length) (rest : Bytes) :
    body (rep ++ rest) = body rep ++ rest := List.drop_append_of_le_length h

theorem count_setSequence {rep : Bytes} (seq : ℕ) : count (setSequence rep seq) = count rep := by
  have hlen : (littleEndian 8 seq).length = 8 := length_littleEndian ..
  rw [count, setSequence, List.drop_left' hlen, count]

section Represents
variable {rep : Bytes} {entries : List Entry}

theorem represents_empty : Represents empty [] :=
  ⟨length_empty, rfl, rfl, fun _ h => absurd h List.not_mem_nil⟩

theorem Represents.setSequence (h : Represents rep entries) (seq : ℕ) :
    Represents (WriteBatch.setSequence rep seq) entries where
  header := by rw [length_setSequence h.header]; exact h.header
  body_eq := by rw [body_setSequence, h.body_eq]
  count_eq := by rw [count_setSequence, h.count_eq]
  fits := h.fits

/-- The entries `added` are appended, and their updates are counted. -/
theorem Represents.extend (h : Represents rep entries) {added : List Entry}
    (hfits : ∀ e ∈ added, e.Fits) {n : ℕ}
    (hn : n % 2 ^ 32 = (updateCount entries + updateCount added) % 2 ^ 32) :
    Represents (setCount rep n ++ bytesOf added) (entries ++ added) where
  header := le_length_append (le_length_setCount h.header n) _
  body_eq := by rw [body_setCount h.header, h.body_eq, bytesOf_append]
  count_eq := by rw [count_setCount h.header, updateCount_append, hn]
  fits := List.forall_mem_append.mpr ⟨h.fits, hfits⟩

/-- An update is appended. -/
theorem Represents.counted (h : Represents rep entries) {e : Entry} (hfits : e.Fits)
    (hcounted : e.counted = true) :
    Represents (setCount rep (count rep + 1) ++ e.bytes) (entries ++ [e]) := by
  have hcount : updateCount [e] = 1 := by simp [updateCount, hcounted]
  rw [← bytesOf_singleton e]
  apply h.extend
  · exact List.forall_mem_singleton.mpr hfits
  · rw [hcount, h.count_eq, Nat.mod_add_mod]

/-- An entry that is not counted is appended. -/
theorem Represents.uncounted (h : Represents rep entries) {e : Entry} (hfits : e.Fits)
    (hcounted : e.counted = false) : Represents (rep ++ e.bytes) (entries ++ [e]) where
  header := le_length_append h.header _
  body_eq := by rw [body_append h.header, h.body_eq, bytesOf_append, bytesOf_singleton]
  count_eq := by
    rw [count_append h.header, h.count_eq, updateCount_append]
    simp [updateCount, hcounted]
  fits := List.forall_mem_append.mpr ⟨h.fits, List.forall_mem_singleton.mpr hfits⟩

theorem head_bytes_eq_noop {e : Entry} {rest : Bytes} (h : (e.bytes ++ rest).head? = some 13) :
    e = .noop := by
  have htagged : ∀ (a b : UInt8) (cf : ℕ) (s : Bytes), a ≠ 13 → b ≠ 13 →
      (tagged a b cf ++ s).head? ≠ some 13 := by
    intro a b cf s ha hb
    unfold tagged
    split_ifs <;> simpa
  cases e with
  | noop => rfl
  | put cf key value | merge cf key value | putBlobIndex cf key value | deleteRange cf key value =>
      rw [Entry.bytes, List.append_assoc, List.append_assoc] at h
      exact absurd h (htagged _ _ _ _ (by decide) (by decide))
  | delete cf key | singleDelete cf key =>
      rw [Entry.bytes, List.append_assoc] at h
      exact absurd h (htagged _ _ _ _ (by decide) (by decide))
  | logData slice | endPrepare slice | commit slice | rollback slice | beginPrepare
  | beginPersistedPrepare | beginUnprepare => exact absurd h (by simp [Entry.bytes])

/-- The no-op in front becomes the begin marker, and the end marker is appended. -/
theorem Represents.markEndPrepare {rest : List Entry} {tag : UInt8} {xid : Bytes}
    (h : Represents rep (.noop :: rest)) (begins : Entry) (hbegins : begins.bytes = [tag])
    (hslices : begins.slices = []) (hcounted : begins.counted = false)
    (hxid : xid.length ≤ maxUint32) :
    Represents (rep.set 12 tag ++ (10 :: lengthPrefixed xid))
      (begins :: rest ++ [.endPrepare xid]) := by
  have hset : Represents (rep.set 12 tag) (begins :: rest) := by
    have hbody : body (rep.set 12 tag) = (body rep).set 0 tag := by
      rw [body, List.drop_set, if_neg (by decide)]
      rfl
    have hcount : count (rep.set 12 tag) = count rep := by
      rw [count, List.drop_set, if_neg (by decide), List.take_set_of_le (by decide), count]
    refine ⟨?_, ?_, ?_, ?_⟩
    · rw [List.length_set]
      exact h.header
    · rw [hbody, h.body_eq, bytesOf, bytesOf, List.map_cons, List.map_cons, hbegins]
      rfl
    · rw [hcount, h.count_eq]
      rw [updateCount, updateCount, List.countP_cons_of_neg (by decide),
        List.countP_cons_of_neg (by simp [hcounted])]
    · intro e he
      rcases List.mem_cons.mp he with rfl | he
      · rw [Entry.Fits, hslices]
        exact fun _ hs => absurd hs List.not_mem_nil
      · exact h.fits e (List.mem_cons_of_mem _ he)
  exact hset.uncounted (e := .endPrepare xid) (List.forall_mem_singleton.mpr hxid) rfl

theorem Represents.head_eq (h : Represents rep entries) :
    rep[12]? = some 13 ↔ ∃ rest, entries = .noop :: rest := by
  have hhead : rep[12]? = (bytesOf entries).head? := by
    rw [← h.body_eq, body, List.head?_drop]
    rfl
  rw [hhead]
  constructor
  · intro hnoop
    cases entries with
    | nil => cases hnoop
    | cons e rest =>
        rw [bytesOf, List.map_cons, List.flatten_cons] at hnoop
        exact ⟨rest, by rw [head_bytes_eq_noop hnoop]⟩
  · rintro ⟨rest, rfl⟩
    rfl

theorem entry_pair (rep : Bytes) (defaultTag otherTag : UInt8) (cf : UInt32) (key value : Bytes) :
    entry rep defaultTag otherTag cf [key, value] = setCount rep (count rep + 1) ++
      (tagged defaultTag otherTag cf.toNat ++ lengthPrefixed key ++ lengthPrefixed value) := by
  simp [entry]

theorem entry_single (rep : Bytes) (defaultTag otherTag : UInt8) (cf : UInt32) (key : Bytes) :
    entry rep defaultTag otherTag cf [key] = setCount rep (count rep + 1) ++
      (tagged defaultTag otherTag cf.toNat ++ lengthPrefixed key) := by
  simp [entry]

theorem fits_pair {e : Entry} {key value : Bytes} (he : e.slices = [key, value])
    (hkey : key.length ≤ maxUint32) (hvalue : value.length ≤ maxUint32) : e.Fits := by
  rw [Entry.Fits, he]
  exact List.forall_mem_cons.mpr ⟨hkey, List.forall_mem_singleton.mpr hvalue⟩

/-- Every call keeps the correspondence, also one that is refused. -/
theorem Represents.apply (h : Represents rep entries) {u : Update} (hu : u.Fits) :
    Represents ((u.apply rep).toOption.getD rep) ((u.extend entries).getD entries) := by
  have hmarker : ∀ {e : Entry} {slice : Bytes}, e.slices = [slice] → slice.length ≤ maxUint32 →
      e.Fits := by
    intro e slice he hslice
    rw [Entry.Fits, he]
    exact List.forall_mem_singleton.mpr hslice
  cases u with
  | put cf key value =>
      rw [Update.apply, WriteBatch.put, Update.extend]
      by_cases hkey : key.length > maxUint32
      · rw [if_pos hkey, if_pos (.inl hkey)]
        exact h
      by_cases hvalue : value.length > maxUint32
      · rw [if_neg hkey, if_pos hvalue, if_pos (.inr hvalue)]
        exact h
      rw [if_neg hkey, if_neg hvalue, if_neg (not_or.mpr ⟨hkey, hvalue⟩), List.append_assoc,
        List.append_assoc, ← List.append_assoc (tagged ..)]
      exact h.counted (e := .put cf key value)
        (fits_pair rfl (Nat.le_of_not_lt hkey) (Nat.le_of_not_lt hvalue)) rfl
  | merge cf key value =>
      rw [Update.apply, BatchGrammar.merge, Update.extend]
      by_cases hkey : key.length > maxUint32
      · rw [if_pos hkey, if_pos (.inl hkey)]
        exact h
      by_cases hvalue : value.length > maxUint32
      · rw [if_neg hkey, if_pos hvalue, if_pos (.inr hvalue)]
        exact h
      rw [if_neg hkey, if_neg hvalue, if_neg (not_or.mpr ⟨hkey, hvalue⟩), entry_pair]
      exact h.counted (e := .merge cf key value)
        (fits_pair rfl (Nat.le_of_not_lt hkey) (Nat.le_of_not_lt hvalue)) rfl
  | markEndPrepare xid writeAfterCommit unpreparedBatch =>
      rw [Update.apply, BatchGrammar.markEndPrepare]
      by_cases hnoop : rep[12]? = some 13
      · obtain ⟨rest, rfl⟩ := h.head_eq.mp hnoop
        rw [if_pos hnoop]
        cases writeAfterCommit with
        | true => exact h.markEndPrepare .beginPrepare rfl rfl rfl hu
        | false =>
            cases unpreparedBatch with
            | true => exact h.markEndPrepare .beginUnprepare rfl rfl rfl hu
            | false => exact h.markEndPrepare .beginPersistedPrepare rfl rfl rfl hu
      · rw [if_neg hnoop]
        rw [Update.extend, prepareSection]
        · exact h
        · exact fun rest hrest => hnoop (h.head_eq.mpr ⟨rest, hrest⟩)
  | delete cf key =>
      rw [Update.apply, WriteBatch.delete, List.append_assoc]
      exact h.counted (e := .delete cf key) (hmarker rfl hu) rfl
  | singleDelete cf key =>
      rw [Update.apply, BatchGrammar.singleDelete, entry_single]
      exact h.counted (e := .singleDelete cf key) (hmarker rfl hu) rfl
  | deleteRange cf key value =>
      rw [Update.apply, BatchGrammar.deleteRange, entry_pair]
      exact h.counted (e := .deleteRange cf key value) (fits_pair rfl hu.1 hu.2) rfl
  | putBlobIndex cf key value =>
      rw [Update.apply, BatchGrammar.putBlobIndex, entry_pair]
      exact h.counted (e := .putBlobIndex cf key value) (fits_pair rfl hu.1 hu.2) rfl
  | putLogData slice => exact h.uncounted (e := .logData slice) (hmarker rfl hu) rfl
  | markCommit slice => exact h.uncounted (e := .commit slice) (hmarker rfl hu) rfl
  | markRollback slice => exact h.uncounted (e := .rollback slice) (hmarker rfl hu) rfl
  | insertNoop => exact h.uncounted (e := .noop) (List.forall_mem_nil _) rfl

end Represents

theorem represents_build {updates : List Update} (h : ∀ u ∈ updates, u.Fits) :
    Represents (build updates) (contents updates) := by
  have hall : ∀ {rep : Bytes} {entries : List Entry}, Represents rep entries →
      Represents (updates.foldl (fun rep u => (u.apply rep).toOption.getD rep) rep)
        (updates.foldl (fun entries u => (u.extend entries).getD entries) entries) := by
    induction updates with
    | nil => exact fun hrep => hrep
    | cons u updates ih =>
        intro rep entries hrep
        rw [List.foldl_cons, List.foldl_cons]
        exact ih (fun v hv => h v (List.mem_cons_of_mem u hv))
          (hrep.apply (h u List.mem_cons_self))
  exact hall represents_empty

/-- What a writer of a group adds to the log. Its batch may go on behind the termination
point. -/
def Logged (w : GroupWriter) (entries : List Entry) : Prop :=
  ∃ rest, Represents w.batch (entries ++ rest) ∧
    match w.terminationPoint with
    | none => rest = []
    | some (size, n) =>
        size = headerSize + (bytesOf entries).length ∧ n % 2 ^ 32 = updateCount entries % 2 ^ 32

theorem Represents.append {dst : Bytes} {entries : List Entry} (h : Represents dst entries)
    {w : GroupWriter} {added : List Entry} (hw : Logged w added) :
    Represents (WriteGroups.append dst w) (entries ++ added) := by
  obtain ⟨rest, hbatch, hpoint⟩ := hw
  have hfits : ∀ e ∈ added, e.Fits := fun e he => hbatch.fits e (List.mem_append_left rest he)
  have hcount : ∀ {n}, n % 2 ^ 32 = updateCount added % 2 ^ 32 →
      (count dst + n) % 2 ^ 32 = (updateCount entries + updateCount added) % 2 ^ 32 := by
    intro n hn
    rw [h.count_eq, Nat.mod_add_mod, Nat.add_mod, hn, ← Nat.add_mod]
  rw [WriteGroups.append]
  cases hterm : w.terminationPoint with
  | none =>
      rw [hterm] at hpoint
      subst hpoint
      rw [List.append_nil] at hbatch
      dsimp only
      rw [hbatch.body_eq]
      apply h.extend hfits
      apply hcount
      rw [hbatch.count_eq, Nat.mod_mod]
  | some point =>
      rw [hterm] at hpoint
      have htake : (body w.batch).take (point.1 - headerSize) = bytesOf added := by
        rw [hpoint.1, Nat.add_sub_cancel_left, hbatch.body_eq, bytesOf_append, List.take_left]
      dsimp only
      rw [htake]
      exact h.extend hfits (hcount hpoint.2)

/-- The same for a writer whose callback may have failed. -/
def Adds (w : GroupWriter) (added : List Entry) : Prop :=
  if w.callbackFailed then added = [] else Logged w added

theorem Represents.appendAll {group : List GroupWriter} {parts : List (List Entry)}
    (hgroup : List.Forall₂ Adds group parts) {dst : Bytes} {es : List Entry}
    (h : Represents dst es) :
    Represents (WriteGroups.appendAll dst group) (es ++ parts.flatten) := by
  induction hgroup generalizing dst es with
  | nil => rwa [List.flatten_nil, List.append_nil]
  | @cons w added group parts hw _ ih =>
      rw [WriteGroups.appendAll, List.foldl_cons, List.flatten_cons]
      rw [Adds] at hw
      split_ifs at hw ⊢ with hfailed
      · subst hw
        exact ih h
      · rw [← List.append_assoc]
        exact ih (h.append hw)

/-- The batch that is logged for a group. -/
theorem represents_mergeBatch {group : List GroupWriter} {parts : List (List Entry)}
    (hgroup : List.Forall₂ Adds group parts) :
    Represents (mergeBatch group) parts.flatten := by
  have hmerged := represents_empty.appendAll hgroup
  rw [List.nil_append] at hmerged
  match hgroup with
  | .nil => exact hmerged
  | @List.Forall₂.cons _ _ _ leader added _ _ hw .nil =>
      rw [mergeBatch]
      split_ifs with halone
      · simp only [Bool.and_eq_true, Bool.not_eq_true', Option.isNone_iff_eq_none] at halone
        rw [Adds, halone.1, if_neg (by decide)] at hw
        obtain ⟨rest, hbatch, hpoint⟩ := hw
        rw [halone.2] at hpoint
        subst hpoint
        simpa using hbatch
      · exact hmerged
  | .cons _ (.cons _ _) => exact hmerged

/-- What a group adds to the log, writer by writer. -/
def groupEntries (entries : GroupWriter → List Entry) (group : List GroupWriter) : List Entry :=
  (group.filter fun w => !w.callbackFailed).flatMap entries

theorem exists_adds {entries : GroupWriter → List Entry} {group : List GroupWriter}
    (hgroup : ∀ w ∈ group, w.callbackFailed = false → Logged w (entries w)) :
    ∃ parts, List.Forall₂ Adds group parts ∧ parts.flatten = groupEntries entries group := by
  induction group with
  | nil => exact ⟨[], .nil, rfl⟩
  | cons w group ih =>
      obtain ⟨parts, hparts, hflatten⟩ := ih fun v hv => hgroup v (List.mem_cons_of_mem w hv)
      rw [groupEntries] at hflatten ⊢
      cases hfailed : w.callbackFailed with
      | true =>
          refine ⟨[] :: parts, .cons ?_ hparts, ?_⟩
          · rw [Adds, if_pos hfailed]
          · rw [List.flatten_cons, List.nil_append, hflatten,
              List.filter_cons_of_neg (by simp [hfailed])]
      | false =>
          refine ⟨entries w :: parts, .cons ?_ hparts, ?_⟩
          · rw [Adds, if_neg (by simp [hfailed])]
            exact hgroup w List.mem_cons_self hfailed
          · rw [List.flatten_cons, hflatten, List.filter_cons_of_pos (by simp [hfailed]),
              List.flatMap_cons]

section Iterate
variable {σ : Type*} (h : Handler σ) {rep : Bytes} {entries : List Entry}

/-- A handler is given the entries that the batch stands for. -/
theorem Represents.iterate_eq (hrep : Represents rep entries) (s : σ) :
    h.iterate rep s = h.run (updateCount entries % 2 ^ 32) none entries .start s := by
  have hmany : many readEntry (body rep).length (body rep) = (entries, []) := by
    rw [hrep.body_eq]
    exact many_flatten (Entry.spelling hrep.fits)
  rw [h.iterate_eq hrep.header, hrep.count_eq, entriesOf, failureOf, hmany]
  rfl

end Iterate

/-- The record that is logged for a write group gives a handler the entries of its
members in order, up to the termination points and without members whose callback
failed. In the source the count and the number of updates found are of the type `int`,
which has these values below `2 ^ 31`. -/
theorem iterate_logged_group {σ : Type*} (h : Handler σ) (entries : GroupWriter → List Entry)
    (group : List GroupWriter)
    (hgroup : ∀ w ∈ group, w.callbackFailed = false → Logged w (entries w))
    (hcount : updateCount (groupEntries entries group) < 2 ^ 32) (sequence : ℕ) (s : σ) :
    h.iterate (setSequence (mergeBatch group) sequence) s =
      h.run (updateCount (groupEntries entries group)) none (groupEntries entries group)
        .start s := by
  obtain ⟨parts, hparts, hflatten⟩ := exists_adds hgroup
  have hrep := (represents_mergeBatch hparts).setSequence sequence
  rw [hrep.iterate_eq h, hflatten, Nat.mod_eq_of_lt hcount]

/-- A transaction that commits, with its prepared updates behind the termination point,
a writer whose callback failed, and a plain one. -/
def sampleGroup : List GroupWriter :=
  [⟨build [.put 0 [1] [2], .markCommit [7], .delete 0 [3]], false,
      some ((build [.put 0 [1] [2], .markCommit [7]]).length, 1)⟩,
    ⟨build [.merge 0 [4] [5]], true, none⟩, plain (build [.delete 1 [6]])]

def sampleEntries (w : GroupWriter) : List Entry :=
  if w.terminationPoint.isSome then [.put 0 [1] [2], .commit [7]] else [.delete 1 [6]]

theorem iterate_logged_group_commit :
    classifier.iterate (setSequence (mergeBatch sampleGroup) 9) 0 =
      classifier.run 2 none [.put 0 [1] [2], .commit [7], .delete 1 [6]] .start 0 := by
  refine iterate_logged_group classifier sampleEntries sampleGroup ?_ (by decide) 9 0
  intro w hw hok
  simp only [sampleGroup, List.mem_cons, List.not_mem_nil, or_false] at hw
  rcases hw with rfl | rfl | rfl
  · exact ⟨[.delete 0 [3]], represents_build (by decide), by decide⟩
  · cases hok
  · exact ⟨[], represents_build (by decide), rfl⟩

section Cut
variable {σ : Type*} {h : Handler σ}

theorem dispatch_found {e : Entry} {p p' : Progress} {s s' : σ}
    (hok : h.dispatch e p s = some (.ok, p', s')) :
    p'.found = p.found + if e.counted then 1 else 0 := by
  cases e with
  | put cf key value | delete cf key | singleDelete cf key | deleteRange cf beginKey endKey
  | merge cf key value =>
      obtain ⟨⟨status, t⟩, -, heq⟩ := Option.map_eq_some_iff.mp hok
      simp only [counts, Prod.mk.injEq] at heq
      obtain ⟨rfl, hp, -⟩ := heq
      rw [← hp]
      rfl
  | putBlobIndex cf key value =>
      obtain ⟨⟨status, t⟩, -, heq⟩ := Option.map_eq_some_iff.mp hok
      simp only [Prod.mk.injEq] at heq
      obtain ⟨rfl, hp, -⟩ := heq
      rw [← hp]
      rfl
  | logData blob =>
      cases hok
      rfl
  | beginPrepare | beginPersistedPrepare | beginUnprepare | endPrepare xid | commit xid
  | rollback xid | noop =>
      obtain ⟨r, -, heq⟩ := Option.map_eq_some_iff.mp hok
      simp only [Prod.mk.injEq] at heq
      rw [← heq.2.1]
      rfl

theorem feed_found {entries : List Entry} {p p' : Progress} {s s' : σ}
    (hfeed : h.feed entries p s = some (p', s')) : p'.found = p.found + updateCount entries := by
  induction entries generalizing p s with
  | nil =>
      cases hfeed
      rfl
  | cons e entries ih =>
      obtain ⟨⟨status, q, t⟩, hdispatch, hrest⟩ := Option.bind_eq_some_iff.mp hfeed
      split_ifs at hrest with hstatus
      dsimp only at hstatus
      subst hstatus
      rw [ih hrest, dispatch_found hdispatch, updateCount_cons]
      omega

/-- A batch whose entries are all accepted is accepted. -/
theorem Represents.iterate_of_feed {rep : Bytes} {entries : List Entry}
    (hrep : Represents rep entries) (hcount : updateCount entries < 2 ^ 32)
    (hgo : ∀ s, h.continues s = (true, s)) {p : Progress} {s s' : σ}
    (hfeed : h.feed entries .start s = some (p, s')) : h.iterate rep s = some (.ok, s') := by
  have hfound := feed_found hfeed
  rw [Progress.start, Nat.zero_add] at hfound
  rw [hrep.iterate_eq h, Nat.mod_eq_of_lt hcount, Handler.run_of_feed hgo hfeed, hfound, finish,
    if_pos rfl]

/-- The handler goes on after each of the entries. -/
structure Accepts (h : Handler σ) (entries : List Entry) : Prop where
  continues : ∀ s, (h.continues s).1 = true
  dispatch : ∀ e ∈ entries, ∀ p s, ∃ p' s', h.dispatch e p s = some (.ok, p', s')

/-- Only the reader and the count can then fail. -/
theorem Accepts.run_eq {entries : List Entry} (hacc : Accepts h entries) (count : ℕ)
    (failure : Option String) (p : Progress) (s : σ) :
    ∃ s', h.run count failure entries p s = some ((match failure with
      | none => finish count (p.found + updateCount entries)
      | some message => .corruption message), s') := by
  induction entries generalizing p s with
  | nil =>
      cases failure with
      | none => exact ⟨s, rfl⟩
      | some message =>
          refine ⟨(h.continues s).2, ?_⟩
          simp only [Handler.run, hacc.continues]
          rfl
  | cons e entries ih =>
      obtain ⟨p', t, hdispatch⟩ := hacc.dispatch e List.mem_cons_self p (h.continues s).2
      have hrest : Accepts h entries :=
        ⟨hacc.continues, fun e' he => hacc.dispatch e' (List.mem_cons_of_mem e he)⟩
      obtain ⟨s', ih⟩ := ih hrest p' t
      have hattempt := Handler.attempt_of_ok hdispatch
      have hcount : p.found + updateCount (e :: entries) = p'.found + updateCount entries := by
        rw [dispatch_found hdispatch, updateCount_cons]
        omega
      refine ⟨s', ?_⟩
      simp only [Handler.run, hacc.continues, hattempt, hcount, ← ih]
      rfl

theorem body_take (rep : Bytes) (n : ℕ) : body (rep.take n) = (body rep).take (n - headerSize) := by
  rw [body, List.drop_take, body]

theorem count_take (rep : Bytes) {n : ℕ} (hn : headerSize ≤ n) :
    count (rep.take n) = count rep := by
  have hle : 4 ≤ n - 8 := by
    unfold headerSize at hn
    omega
  rw [count, List.drop_take, List.take_take, Nat.min_eq_left hle, count]

/-- What can be read in front of a cut, and why nothing behind it can. -/
theorem Represents.cut {entries : List Entry} {rep : Bytes} (hrep : Represents rep entries)
    {n : ℕ} (hheader : headerSize ≤ n) (hn : n ≤ rep.length) :
    ∃ kept lost failure, entries = kept ++ lost ∧ entriesOf (body (rep.take n)) = kept ∧
      failureOf (body (rep.take n)) = failure ∧
      (failure = none → n = headerSize + (bytesOf kept).length) := by
  have hlen : (body (rep.take n)).length = n - headerSize := by
    rw [body, List.length_drop, List.length_take, Nat.min_eq_left hn]
  obtain ⟨kept, lost, part, rfl, htake, hmany, hpart⟩ :=
    many_take local_readEntry (Entry.spelling hrep.fits) (n - headerSize)
  have hbody : body (rep.take n) = bytesOf kept ++ part := by
    rw [body_take, hrep.body_eq]
    exact htake
  refine ⟨kept, lost, failureAt part, rfl, ?_, ?_, ?_⟩
  · rw [entriesOf, body_take, hrep.body_eq, bytesOf, hmany]
  · rw [failureOf, body_take, hrep.body_eq, bytesOf, hmany]
  · intro hnone
    cases part with
    | nil => rw [← List.append_nil (bytesOf kept), ← hbody, hlen, Nat.add_sub_of_le hheader]
    | cons b part =>
        have hread := hpart (List.cons_ne_nil b part)
        rw [failureAt] at hnone
        cases hrecord : readRecordFromWriteBatch (b :: part) with
        | error message =>
            rw [hrecord] at hnone
            cases hnone
        | ok r =>
            rw [readEntry_eq_some.mpr hrecord] at hread
            cases hread

/-- In front of a cut between two entries everything is read. -/
theorem Represents.cut_between {kept lost : List Entry} {rep : Bytes}
    (hrep : Represents rep (kept ++ lost)) {n : ℕ} (hn : n = headerSize + (bytesOf kept).length) :
    entriesOf (body (rep.take n)) = kept ∧ failureOf (body (rep.take n)) = none := by
  have hfits : ∀ e ∈ kept, e.Fits := fun e he => hrep.fits e (List.mem_append_left lost he)
  have hbody : body (rep.take n) = bytesOf kept := by
    rw [body_take, hrep.body_eq, hn, Nat.add_sub_cancel_left, bytesOf_append, List.take_left]
  have hmany := many_flatten (Entry.spelling hfits)
  rw [entriesOf, failureOf, hbody, bytesOf, hmany]
  exact ⟨rfl, rfl⟩

end Cut

/-- A batch that is cut short is accepted only if the cut is between two entries and no
update is lost. -/
theorem iterate_cut_iff {σ : Type*} (h : Handler σ) (entries : List Entry) (rep : Bytes)
    (hrep : Represents rep entries) (hcount : updateCount entries < 2 ^ 31)
    (hacc : Accepts h entries) (n : ℕ) (hn : n ≤ rep.length) (s : σ) :
    (∃ s', h.iterate (rep.take n) s = some (.ok, s')) ↔
      ∃ kept lost, entries = kept ++ lost ∧ n = headerSize + (bytesOf kept).length ∧
        updateCount lost = 0 := by
  have hlen : (rep.take n).length = n := by rw [List.length_take, Nat.min_eq_left hn]
  rcases Nat.lt_or_ge n headerSize with hshort | hheader
  · rw [Handler.iterate, if_pos (by rwa [hlen])]
    constructor
    · rintro ⟨s', hs⟩
      cases hs
    · rintro ⟨kept, lost, -, hcut, -⟩
      omega
  have hiterate : h.iterate (rep.take n) s = h.run (updateCount entries)
      (failureOf (body (rep.take n))) (entriesOf (body (rep.take n))) .start s := by
    rw [h.iterate_eq (by rwa [hlen]), count_take rep hheader, hrep.count_eq,
      Nat.mod_eq_of_lt (by omega)]
  have haccepts : ∀ {kept lost}, entries = kept ++ lost → Accepts h kept := by
    rintro kept lost rfl
    exact ⟨hacc.continues, fun e he => hacc.dispatch e (List.mem_append_left lost he)⟩
  constructor
  · rintro ⟨s', hs⟩
    obtain ⟨kept, lost, failure, heq, hkept, hfailure, hcut⟩ := hrep.cut hheader hn
    obtain ⟨t, hrun⟩ := (haccepts heq).run_eq (updateCount entries) failure .start s
    rw [hiterate, hkept, hfailure, hrun] at hs
    have hstatus := congrArg Prod.fst (Option.some.inj hs)
    cases failure with
    | some message => cases hstatus
    | none =>
        refine ⟨kept, lost, heq, hcut rfl, ?_⟩
        dsimp only [finish, Progress.start] at hstatus
        split_ifs at hstatus with hfound
        rw [heq, updateCount_append] at hfound
        omega
  · rintro ⟨kept, lost, rfl, hcut, hlost⟩
    obtain ⟨hkept, hfailure⟩ := hrep.cut_between hcut
    obtain ⟨t, hrun⟩ := (haccepts rfl).run_eq (updateCount (kept ++ lost)) none .start s
    refine ⟨t, ?_⟩
    rw [hiterate, hkept, hfailure, hrun, updateCount_append, hlost, finish, Progress.start,
      Nat.zero_add, Nat.add_zero, if_pos rfl]

/-- Log data at the end can be lost unnoticed. An update cannot. -/
theorem iterate_cut_iff_logData :
    (∃ flags, classifier.iterate ((build [.put 0 [1] [2], .putLogData [3]]).take 17) 0 =
      some (.ok, flags)) ∧
      ¬ ∃ flags, classifier.iterate ((build [.put 0 [1] [2], .putLogData [3]]).take 12) 0 =
        some (.ok, flags) := by
  have hrep : Represents (build [.put 0 [1] [2], .putLogData [3]])
      [.put 0 [1] [2], .logData [3]] := represents_build (by decide)
  have hacc : Accepts classifier [.put 0 [1] [2], .logData [3]] := by
    refine ⟨fun _ => rfl, ?_⟩
    intro e he p s
    simp only [List.mem_cons, List.not_mem_nil, or_false] at he
    rcases he with rfl | rfl
    · exact ⟨_, _, rfl⟩
    · exact ⟨_, _, rfl⟩
  constructor
  · rw [iterate_cut_iff classifier _ _ hrep (by decide) hacc 17 (by decide)]
    exact ⟨[.put 0 [1] [2]], [.logData [3]], rfl, rfl, rfl⟩
  · rw [iterate_cut_iff classifier _ _ hrep (by decide) hacc 12 (by decide)]
    rintro ⟨kept, lost, heq, hcut, hlost⟩
    cases kept with
    | nil =>
        rw [List.nil_append] at heq
        subst heq
        cases hlost
    | cons e kept =>
        rw [List.cons_append, List.cons.injEq] at heq
        rw [← heq.1, bytesOf, List.map_cons, List.flatten_cons, List.length_append] at hcut
        have hlen : (Entry.bytes (.put 0 [1] [2])).length = 5 := rfl
        rw [hlen, headerSize] at hcut
        omega

end PowerLawRocksdb.BatchContents
