import PowerLawRocksdb.LogWriter
import PowerLawRocksdb.LogReader

/-!
# Reading back what was written

A reader stands at a block offset in front of the unread rest of the file: its
buffer holds the rest of the current block, as far as the file goes. From there it
reads a whole fragment as the writer stored it, and takes a fragment that the file
cuts off for the end of the file. Along the fragments of a record this gives the
record, or the end of the log if the record is torn.
-/
namespace PowerLawRocksdb.LogReplay
open Numerals LogFormat LogWriter LogReader

variable {crc : Crc32c}

/-- The reader stands at block offset `o`, and `rest` is left of the file. -/
structure At (r : Reader) (o : ℕ) (rest : Bytes) : Prop where
  buffer : r.buffer = rest.take (blockSize - o)
  file : r.file = rest.drop (blockSize - o)
  eof : r.eof = decide (rest.length < blockSize - o)

theorem at_init (file : Bytes) (checksum : Bool) (logNumber : ℕ) :
    At (Reader.init file checksum logNumber) blockSize file := by
  constructor
  · simp [Reader.init]
  · simp [Reader.init]
  · simp [Reader.init]

theorem At.length {r : Reader} {o : ℕ} {rest : Bytes} (h : At r o rest) :
    r.buffer.length + r.file.length = rest.length := by
  rw [h.buffer, h.file, ← List.length_append, List.take_append_drop]

theorem At.readMore {r : Reader} {o : ℕ} {rest : Bytes} (h : At r o rest)
    (hfull : blockSize - o ≤ rest.length) :
    ∃ r', r.readMore = (r', none) ∧ At r' 0 (rest.drop (blockSize - o)) := by
  have heof : r.eof = false := by
    rw [h.eof]
    exact decide_eq_false (by omega)
  unfold Reader.readMore
  rw [heof]
  refine ⟨_, rfl, ?_⟩
  constructor
  · rw [h.file, Nat.sub_zero]
  · rw [h.file, Nat.sub_zero]
  · simp only [h.file, List.length_take, Nat.sub_zero]
    rw [decide_eq_decide]
    omega

/-- The codes that end a log which is not corrupt. -/
def Ends (p : Physical) : Prop := p.code = ReadCode.eof.code ∨ p.code = ReadCode.badHeader.code

theorem At.readMore_end {r : Reader} {o : ℕ} {rest : Bytes} (h : At r o rest)
    (hend : rest.length < blockSize - o) :
    ∃ code dropSize, r.readMore = ({ r with buffer := [] }, some (code, dropSize)) ∧
      Ends ⟨code.code, [], dropSize⟩ := by
  have heof : r.eof = true := by
    rw [h.eof]
    exact decide_eq_true hend
  unfold Reader.readMore
  rw [heof]
  by_cases hbuf : r.buffer.length = 0
  · exact ⟨.eof, 0, by simp [hbuf], Or.inl rfl⟩
  · exact ⟨.badHeader, r.buffer.length, by simp [hbuf], Or.inr rfl⟩

variable (crc) in
def header (t : RecordType) (payload : Bytes) : Bytes :=
  littleEndian 4 (mask (crc.value (t.code.toUInt8 :: payload))).toNat ++
    littleEndian 2 payload.length ++ [t.code.toUInt8]

theorem physicalRecord_eq (t : RecordType) (payload : Bytes) :
    physicalRecord crc t payload = header crc t payload ++ payload := rfl

@[simp] theorem length_header (t : RecordType) (payload : Bytes) :
    (header crc t payload).length = headerSize := by
  unfold header headerSize
  simp only [List.length_append, length_littleEndian, List.length_singleton]

section Header
variable (t : RecordType) (payload more : Bytes)

theorem header_type : (header crc t payload ++ more).getD 6 0 = t.code.toUInt8 := rfl

theorem header_length : ((header crc t payload ++ more).drop 4).take 2 =
    littleEndian 2 payload.length := rfl

theorem header_crc : (header crc t payload ++ more).take 4 =
    littleEndian 4 (mask (crc.value (t.code.toUInt8 :: payload))).toNat := rfl

theorem header_checked : (header crc t payload ++ more).drop 6 = t.code.toUInt8 :: more := rfl

theorem header_rest : (header crc t payload ++ more).drop headerSize = more := rfl

end Header

/-- A type that a writer without recycling uses. -/
def Plain (t : RecordType) : Prop := t.recyclable = false ∧ t ≠ .zero

theorem plain_fragmentType (isBegin isEnd : Bool) : Plain (fragmentType false isBegin isEnd) := by
  cases isBegin <;> cases isEnd <;> exact ⟨rfl, by decide⟩

theorem charCode_code (t : RecordType) : charCode t.code.toUInt8 = t.code := by
  cases t <;> rfl

/-- With a plain header in the buffer, the loop ends in its first turn. -/
theorem physicalLoop_header {r : Reader} {t : RecordType} (ht : Plain t) {payload more : Bytes}
    (hbuf : r.buffer = header crc t payload ++ more) (hn : payload.length ≤ blockSize) (fuel : ℕ) :
    Reader.physicalLoop crc (fuel + 1) r =
      some (r.takeRecord crc t.code payload.length headerSize) := by
  have hlen : ¬ r.buffer.length < headerSize := by
    rw [hbuf, List.length_append, length_header]
    omega
  have hrec : ¬ (RecordType.recyclableFull.code ≤ t.code ∧
      t.code ≤ RecordType.recyclableLast.code) := by
    intro h
    have := ht.1
    simp only [RecordType.recyclable, decide_eq_false_iff_not] at this
    exact this h.1
  have hlength : ofLittleEndian ((r.buffer.drop 4).take 2) = payload.length := by
    rw [hbuf, header_length, ofLittleEndian_littleEndian]
    apply Nat.mod_eq_of_lt
    unfold blockSize at hn
    omega
  unfold Reader.physicalLoop
  simp only [hlen, if_false, hlength]
  rw [hbuf, header_type, charCode_code, if_neg hrec]

theorem toUInt32_ofLittleEndian (x : UInt32) :
    (ofLittleEndian (littleEndian 4 x.toNat)).toUInt32 = x := by
  have hx : x.toNat % 256 ^ 4 = x.toNat := Nat.mod_eq_of_lt x.toNat_lt
  rw [ofLittleEndian_littleEndian, hx]
  exact UInt32.ofNat_toNat

theorem takeRecord_whole {r : Reader} {t : RecordType} (ht : Plain t) {payload tail : Bytes}
    (hbuf : r.buffer = header crc t payload ++ (payload ++ tail)) :
    r.takeRecord crc t.code payload.length headerSize =
      (⟨t.code, payload, 0⟩, { r with buffer := tail }) := by
  have hsize : ¬ headerSize + payload.length > r.buffer.length := by
    rw [hbuf, List.length_append, length_header, List.length_append]
    omega
  have hzero : ¬ (t.code = RecordType.zero.code ∧ payload.length = 0) := by
    intro h
    apply ht.2
    cases t <;> simp [RecordType.code] at h ⊢
  have hcrc : ¬ (r.checksum ∧ crc.value ((r.buffer.drop 6).take (payload.length + headerSize - 6)) ≠
      unmask (ofLittleEndian (r.buffer.take 4)).toUInt32) := by
    rintro ⟨-, h⟩
    apply h
    rw [hbuf, header_crc, toUInt32_ofLittleEndian, unmask_mask, header_checked,
      show payload.length + headerSize - 6 = payload.length + 1 from rfl, List.take_succ_cons,
      List.take_left]
  have hdrop : r.buffer.drop (headerSize + payload.length) = tail := by
    rw [← List.drop_drop, hbuf, header_rest, List.drop_left]
  unfold Reader.takeRecord
  simp only [hsize, if_false, hzero, hcrc, hdrop]
  rw [hbuf, header_rest, List.take_left]

/-- A fragment that the file cuts off behind its header ends the log. -/
theorem takeRecord_torn {r : Reader} {t : RecordType} {payload more : Bytes}
    (hbuf : r.buffer = header crc t payload ++ more) (hmore : more.length < payload.length)
    (heof : r.eof = true) :
    ∃ p, r.takeRecord crc t.code payload.length headerSize = (p, { r with buffer := [] }) ∧
      Ends p := by
  have hlen : r.buffer.length = headerSize + more.length := by
    rw [hbuf, List.length_append, length_header]
  have hsize : headerSize + payload.length > r.buffer.length := by omega
  have hne : r.buffer.length ≠ 0 := by
    rw [hlen]
    unfold headerSize
    omega
  refine ⟨⟨ReadCode.badHeader.code, [], r.buffer.length⟩, ?_, Or.inr rfl⟩
  unfold Reader.takeRecord
  simp only [hsize, if_true, heof, Bool.not_true, Bool.false_eq_true, if_false, hne, ne_eq,
    not_false_eq_true]

theorem physicalLoop_more {r r' : Reader} (hbuf : r.buffer.length < headerSize)
    (hmore : r.readMore = (r', none)) (fuel : ℕ) :
    Reader.physicalLoop crc (fuel + 1) r = Reader.physicalLoop crc fuel r' := by
  conv_lhs => unfold Reader.physicalLoop
  simp only [hbuf, if_true, hmore]

theorem physicalLoop_end {r r' : Reader} {code : ReadCode} {dropSize : ℕ}
    (hbuf : r.buffer.length < headerSize) (hmore : r.readMore = (r', some (code, dropSize)))
    (fuel : ℕ) : Reader.physicalLoop crc (fuel + 1) r = some (⟨code.code, [], dropSize⟩, r') := by
  unfold Reader.physicalLoop
  simp only [hbuf, if_true, hmore]

/-- In front of a whole fragment the reader returns it and moves behind it. -/
theorem At.fragment {r : Reader} {o : ℕ} {t : RecordType} (ht : Plain t) {payload rest : Bytes}
    (h : At r o (physicalRecord crc t payload ++ rest))
    (hfit : o + headerSize + payload.length ≤ blockSize) (fuel : ℕ) :
    ∃ r', Reader.physicalLoop crc (fuel + 1) r = some (⟨t.code, payload, 0⟩, r') ∧
      At r' (o + headerSize + payload.length) rest := by
  have hlen : (physicalRecord crc t payload).length = headerSize + payload.length :=
    length_physicalRecord t payload
  have hsub : blockSize - o - (headerSize + payload.length) =
      blockSize - (o + headerSize + payload.length) := by omega
  have hbuf : r.buffer = header crc t payload ++
      (payload ++ rest.take (blockSize - (o + headerSize + payload.length))) := by
    rw [h.buffer, List.take_append, List.take_of_length_le (by omega), hlen, hsub,
      physicalRecord_eq, List.append_assoc]
  refine ⟨{ r with buffer := rest.take (blockSize - (o + headerSize + payload.length)) }, ?_, ?_⟩
  · rw [physicalLoop_header ht hbuf (by omega), takeRecord_whole ht hbuf]
  · constructor
    · rfl
    · rw [h.file, List.drop_append, List.drop_of_length_le (by omega), hlen, hsub, List.nil_append]
    · rw [h.eof, decide_eq_decide, List.length_append, hlen]
      omega

/-- In front of a fragment that the file cuts off the reader ends the log. -/
theorem At.torn {r : Reader} {o : ℕ} {t : RecordType} (ht : Plain t) {payload rest : Bytes}
    (h : At r o rest) (hpre : rest <+: physicalRecord crc t payload)
    (hlt : rest.length < headerSize + payload.length)
    (hfit : o + headerSize + payload.length ≤ blockSize) (fuel : ℕ) :
    ∃ p r', Reader.physicalLoop crc (fuel + 1) r = some (p, r') ∧ Ends p := by
  have hend : rest.length < blockSize - o := by omega
  have hrest : r.buffer = rest := by rw [h.buffer, List.take_of_length_le (by omega)]
  by_cases hshort : rest.length < headerSize
  · obtain ⟨code, dropSize, hmore, hends⟩ := h.readMore_end hend
    exact ⟨_, _, physicalLoop_end (hrest ▸ hshort) hmore fuel, hends⟩
  · have heof : r.eof = true := h.eof.trans (decide_eq_true hend)
    have hbuf : r.buffer = header crc t payload ++ payload.take (rest.length - headerSize) := by
      have htake := List.prefix_iff_eq_take.mp hpre
      rw [physicalRecord_eq, List.take_append, length_header,
        List.take_of_length_le (by rw [length_header]; omega)] at htake
      exact hrest.trans htake
    obtain ⟨p, hp, hends⟩ := takeRecord_torn hbuf (by rw [List.length_take]; omega) heof
    refine ⟨p, { r with buffer := [] }, ?_, hends⟩
    rw [physicalLoop_header ht hbuf (by omega), hp]

/-- The zeros at the end of a block are skipped with the rest of it. -/
theorem At.skipPadding {r : Reader} {o : ℕ} {rest : Bytes} (h : At r o rest)
    (hpad : blockSize - o < headerSize) (hfull : blockSize - o ≤ rest.length) (fuel : ℕ) :
    ∃ r', Reader.physicalLoop crc (fuel + 1) r = Reader.physicalLoop crc fuel r' ∧
      At r' 0 (rest.drop (blockSize - o)) := by
  obtain ⟨r', hmore, hat⟩ := h.readMore hfull
  refine ⟨r', physicalLoop_more ?_ hmore fuel, hat⟩
  rw [h.buffer, List.length_take]
  omega

theorem At.readPhysicalRecord {r : Reader} {o : ℕ} {t : RecordType} (ht : Plain t)
    {payload rest : Bytes}
    (h : At r o (List.replicate (padding o) 0 ++ physicalRecord crc t payload ++ rest))
    (hfit : headerOffset o + headerSize + payload.length ≤ blockSize) :
    ∃ r', r.readPhysicalRecord crc = some (⟨t.code, payload, 0⟩, r') ∧
      At r' (headerOffset o + headerSize + payload.length) rest := by
  unfold Reader.readPhysicalRecord
  unfold headerOffset padding at *
  by_cases hpad : blockSize - o < headerSize
  · simp only [hpad, if_true, List.append_assoc] at h hfit ⊢
    obtain ⟨r₁, hloop, h₁⟩ := h.skipPadding hpad (by simp) 1
    rw [List.drop_left' (by simp)] at h₁
    rw [hloop]
    exact h₁.fragment ht hfit 0
  · simp only [hpad, if_false, List.replicate_zero, List.nil_append] at h hfit ⊢
    exact h.fragment ht hfit 1

theorem At.readPhysicalRecord_torn {r : Reader} {o : ℕ} {t : RecordType} (ht : Plain t)
    {payload rest : Bytes} (h : At r o rest)
    (hpre : rest <+: List.replicate (padding o) 0 ++ physicalRecord crc t payload)
    (hlt : rest.length < padding o + (headerSize + payload.length))
    (hfit : headerOffset o + headerSize + payload.length ≤ blockSize) :
    ∃ p r', r.readPhysicalRecord crc = some (p, r') ∧ Ends p := by
  unfold Reader.readPhysicalRecord
  unfold headerOffset padding at *
  by_cases hpad : blockSize - o < headerSize
  · simp only [hpad, if_true] at hpre hlt hfit
    by_cases hfull : blockSize - o ≤ rest.length
    · obtain ⟨r₁, hloop, h₁⟩ := h.skipPadding hpad hfull 1
      rw [hloop]
      refine h₁.torn ht ?_ (by rw [List.length_drop]; omega) hfit 0
      have := hpre.drop (blockSize - o)
      rwa [List.drop_left' (by simp)] at this
    · obtain ⟨code, dropSize, hmore, hends⟩ := h.readMore_end (by omega)
      refine ⟨_, _, physicalLoop_end ?_ hmore 1, hends⟩
      rw [h.buffer, List.length_take]
      omega
  · simp only [hpad, if_false, List.replicate_zero, List.nil_append, Nat.zero_add] at hpre hlt hfit
    exact h.torn ht hpre hlt hfit 1

/-- A fragment of a record ends the loop of `ReadRecord`, or is kept in scratch. -/
theorem recordTurn_fragment (r : Reader) (mode : WALRecoveryMode) {isBegin : Bool} {scratch : Bytes}
    (hs : isBegin = true → scratch = []) (isEnd : Bool) (payload : Bytes) :
    r.recordTurn mode (!isBegin) scratch ⟨(fragmentType false isBegin isEnd).code, payload, 0⟩ =
      if isEnd then .done (some (scratch ++ payload)) r
      else .again true (scratch ++ payload) r := by
  cases isBegin with
  | true =>
      rw [hs rfl]
      cases isEnd <;> rfl
  | false => cases isEnd <;> rfl

theorem recordTurn_end (r : Reader) (inFragment : Bool) (scratch : Bytes) {p : Physical}
    (hp : Ends p) :
    r.recordTurn .tolerateCorruptedTailRecords inFragment scratch p = .done none r := by
  obtain ⟨code, fragment, dropSize⟩ := p
  rcases hp with rfl | rfl
  · cases inFragment <;> rfl
  · cases inFragment <;> rfl

/-- The fragments of a whole record are assembled. -/
theorem recordLoop_whole {o o' : ℕ} {isBegin : Bool} {left bytes rest : Bytes}
    (h : Emits crc o isBegin left bytes o') {r : Reader} (hr : At r o (bytes ++ rest))
    {scratch : Bytes} (hs : isBegin = true → scratch = []) {fuel : ℕ}
    (hfuel : bytes.length ≤ fuel) :
    ∃ r', Reader.recordLoop crc .tolerateCorruptedTailRecords fuel (!isBegin) scratch r =
      some (some (scratch ++ left), r') ∧ At r' o' rest := by
  induction h generalizing r scratch fuel with
  | last o isBegin payload hfit =>
      obtain ⟨r', hread, hat⟩ := hr.readPhysicalRecord (plain_fragmentType isBegin true) hfit
      cases fuel with
      | zero => simp [headerSize] at hfuel
      | succ fuel =>
          refine ⟨r', ?_, hat⟩
          rw [Reader.recordLoop, hread, Option.bind_some, recordTurn_fragment _ _ hs]
          rfl
  | more o isBegin p q bytes o' hp hq h ih =>
      rw [List.append_assoc] at hr
      obtain ⟨r₁, hread, hat⟩ := hr.readPhysicalRecord (plain_fragmentType isBegin false) hp.le
      rw [hp] at hat
      cases fuel with
      | zero => simp [headerSize] at hfuel
      | succ fuel =>
          simp only [List.length_append, length_physicalRecord, headerSize] at hfuel
          obtain ⟨r', hloop, hat'⟩ := ih hat (show false = true → scratch ++ p = [] by simp)
            (show bytes.length ≤ fuel by omega)
          refine ⟨r', ?_, hat'⟩
          rw [Reader.recordLoop, hread, Option.bind_some, recordTurn_fragment _ _ hs]
          rw [← List.append_assoc]
          exact hloop

/-- A record that the file cuts off is taken for the end of the log. -/
theorem recordLoop_torn {o o' : ℕ} {isBegin : Bool} {left bytes rest : Bytes}
    (h : Emits crc o isBegin left bytes o') {r : Reader} (hr : At r o rest) (hpre : rest <+: bytes)
    (hlt : rest.length < bytes.length) {scratch : Bytes} (hs : isBegin = true → scratch = [])
    {fuel : ℕ} (hfuel : rest.length < fuel) :
    ∃ r', Reader.recordLoop crc .tolerateCorruptedTailRecords fuel (!isBegin) scratch r =
      some (none, r') := by
  induction h generalizing r scratch fuel rest with
  | last o isBegin payload hfit =>
      rw [List.length_append, List.length_replicate, length_physicalRecord] at hlt
      obtain ⟨p, r', hread, hends⟩ :=
        hr.readPhysicalRecord_torn (plain_fragmentType isBegin true) hpre hlt hfit
      cases fuel with
      | zero => exact absurd hfuel (Nat.not_lt_zero _)
      | succ fuel =>
          refine ⟨r', ?_⟩
          rw [Reader.recordLoop, hread, Option.bind_some, recordTurn_end _ _ _ hends]
  | more o isBegin p q bytes o' hp hq h ih =>
      have hlen : (List.replicate (padding o) 0 ++
          physicalRecord crc (fragmentType false isBegin false) p).length =
            padding o + (headerSize + p.length) := by
        rw [List.length_append, List.length_replicate, length_physicalRecord]
      cases fuel with
      | zero => exact absurd hfuel (Nat.not_lt_zero _)
      | succ fuel =>
          -- either the first fragment is cut off, or it is whole and a later one is
          by_cases hcut : rest.length < padding o + (headerSize + p.length)
          · have hpre₁ := List.prefix_of_prefix_length_le hpre (List.prefix_append _ _)
              (hcut.le.trans_eq hlen.symm)
            obtain ⟨c, r', hread, hends⟩ :=
              hr.readPhysicalRecord_torn (plain_fragmentType isBegin false) hpre₁ hcut hp.le
            refine ⟨r', ?_⟩
            rw [Reader.recordLoop, hread, Option.bind_some, recordTurn_end _ _ _ hends]
          · obtain ⟨rest', rfl⟩ := List.prefix_of_prefix_length_le (List.prefix_append _ _) hpre
              (hlen.trans_le (Nat.le_of_not_lt hcut))
            obtain ⟨r₁, hread, hat⟩ :=
              hr.readPhysicalRecord (plain_fragmentType isBegin false) hp.le
            rw [hp] at hat
            have hpos : 0 < headerSize := by decide
            rw [List.length_append, hlen] at hfuel
            obtain ⟨r', hloop⟩ := ih hat ((List.prefix_append_right_inj _).mp hpre)
              (by simp only [List.length_append] at hlt; omega)
              (show false = true → scratch ++ p = [] by simp) (show rest'.length < fuel by omega)
            refine ⟨r', ?_⟩
            rw [Reader.recordLoop, hread, Option.bind_some, recordTurn_fragment _ _ hs]
            exact hloop

theorem readRecord_whole {o o' : ℕ} {slice bytes rest : Bytes} (h : Emits crc o true slice bytes o')
    {r : Reader} (hr : At r o (bytes ++ rest)) :
    ∃ r', r.readRecord crc .tolerateCorruptedTailRecords = some (some slice, r') ∧
      At r' o' rest := by
  refine recordLoop_whole h hr (fun _ => rfl) ?_
  rw [hr.length, List.length_append]
  omega

theorem readRecord_torn {o o' : ℕ} {slice bytes rest : Bytes} (h : Emits crc o true slice bytes o')
    {r : Reader} (hr : At r o rest) (hpre : rest <+: bytes) (hlt : rest.length < bytes.length) :
    ∃ r', r.readRecord crc .tolerateCorruptedTailRecords = some (none, r') := by
  refine recordLoop_torn h hr hpre hlt (fun _ => rfl) ?_
  rw [hr.length]
  exact Nat.lt_succ_self _

theorem readRecord_nil {o : ℕ} (ho : o ≤ blockSize) {r : Reader} (hr : At r o []) :
    ∃ r', r.readRecord crc .tolerateCorruptedTailRecords = some (none, r') := by
  obtain ⟨bytes, o', h, -⟩ : ∃ bytes o', Emits crc o true [] bytes o' ∧ _ :=
    addRecord_emits [] o 0 ho []
  exact readRecord_torn h hr List.nil_prefix h.length_pos

end PowerLawRocksdb.LogReplay
