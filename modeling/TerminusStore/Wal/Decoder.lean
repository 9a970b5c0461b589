import TerminusStore.Wal.Record

/-!
# The streaming frame decoder

Reference: `src/storage/directory/wal.rs`, `WalFileDecoder` and its `Decoder::decode`.

`decode` swaps `Invalid` into `self`, runs a `loop` over the decoder's states, and swaps the
final state back, except on `return Err(..)`, which leaves `Invalid` behind. `decodeStep` is one
pass of the loop body: it waits for more input (`break`), reads one field and goes round again,
emits a frame, or fails. Every pass that goes round consumes at least one byte
(`decodeStep_next_length`), so `decode` runs the loop with one unit of fuel more than there are
bytes, and `decode_eq_step` is the loop's unfolding equation; no later proof sees the fuel.

The decoder takes a frame's length field to count the type byte and the body, and computes the
CRC over both; `AnnotatedWalRecord::new` writes the length and CRC of the body alone.
`decode_new_frame` shows the consequence: the first frame the writer ever writes is rejected.
The decoder also emits its record without the type byte, length and CRC that
`AnnotatedWalRecord::record` expects: `record_of_decoded` shows that every frame it accepts makes
`record` panic.
-/

namespace TerminusStore.Wal

/-- `WalFileDecoder`: the state of a partly read frame; the buffers hold the frame's bytes read
so far. The entry count is a `u8` between 1 and 100, kept as a `ℕ`. -/
inductive WalFileDecoder where
  | invalid
  | start
  | labelSetReadNumEntries (tp : List UInt8)
  | labelSetReadEntry (readSoFar : List UInt8) (numEntries : ℕ)
  | labelSetReadIdentifier (readSoFar : List UInt8)
  | checkpointReadIdentifier (readSoFar : List UInt8)
  | readRecordLength (recordBytes : List UInt8)
  | readRecordChecksum (recordBytes recordLengthBytes : List UInt8)
  deriving DecidableEq, Repr

/-- What one pass of `decode`'s loop body does. -/
inductive DecodeStep where
  /-- `break` for want of input, with the state put back -/
  | wait (st : WalFileDecoder)
  /-- a field was read: round again in a new state, with what is left of the input -/
  | next (st : WalFileDecoder) (rest : List UInt8)
  /-- the frame is complete and checks out -/
  | emit (a : AnnotatedWalRecord) (rest : List UInt8)
  /-- `return Err(e)` -/
  | fail (e : WalError) (rest : List UInt8)
  /-- `panic!("encountered self in invalid state")` -/
  | panic
  deriving DecidableEq, Repr

/-- One pass of the loop body of `WalFileDecoder::decode`. -/
def decodeStep : WalFileDecoder → List UInt8 → DecodeStep
  | .invalid, _ => .panic
  | .start, [] => .wait .start
  | .start, tp :: rest =>
    if tp = 0 then .next (.labelSetReadNumEntries [tp]) rest
    else if tp = 1 then .next (.checkpointReadIdentifier [tp]) rest
    else .fail .unknownRecordType (tp :: rest)
  | .labelSetReadNumEntries tp, [] => .wait (.labelSetReadNumEntries tp)
  | .labelSetReadNumEntries tp, len :: rest =>
    if len = 0 then .fail .zeroLabels (len :: rest)
    else if 100 < len then .fail .tooManyLabels (len :: rest)
    else .next (.labelSetReadEntry (tp ++ [len]) len.toNat) rest
  | .labelSetReadEntry readSoFar numEntries, bytes =>
    match LabelSetEntry.trySplitFromBytes bytes with
    | (.ok entry, rest) =>
      if numEntries - 1 = 0 then .next (.labelSetReadIdentifier (readSoFar ++ entry.data)) rest
      else .next (.labelSetReadEntry (readSoFar ++ entry.data) (numEntries - 1)) rest
    | (.error .incompleteRecord, _) => .wait (.labelSetReadEntry readSoFar numEntries)
    | (.error e, rest) => .fail e rest
  | .labelSetReadIdentifier readSoFar, bytes =>
    if bytes.length < 4 then .wait (.labelSetReadIdentifier readSoFar)
    else .next (.readRecordLength (readSoFar ++ bytes.take 4)) (bytes.drop 4)
  | .checkpointReadIdentifier readSoFar, bytes =>
    if bytes.length < 4 then .wait (.checkpointReadIdentifier readSoFar)
    else .next (.readRecordLength (readSoFar ++ bytes.take 4)) (bytes.drop 4)
  | .readRecordLength recordBytes, bytes =>
    if bytes.length < 4 then .wait (.readRecordLength recordBytes)
    else .next (.readRecordChecksum recordBytes (bytes.take 4)) (bytes.drop 4)
  | .readRecordChecksum recordBytes lengthBytes, bytes =>
    if bytes.length < 4 then .wait (.readRecordChecksum recordBytes lengthBytes)
    else if (readU32 lengthBytes).toNat ≠ recordBytes.length then
      .fail .invalidRecordLength (bytes.drop 4)
    else if readU32 (bytes.take 4) ≠ checksumIeee recordBytes then .fail .crcFailure (bytes.drop 4)
    else .emit ⟨recordBytes.drop 1⟩ (bytes.drop 4)

/-- What a call of `decode` returns, the state it leaves in `self`, and what is left of the
buffer. -/
structure DecodeResult where
  result : Except WalError (Option AnnotatedWalRecord)
  state : WalFileDecoder
  rest : List UInt8

/-- `decode`'s `loop`, by fuel; `none` is a panic. -/
def decodeLoop : ℕ → WalFileDecoder → List UInt8 → Option DecodeResult
  | 0, st, bytes => some ⟨.ok none, st, bytes⟩
  | fuel + 1, st, bytes =>
    match decodeStep st bytes with
    | .wait st' => some ⟨.ok none, st', bytes⟩
    | .next st' rest => decodeLoop fuel st' rest
    | .emit a rest => some ⟨.ok (some a), .start, rest⟩
    | .fail e rest => some ⟨.error e, .invalid, rest⟩
    | .panic => none

/-- `WalFileDecoder::decode`; `none` is a panic. -/
def decode (st : WalFileDecoder) (bytes : List UInt8) : Option DecodeResult :=
  decodeLoop (bytes.length + 1) st bytes

/-! ## One pass of the loop -/

section Step

variable {st st' : WalFileDecoder} {b r : List UInt8}

/-- Everything one pass can do: wait with the state put back, go round on less input, emit the
record buffer of a complete frame without its type byte, fail, or panic in `Invalid`. -/
theorem decodeStep_cases (st : WalFileDecoder) (b : List UInt8) :
    decodeStep st b = .wait st ∨
      (∃ st' r, decodeStep st b = .next st' r ∧ r.length < b.length) ∨
      (∃ rb lb r, st = .readRecordChecksum rb lb ∧ decodeStep st b = .emit ⟨rb.drop 1⟩ r ∧
        r.length < b.length) ∨
      (∃ e r, decodeStep st b = .fail e r) ∨
      (st = .invalid ∧ decodeStep st b = .panic) := by
  cases st with
  | invalid => exact .inr (.inr (.inr (.inr ⟨rfl, rfl⟩)))
  | start | labelSetReadNumEntries =>
    cases b with
    | nil => exact .inl rfl
    | cons x b =>
      simp only [decodeStep]
      split_ifs
      all_goals first
        | exact .inr (.inl ⟨_, _, rfl, by simp⟩)
        | exact .inr (.inr (.inr (.inl ⟨_, _, rfl⟩)))
  | labelSetReadEntry rsf k =>
    simp only [decodeStep]
    split
    · rename_i entry rest hs
      have hl := LabelSetEntry.trySplitFromBytes_length (b := b) (by simp [hs])
      simp only [hs] at hl
      split <;> exact .inr (.inl ⟨_, _, rfl, by omega⟩)
    · exact .inl rfl
    · exact .inr (.inr (.inr (.inl ⟨_, _, rfl⟩)))
  | readRecordChecksum rb lb =>
    simp only [decodeStep]
    split_ifs
    · exact .inl rfl
    · exact .inr (.inr (.inr (.inl ⟨_, _, rfl⟩)))
    · exact .inr (.inr (.inr (.inl ⟨_, _, rfl⟩)))
    · exact .inr (.inr (.inl ⟨rb, lb, _, rfl, rfl, by simp; omega⟩))
  | _ =>
    simp only [decodeStep]
    split_ifs
    · exact .inl rfl
    · exact .inr (.inl ⟨_, _, rfl, by simp; omega⟩)

/-- Waiting puts the state back. -/
theorem decodeStep_wait (h : decodeStep st b = .wait st') : st' = st := by
  rcases decodeStep_cases st b with h' | ⟨_, _, h', -⟩ | ⟨_, _, _, -, h', -⟩ | ⟨_, _, h'⟩ | ⟨-, h'⟩ <;>
    rw [h] at h' <;> cases h'
  rfl

/-- A pass that goes round consumes input. -/
theorem decodeStep_next_length (h : decodeStep st b = .next st' r) : r.length < b.length := by
  rcases decodeStep_cases st b with h' | ⟨_, _, h', hl⟩ | ⟨_, _, _, -, h', -⟩ | ⟨_, _, h'⟩ | ⟨-, h'⟩ <;>
    rw [h] at h' <;> cases h'
  exact hl

/-- Only a complete checksum emits a frame: the record buffer without its type byte. -/
theorem decodeStep_emit {a : AnnotatedWalRecord} (h : decodeStep st b = .emit a r) :
    ∃ rb lb, st = .readRecordChecksum rb lb ∧ a = ⟨rb.drop 1⟩ ∧ r.length < b.length := by
  rcases decodeStep_cases st b with h' | ⟨_, _, h', -⟩ | ⟨rb, lb, _, hst, h', hl⟩ | ⟨_, _, h'⟩ | ⟨-, h'⟩ <;>
    rw [h] at h' <;> cases h'
  exact ⟨rb, lb, hst, rfl, hl⟩

end Step

/-! ## The loop -/

theorem decodeLoop_fuel {fuel₁ fuel₂ : ℕ} {st : WalFileDecoder} {b : List UInt8}
    (h₁ : b.length < fuel₁) (h₂ : b.length < fuel₂) :
    decodeLoop fuel₁ st b = decodeLoop fuel₂ st b := by
  induction fuel₁ generalizing fuel₂ st b with
  | zero => omega
  | succ f ih =>
    obtain ⟨f₂, rfl⟩ : ∃ f₂, fuel₂ = f₂ + 1 := ⟨fuel₂ - 1, by omega⟩
    simp only [decodeLoop]
    split
    · rfl
    · rename_i st' rest hs
      have := decodeStep_next_length hs
      exact ih (by omega) (by omega)
    all_goals rfl

/-- The unfolding equation of `decode`'s loop. -/
theorem decode_eq_step (st : WalFileDecoder) (b : List UInt8) :
    decode st b = match decodeStep st b with
      | .wait st' => some ⟨.ok none, st', b⟩
      | .next st' rest => decode st' rest
      | .emit a rest => some ⟨.ok (some a), .start, rest⟩
      | .fail e rest => some ⟨.error e, .invalid, rest⟩
      | .panic => none := by
  rw [decode, decodeLoop]
  split
  · rfl
  · rename_i st' rest hs
    exact decodeLoop_fuel (by have := decodeStep_next_length hs; omega) (by omega)
  all_goals rfl

theorem decode_next {st st' : WalFileDecoder} {b r : List UInt8}
    (h : decodeStep st b = .next st' r) : decode st b = decode st' r := by
  rw [decode_eq_step, h]

/-- Induction along the loop: a property of a state and its input that holds whenever it holds
after every pass that goes round. -/
theorem decode_induct {motive : WalFileDecoder → List UInt8 → Prop}
    (step : ∀ st b, (∀ st' r, decodeStep st b = .next st' r → motive st' r) → motive st b)
    (st : WalFileDecoder) (b : List UInt8) : motive st b := by
  obtain ⟨n, hn⟩ : ∃ n, b.length < n := ⟨_, Nat.lt_succ_self _⟩
  induction n generalizing st b with
  | zero => omega
  | succ n ih =>
    exact step st b fun st' r hs => ih st' r (by have := decodeStep_next_length hs; omega)

/-! ## The writer's frames -/

section Fields

variable (rsf rb : List UInt8) (x : UInt32) (more : List UInt8)

@[simp] theorem decodeStep_start_zero :
    decodeStep .start (0 :: more) = .next (.labelSetReadNumEntries [0]) more := rfl

@[simp] theorem decodeStep_start_one :
    decodeStep .start (1 :: more) = .next (.checkpointReadIdentifier [1]) more := rfl

@[simp] theorem decodeStep_labelSetReadNumEntries_zero :
    decodeStep (.labelSetReadNumEntries rsf) (0 :: more) = .fail .zeroLabels (0 :: more) := rfl

theorem decodeStep_labelSetReadNumEntries {n : UInt8} (h0 : n ≠ 0) (h100 : ¬ 100 < n) :
    decodeStep (.labelSetReadNumEntries rsf) (n :: more) =
      .next (.labelSetReadEntry (rsf ++ [n]) n.toNat) more := by
  simp [decodeStep, h0, h100]

@[simp] theorem decodeStep_checkpointReadIdentifier :
    decodeStep (.checkpointReadIdentifier rsf) (writeU32 x ++ more) =
      .next (.readRecordLength (rsf ++ writeU32 x)) more := by
  simp [decodeStep, List.take_left', List.drop_left']

@[simp] theorem decodeStep_labelSetReadIdentifier :
    decodeStep (.labelSetReadIdentifier rsf) (writeU32 x ++ more) =
      .next (.readRecordLength (rsf ++ writeU32 x)) more := by
  simp [decodeStep, List.take_left', List.drop_left']

@[simp] theorem decodeStep_readRecordLength :
    decodeStep (.readRecordLength rb) (writeU32 x ++ more) =
      .next (.readRecordChecksum rb (writeU32 x)) more := by
  simp [decodeStep, List.take_left', List.drop_left']

/-- The length check, on a length field that is not the length of the type byte and body. -/
theorem decodeStep_readRecordChecksum_length (c : UInt32) (h : x.toNat ≠ rb.length) :
    decodeStep (.readRecordChecksum rb (writeU32 x)) (writeU32 c ++ more) =
      .fail .invalidRecordLength more := by
  simp [decodeStep, List.drop_left', h]

/-- A complete frame: the length field counts the type byte and body, the CRC covers both. -/
theorem decodeStep_readRecordChecksum_emit (h : x.toNat = rb.length) :
    decodeStep (.readRecordChecksum rb (writeU32 x)) (writeU32 (checksumIeee rb) ++ more) =
      .emit ⟨rb.drop 1⟩ more := by
  simp [decodeStep, List.drop_left', h]

end Fields

/-- Reading `k` well-formed entries goes straight through to the identifier. -/
theorem decode_readEntries (es : List LabelSetEntry) (hes : es ≠ []) (rsf more : List UInt8) :
    decode (.labelSetReadEntry rsf es.length) ((es.map (·.data)).flatten ++ more) =
      decode (.labelSetReadIdentifier (rsf ++ (es.map (·.data)).flatten)) more := by
  induction es generalizing rsf with
  | nil => exact absurd rfl hes
  | cons e es ih =>
    rw [decode_eq_step]
    cases es with
    | nil => simp [decodeStep]
    | cons e' es' =>
      simp only [decodeStep, List.map_cons, List.flatten_cons, List.append_assoc,
        LabelSetEntry.trySplitFromBytes_append, List.length_cons]
      simpa using ih (by simp) (rsf ++ e.data)

/-- Reading fewer well-formed entries than the count leaves the decoder reading entries. -/
theorem decode_readEntries_lt (es : List LabelSetEntry) {k : ℕ} (hk : es.length < k)
    (rsf more : List UInt8) :
    decode (.labelSetReadEntry rsf k) ((es.map (·.data)).flatten ++ more) =
      decode (.labelSetReadEntry (rsf ++ (es.map (·.data)).flatten) (k - es.length)) more := by
  induction es generalizing rsf k with
  | nil => simp
  | cons e es ih =>
    rw [decode_eq_step]
    simp only [List.length_cons] at hk
    simp only [decodeStep, List.map_cons, List.flatten_cons, List.append_assoc,
      LabelSetEntry.trySplitFromBytes_append, List.length_cons, if_neg (by omega : k - 1 ≠ 0)]
    simpa [Nat.sub_sub, Nat.add_comm] using ih (k := k - 1) (by omega) (rsf ++ e.data)

/-- A well-formed entry cut short: the decoder waits in the same state, with the bytes in its
buffer. -/
theorem decode_readEntry_take (e : LabelSetEntry) {m : ℕ} (hm : m < e.data.length)
    (rsf : List UInt8) (k : ℕ) :
    decode (.labelSetReadEntry rsf k) (e.data.take m) =
      some ⟨.ok none, .labelSetReadEntry rsf k, e.data.take m⟩ := by
  rw [decode_eq_step]
  simp only [decodeStep, LabelSetEntry.trySplitFromBytes_take e hm]

/-- The decoder rejects the frame of every record the writer builds, whatever follows it: a
label set without bindings on its zero count, every other record on its length field, which
holds the body's length where the decoder expects the type byte's and the body's. -/
theorem decode_new_frame {r : LogRecord} {w : WalRecord} (h : r.toWalRecord = some w)
    (rest : List UInt8) :
    (decode .start ((AnnotatedWalRecord.new w).data ++ rest)).map (·.result) =
      some (.error (match r with
        | .labelSet _ [] => .zeroLabels
        | _ => .invalidRecordLength)) := by
  cases r with
  | checkpoint id =>
    cases h
    simp only [AnnotatedWalRecord.new, WalRecord.typeNum, WalRecord.data, CheckpointRecord.new,
      List.cons_append, List.append_assoc]
    rw [decode_next (decodeStep_start_one ..), decode_next (decodeStep_checkpointReadIdentifier ..),
      decode_next (decodeStep_readRecordLength ..), decode_eq_step,
      decodeStep_readRecordChecksum_length]
    · rfl
    · simp [toNat_toUInt32]
  | labelSet id bs =>
    obtain ⟨es, ls, hes, hls, rfl⟩ := LogRecord.toWalRecord_labelSet h
    have hlen := LogRecord.mapM_new_length hes
    have h100 := LabelSetRecord.new_length hls
    have hn : es.length.toUInt8.toNat = es.length := by
      rw [toNat_toUInt8, Nat.mod_eq_of_lt (by omega)]
    simp only [AnnotatedWalRecord.new, WalRecord.typeNum, WalRecord.data,
      LabelSetRecord.new_data hls, List.cons_append, List.append_assoc]
    rw [decode_next (decodeStep_start_zero ..)]
    cases bs with
    | nil =>
      have : es = [] := List.eq_nil_of_length_eq_zero (by simpa using hlen)
      subst this
      rw [decode_eq_step]
      rfl
    | cons b bs =>
      have hne : es ≠ [] := by rintro rfl; simp at hlen
      have h0 : es.length.toUInt8 ≠ 0 := by
        intro h0; have := congrArg UInt8.toNat h0; simp [hn] at this; exact hne this
      have h100' : ¬ 100 < es.length.toUInt8 := by rw [uint8_lt_iff, hn]; simpa using h100
      rw [decode_next (decodeStep_labelSetReadNumEntries _ _ h0 h100'), hn,
        decode_readEntries es hne, decode_next (decodeStep_labelSetReadIdentifier ..),
        decode_next (decodeStep_readRecordLength ..), decode_eq_step,
        decodeStep_readRecordChecksum_length]
      · rfl
      · simp [toNat_toUInt32]; omega

/-- The first frame of the one-record log `[Checkpoint(0)]` is rejected on its length field. -/
theorem decode_new_frame_checkpoint_zero :
    (LogRecord.checkpoint 0).toWalRecord = some (.checkpoint (CheckpointRecord.new 0)) ∧
      (decode .start ((AnnotatedWalRecord.new (.checkpoint (CheckpointRecord.new 0))).data ++
        [])).map (·.result) = some (.error .invalidRecordLength) :=
  ⟨rfl, @decode_new_frame (.checkpoint 0) _ rfl []⟩

/-! ## What the decoder emits -/

/-- A property of the states met from some state on, carried through the loop to every record
`decode` emits. -/
theorem decode_emit_of_step (P : WalFileDecoder → Prop) (Q : AnnotatedWalRecord → Prop)
    (hnext : ∀ st b st' r, P st → decodeStep st b = .next st' r → P st')
    (hemit : ∀ st b a r, P st → decodeStep st b = .emit a r → Q a)
    {st st' : WalFileDecoder} {b r : List UInt8} {a : AnnotatedWalRecord} (hst : P st)
    (h : decode st b = some ⟨.ok (some a), st', r⟩) : Q a := by
  induction st, b using decode_induct with
  | step st b ih =>
    rw [decode_eq_step] at h
    split at h
    · cases h
    · exact ih _ _ ‹_› (hnext _ _ _ _ hst ‹_›) h
    · cases h; exact hemit _ _ _ _ hst ‹_›
    · cases h
    · cases h

/-- The bytes a decoder that started in `Start` holds: a checkpoint's type byte and id, or a
label set's type byte, a count between 1 and 100 and, once an entry is read, at least 21
bytes; `recordShape` is the shape of a complete body with its type byte. -/
def recordShape (rb : List UInt8) : Prop :=
  (∃ c, rb = 1 :: c ∧ c.length = 4) ∨
    (∃ n E, rb = 0 :: n :: E ∧ n ≠ 0 ∧ ¬ 100 < n ∧ 25 ≤ E.length)

/-- The states `decode` meets when it starts in `Start`. -/
def FromStart : WalFileDecoder → Prop
  | .invalid => False
  | .start => True
  | .labelSetReadNumEntries tp => tp = [0]
  | .labelSetReadEntry rsf _ => ∃ n E, rsf = 0 :: n :: E ∧ n ≠ 0 ∧ ¬ 100 < n
  | .labelSetReadIdentifier rsf => ∃ n E, rsf = 0 :: n :: E ∧ n ≠ 0 ∧ ¬ 100 < n ∧ 21 ≤ E.length
  | .checkpointReadIdentifier rsf => rsf = [1]
  | .readRecordLength rb => recordShape rb
  | .readRecordChecksum rb _ => recordShape rb

theorem fromStart_next {st st' : WalFileDecoder} {b r : List UInt8} (hst : FromStart st)
    (h : decodeStep st b = .next st' r) : FromStart st' := by
  cases st with
  | invalid => cases h
  | start =>
    cases b with
    | nil => cases h
    | cons tp rest =>
      simp only [decodeStep] at h
      split_ifs at h <;> cases h <;> simp_all [FromStart]
  | labelSetReadNumEntries tp =>
    cases b with
    | nil => cases h
    | cons len rest =>
      simp only [decodeStep] at h
      split_ifs at h with h0 h100
      cases h
      simp only [FromStart] at hst ⊢
      exact ⟨len, [], by simp [hst], h0, h100⟩
  | labelSetReadEntry rsf k =>
    obtain ⟨n, E, rfl, h0, h100⟩ := hst
    simp only [decodeStep] at h
    split at h
    · rename_i entry rest hs
      split at h <;> cases h
      · exact ⟨n, E ++ entry.data, by simp, h0, h100, by simp; have := entry.data_length_ge; omega⟩
      · exact ⟨n, E ++ entry.data, by simp, h0, h100⟩
    · cases h
    · cases h
  | labelSetReadIdentifier rsf =>
    obtain ⟨n, E, rfl, h0, h100, hE⟩ := hst
    simp only [decodeStep] at h
    split_ifs at h with hb
    cases h
    exact .inr ⟨n, E ++ b.take 4, by simp, h0, h100, by simp; omega⟩
  | checkpointReadIdentifier rsf =>
    simp only [FromStart] at hst
    subst hst
    simp only [decodeStep] at h
    split_ifs at h with hb
    cases h
    exact .inl ⟨b.take 4, rfl, by simp; omega⟩
  | readRecordLength rb =>
    simp only [decodeStep] at h
    split_ifs at h
    cases h
    exact hst
  | readRecordChecksum rb lb =>
    simp only [decodeStep] at h
    split_ifs at h

theorem record_of_shape {rb : List UInt8} (h : recordShape rb) :
    (AnnotatedWalRecord.mk (rb.drop 1)).record = none := by
  rcases h with ⟨c, rfl, hc⟩ | ⟨n, E, rfl, h0, h100, hE⟩
  · match c, hc with
    | [c0, c1, c2, c3], _ =>
      have hrb : (AnnotatedWalRecord.mk [c0, c1, c2, c3]).recordBytes = [c1, c2, c3] := rfl
      simp only [List.drop_one, List.tail_cons, AnnotatedWalRecord.record, hrb]
      split_ifs
      · simp [LabelSetRecord.fromBytes_of_length_lt]
      all_goals rfl
  · have hrb : (AnnotatedWalRecord.mk (n :: E)).recordBytes = E.take (E.length - 8) := by
      simp [AnnotatedWalRecord.recordBytes]; omega
    simp only [AnnotatedWalRecord.record, List.drop_one, List.tail_cons, h0, if_false, hrb]
    split_ifs
    · simp [CheckpointRecord.fromBytes]; omega
    · rfl

/-- Every record the decoder emits makes `AnnotatedWalRecord::record` panic: the decoder drops
the type byte, length and checksum that `record` expects at the two ends of the buffer. -/
theorem record_of_decoded {b r : List UInt8} {a : AnnotatedWalRecord} {st : WalFileDecoder}
    (h : decode .start b = some ⟨.ok (some a), st, r⟩) : a.record = none :=
  decode_emit_of_step FromStart (fun a => a.record = none) (fun _ _ _ _ => fromStart_next)
    (fun _ _ _ _ hst hs => by
      obtain ⟨rb, lb, rfl, rfl, -⟩ := decodeStep_emit hs
      exact record_of_shape hst)
    (show FromStart .start from trivial) h

/-- The frame the decoder expects for `Checkpoint(0)`: the length 5 of the type byte and body,
and the CRC over both. -/
theorem decode_checkpoint_zero_frame :
    decode .start (1 :: (writeU32 0 ++ (writeU32 5 ++ writeU32 (checksumIeee ([1] ++ writeU32 0))))) =
      some ⟨.ok (some ⟨writeU32 0⟩), .start, []⟩ := by
  rw [decode_next (decodeStep_start_one _), decode_next (decodeStep_checkpointReadIdentifier _ 0 _),
    decode_next (decodeStep_readRecordLength _ 5 _), decode_eq_step, ← List.append_nil (writeU32 (checksumIeee _)),
    decodeStep_readRecordChecksum_emit ([1] ++ writeU32 0) 5 [] (by rfl)]
  rfl

/-- The decoder does accept frames, and `AnnotatedWalRecord::record` panics on every record it
emits. -/
theorem decode_accepted_record_panics :
    (∃ b a st r, decode .start b = some ⟨.ok (some a), st, r⟩) ∧
      ∀ b a st r, decode .start b = some ⟨.ok (some a), st, r⟩ → a.record = none :=
  ⟨⟨_, _, _, _, decode_checkpoint_zero_frame⟩, fun _ _ _ _ h => record_of_decoded h⟩

end TerminusStore.Wal
