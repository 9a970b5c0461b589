import TerminusStore.Wal.Stream

/-!
# The frames the decoder accepts

Reference: `src/storage/directory/wal.rs`, `WalFileDecoder` and
`ReadableWalFile::into_records_stream`.

From `Start`, `WalFileDecoder` reads a frame field by field. First comes the type byte. A label
set then has a count between 1 and 100 and that many entries; a checkpoint has nothing more. Both
then have a four-byte id, then the length of everything read so far, then its CRC-32.
`FrameBody` is that grammar for the record buffer (type byte and body), and `decoderFrame` is the
frame of a record buffer: the buffer, its length, its CRC. No function of the source writes this
layout: `AnnotatedWalRecord::new` writes the length and CRC of the body alone
(`decode_new_frame`).

`decode_emit_iff` says that from `Start` the decoder accepts exactly these frames. A call emits
a record iff the input begins with the frame of a well-formed record buffer. The record is the
buffer without its type byte, and the rest of the input stays in the buffer. Over a file,
`recordsStream_frames` is the round trip: for every read schedule, every file of such frames
streams back their bodies in order and ends cleanly. `recordsStream_sound` is the converse. The
records a stream yields are the bodies of well-formed frames lying back to back from the cursor.
When the stream ends without an error, what follows those frames is the first fields of at most
one more frame, which the stream drops.

Two more facts of the code. `next_record` drops what its read buffered past the first frame with
the `FramedRead`, so a read that covers several frames loses all but the first
(`nextRecord_drops_buffered`). And `LabelSetRecord::from_bytes`, the parser `record` calls,
accepts the decoder's label set bodies and, beyond them, a zero count followed by an id
(`fromBytes_eq_some_iff`).

## Shape of the proof

`pending` is what a state has consumed of the current frame, and `Reading` says what those bytes
are in each state met from `Start`. One pass keeps `Reading` and moves the bytes it consumes from
the input into the state (`reading_next`). The pass that emits has consumed a whole frame
(`reading_emit`). The loop lemma `decode_consumed` follows by `decode_induct`, and the calls of
`decode` on a buffer (`drain_consumed`) follow by induction on the buffer's length.
-/

namespace TerminusStore.Wal

/-- The frame `WalFileDecoder` reads for the record buffer `rb` (type byte and body): the buffer,
then its length and its CRC-32, big-endian. -/
def decoderFrame (rb : List UInt8) : List UInt8 :=
  rb ++ writeU32 rb.length.toUInt32 ++ writeU32 (checksumIeee rb)

@[simp] theorem length_decoderFrame (rb : List UInt8) : (decoderFrame rb).length = rb.length + 8 := by
  simp [decoderFrame]

/-- The record buffers `WalFileDecoder` reads field by field: a checkpoint's type byte 1 and its
id, or a label set's type byte 0, its count, that many entries (between 1 and 100), and its id. -/
inductive FrameBody : List UInt8 → Prop
  | checkpoint (c : List UInt8) (hc : c.length = 4) : FrameBody (1 :: c)
  | labelSet (es : List LabelSetEntry) (c : List UInt8) (hes : es ≠ []) (h100 : es.length ≤ 100)
      (hc : c.length = 4) : FrameBody (0 :: es.length.toUInt8 :: ((es.map (·.data)).flatten ++ c))

/-- A record buffer is at most a type byte, a count, 100 entries, and an id: shorter than
`2 ^ 16`. -/
theorem FrameBody.length_lt {rb : List UInt8} (h : FrameBody rb) : rb.length < 2 ^ 16 := by
  cases h with
  | checkpoint c hc => simp [hc]
  | labelSet es c _ h100 hc =>
    have := LabelSetEntry.flatten_length_le es
    simp only [List.length_cons, List.length_append, hc]
    omega

namespace WalFileDecoder

/-- The bytes of the current frame a state has consumed. -/
def pending : WalFileDecoder → List UInt8
  | .invalid | .start => []
  | .labelSetReadNumEntries tp => tp
  | .labelSetReadEntry rsf _ | .labelSetReadIdentifier rsf | .checkpointReadIdentifier rsf => rsf
  | .readRecordLength rb => rb
  | .readRecordChecksum rb lb => rb ++ lb

/-- The states `decode` meets from `Start`, with what their bytes are: the fields of a
`FrameBody` read so far. A label set's count is the number of entries read plus those to come. -/
def Reading : WalFileDecoder → Prop
  | .invalid => False
  | .start => True
  | .labelSetReadNumEntries tp => tp = [0]
  | .labelSetReadEntry rsf k => ∃ es : List LabelSetEntry,
      rsf = 0 :: (es.length + k).toUInt8 :: (es.map (·.data)).flatten ∧ 0 < k ∧ es.length + k ≤ 100
  | .labelSetReadIdentifier rsf => ∃ es : List LabelSetEntry,
      rsf = 0 :: es.length.toUInt8 :: (es.map (·.data)).flatten ∧ es ≠ [] ∧ es.length ≤ 100
  | .checkpointReadIdentifier rsf => rsf = [1]
  | .readRecordLength rb => FrameBody rb
  | .readRecordChecksum rb lb => FrameBody rb ∧ lb.length = 4

theorem reading_start : Reading .start := trivial

end WalFileDecoder

/-! ## The decoder reads well-formed frames -/

/-- The decoder reads a well-formed record buffer field by field into its state. -/
theorem decode_body {rb : List UInt8} (h : FrameBody rb) (more : List UInt8) :
    decode .start (rb ++ more) = decode (.readRecordLength rb) more := by
  cases h with
  | checkpoint c hc =>
    obtain ⟨x, rfl⟩ : ∃ x, c = writeU32 x := ⟨_, (writeU32_readU32 hc).symm⟩
    rw [List.cons_append, decode_next (decodeStep_start_one _),
      decode_next (decodeStep_checkpointReadIdentifier [1] x more)]
    rfl
  | labelSet es c hes h100 hc =>
    obtain ⟨x, rfl⟩ : ∃ x, c = writeU32 x := ⟨_, (writeU32_readU32 hc).symm⟩
    have hn : es.length.toUInt8.toNat = es.length := by
      rw [toNat_toUInt8, Nat.mod_eq_of_lt (by omega)]
    have h0 : es.length.toUInt8 ≠ 0 := fun h0 => hes (List.eq_nil_of_length_eq_zero
      (by simpa [hn] using congrArg UInt8.toNat h0))
    have h100' : ¬ 100 < es.length.toUInt8 := by rw [uint8_lt_iff, hn]; simpa using h100
    simp only [List.cons_append, List.append_assoc]
    rw [decode_next (decodeStep_start_zero _),
      decode_next (decodeStep_labelSetReadNumEntries _ _ h0 h100'), hn,
      decode_readEntries es hes, decode_next (decodeStep_labelSetReadIdentifier ..)]
    simp

/-- The length and checksum fields that close a frame: the decoder emits the buffer without its
type byte and goes back to `Start`. -/
theorem decode_length_checksum {rb : List UInt8} (h : rb.length < 2 ^ 32) (more : List UInt8) :
    decode (.readRecordLength rb)
        (writeU32 rb.length.toUInt32 ++ writeU32 (checksumIeee rb) ++ more) =
      some ⟨.ok (some ⟨rb.drop 1⟩), .start, more⟩ := by
  rw [List.append_assoc, decode_next (decodeStep_readRecordLength ..), decode_eq_step,
    decodeStep_readRecordChecksum_emit _ _ _ (by rw [toNat_toUInt32, Nat.mod_eq_of_lt h])]

/-- The decoder accepts the frame of every well-formed record buffer, whatever follows it. -/
theorem decode_frame {rb : List UInt8} (h : FrameBody rb) (more : List UInt8) :
    decode .start (decoderFrame rb ++ more) = some ⟨.ok (some ⟨rb.drop 1⟩), .start, more⟩ := by
  rw [decoderFrame, List.append_assoc, List.append_assoc, decode_body h, ← List.append_assoc,
    decode_length_checksum (by have := h.length_lt; omega)]

/-! ## What the decoder consumes -/

section Consumed

open WalFileDecoder

/-- One pass that goes round keeps `Reading`, and moves the bytes it consumes from the input into
the state. -/
theorem reading_next {st st' : WalFileDecoder} {b r : List UInt8} (hst : st.Reading)
    (h : decodeStep st b = .next st' r) : st'.Reading ∧ st.pending ++ b = st'.pending ++ r := by
  cases st with
  | invalid => cases h
  | start =>
    cases b with
    | nil => cases h
    | cons tp rest =>
      simp only [decodeStep] at h
      split_ifs at h with h0 h1 <;> cases h
      · exact ⟨by simp [Reading, h0], rfl⟩
      · exact ⟨by simp [Reading, h1], rfl⟩
  | labelSetReadNumEntries tp =>
    cases b with
    | nil => cases h
    | cons len rest =>
      simp only [decodeStep] at h
      split_ifs at h with h0 h100
      cases h
      have hpos : 0 < len.toNat := Nat.pos_of_ne_zero fun h => h0 (UInt8.toNat.inj h)
      have hle : len.toNat ≤ 100 := by rw [uint8_lt_iff] at h100; simpa using h100
      refine ⟨⟨[], ?_, hpos, by simpa using hle⟩, by simp [pending]⟩
      simp [show tp = [0] from hst, toUInt8_toNat]
  | labelSetReadEntry rsf k =>
    obtain ⟨es, rfl, hk, h100⟩ := hst
    simp only [decodeStep] at h
    split at h
    · rename_i entry rest hs
      have hb := LabelSetEntry.eq_append_of_trySplitFromBytes hs
      split_ifs at h with hk1 <;> cases h
      · obtain rfl : k = 1 := by omega
        exact ⟨⟨es ++ [entry], by simp, by simp, by simp; omega⟩, by simp [pending, hb]⟩
      · refine ⟨⟨es ++ [entry], ?_, by omega, by simp; omega⟩, by simp [pending, hb]⟩
        simp only [List.length_append, List.length_singleton]
        rw [show es.length + 1 + (k - 1) = es.length + k by omega]
        simp
    · cases h
    · cases h
  | labelSetReadIdentifier rsf =>
    obtain ⟨es, rfl, hne, h100⟩ := hst
    simp only [decodeStep] at h
    split_ifs at h with hb
    cases h
    refine ⟨?_, by simp [pending]⟩
    simpa using FrameBody.labelSet es (b.take 4) hne h100 (by simp; omega)
  | checkpointReadIdentifier rsf =>
    simp only [Reading] at hst
    subst hst
    simp only [decodeStep] at h
    split_ifs at h with hb
    cases h
    exact ⟨FrameBody.checkpoint _ (by simp; omega), by simp [pending]⟩
  | readRecordLength rb =>
    simp only [decodeStep] at h
    split_ifs at h with hb
    cases h
    exact ⟨⟨hst, by simp; omega⟩, by simp [pending]⟩
  | readRecordChecksum rb lb =>
    simp only [decodeStep] at h
    split_ifs at h

/-- The pass that emits has consumed the frame of a well-formed record buffer, and emits the
buffer without its type byte. -/
theorem reading_emit {st : WalFileDecoder} {b r : List UInt8} {a : AnnotatedWalRecord}
    (hst : st.Reading) (h : decodeStep st b = .emit a r) :
    ∃ rb, FrameBody rb ∧ a = ⟨rb.drop 1⟩ ∧ st.pending ++ b = decoderFrame rb ++ r := by
  obtain ⟨rb, lb, rfl, rfl, -⟩ := decodeStep_emit h
  obtain ⟨hrb, hlb⟩ := hst
  simp only [decodeStep] at h
  split_ifs at h with h4 hlen hcrc
  cases h
  have hlen' : readU32 lb = rb.length.toUInt32 := UInt32.toNat.inj (by
    have : (readU32 lb).toNat < 2 ^ 32 := (readU32 lb).toBitVec.isLt
    rw [toNat_toUInt32]; simp only [ne_eq, not_not] at hlen; omega)
  refine ⟨rb, hrb, rfl, ?_⟩
  rw [decoderFrame, ← hlen', ← not_not.1 hcrc, writeU32_readU32 hlb,
    writeU32_readU32 (by simp; omega), pending]
  simp

/-- What a call of `decode` from `st` on `b` did with the bytes it consumed, by what it returned:
a wait holds them in a state met from `Start`, an emit had them make up a well-formed frame. -/
def Consumed (st : WalFileDecoder) (b : List UInt8) : DecodeResult → Prop
  | ⟨.ok none, st', r⟩ => st'.Reading ∧ st.pending ++ b = st'.pending ++ r
  | ⟨.ok (some a), st', r⟩ =>
    st' = .start ∧ ∃ rb, FrameBody rb ∧ a = ⟨rb.drop 1⟩ ∧ st.pending ++ b = decoderFrame rb ++ r
  | ⟨.error _, _, _⟩ => True

theorem Consumed.of_next {st st' : WalFileDecoder} {b r : List UInt8} {d : DecodeResult}
    (hb : st.pending ++ b = st'.pending ++ r) (h : Consumed st' r d) : Consumed st b d := by
  rcases d with ⟨_ | _ | a, st'', r''⟩
  · trivial
  · exact ⟨h.1, hb.trans h.2⟩
  · exact ⟨h.1, h.2.imp fun _ ⟨hrb, ha, he⟩ => ⟨hrb, ha, hb.trans he⟩⟩

/-- A call of `decode` from a state met from `Start` waits in such a state holding what it
consumed, or emits the body of the well-formed frame it consumed. -/
theorem decode_consumed {st : WalFileDecoder} (hst : st.Reading) {b : List UInt8}
    {d : DecodeResult} (h : decode st b = some d) : Consumed st b d := by
  induction st, b using decode_induct generalizing d with
  | step st b ih =>
    rw [decode_eq_step] at h
    split at h
    · rename_i st' hs
      cases h
      obtain rfl := decodeStep_wait hs
      exact ⟨hst, rfl⟩
    · rename_i st' r hs
      obtain ⟨hst', hb⟩ := reading_next hst hs
      exact (ih st' r hs hst' h).of_next hb
    · rename_i a r hs
      cases h
      exact ⟨rfl, reading_emit hst hs⟩
    · cases h
      trivial
    · cases h

end Consumed

/-- From `Start` the decoder accepts exactly the well-formed frames: a call emits a record iff the
input begins with the frame of a well-formed record buffer; the record is the buffer without its
type byte, the rest of the input is left in the buffer, and the decoder is back in `Start`. -/
theorem decode_emit_iff {b r : List UInt8} {a : AnnotatedWalRecord} {st : WalFileDecoder} :
    decode .start b = some ⟨.ok (some a), st, r⟩ ↔
      st = .start ∧ ∃ rb, FrameBody rb ∧ a = ⟨rb.drop 1⟩ ∧ b = decoderFrame rb ++ r := by
  constructor
  · intro h
    simpa [Consumed, WalFileDecoder.pending] using decode_consumed WalFileDecoder.reading_start h
  · rintro ⟨rfl, rb, hrb, rfl, rfl⟩
    exact decode_frame hrb r

/-! ## Sequences of frames -/

/-- The body each frame's record carries. -/
def frameRecords (rbs : List (List UInt8)) : List AnnotatedWalRecord :=
  rbs.map fun rb => ⟨rb.drop 1⟩

/-- The frames of a list of record buffers, back to back. -/
def decoderFrames (rbs : List (List UInt8)) : List UInt8 := (rbs.map decoderFrame).flatten

@[simp] theorem decoderFrames_nil : decoderFrames [] = [] := rfl

@[simp] theorem decoderFrames_cons (rb : List UInt8) (rbs : List (List UInt8)) :
    decoderFrames (rb :: rbs) = decoderFrame rb ++ decoderFrames rbs := rfl

@[simp] theorem frameRecords_cons (rb : List UInt8) (rbs : List (List UInt8)) :
    frameRecords (rb :: rbs) = ⟨rb.drop 1⟩ :: frameRecords rbs := rfl

theorem decode_start_nil : decode .start [] = some ⟨.ok none, .start, []⟩ := rfl

theorem drain_start_nil : drain .start [] = some ⟨[], none, .start, []⟩ := rfl

/-- The calls of `decode` on well-formed frames emit their bodies in order, then go on with what
follows as from `Start`. -/
theorem drain_frames {rbs : List (List UInt8)} (h : ∀ rb ∈ rbs, FrameBody rb) (more : List UInt8) :
    drain .start (decoderFrames rbs ++ more) =
      (drain .start more).map (Drive.after (frameRecords rbs)) := by
  induction rbs with
  | nil => simp [decoderFrames, frameRecords]
  | cons rb rbs ih =>
    rw [decoderFrames_cons, List.append_assoc, drain_eq, decode_frame (h rb (List.mem_cons_self _ _))]
    dsimp only
    rw [ih fun rb hrb => h rb (List.mem_cons_of_mem _ hrb), Option.map_map, Drive.after_comp]
    rfl

/-- The calls of `decode` from `Start` on a buffer: the records are the bodies of well-formed
frames lying back to back from the front, and unless a call failed, what follows those frames is
the bytes the last state holds, then the buffer. -/
theorem drain_consumed {b : List UInt8} {d : Drive} (h : drain .start b = some d) :
    ∃ rbs p, (∀ rb ∈ rbs, FrameBody rb) ∧ d.records = frameRecords rbs ∧
      b = decoderFrames rbs ++ p ∧
      (d.error = none → d.state.Reading ∧ p = d.state.pending ++ d.rest) := by
  obtain ⟨n, hn⟩ : ∃ n, b.length < n := ⟨_, Nat.lt_succ_self _⟩
  induction n generalizing b d with
  | zero => omega
  | succ n ih =>
    rw [drain_eq] at h
    rcases hd : decode .start b with _ | ⟨e | _ | a, st', r⟩ <;> rw [hd] at h
    · cases h
    · cases h
      exact ⟨[], b, by simp, rfl, rfl, fun h => by cases h⟩
    · cases h
      obtain ⟨hst, hb⟩ := decode_consumed WalFileDecoder.reading_start hd
      exact ⟨[], b, by simp, rfl, rfl, fun _ => ⟨hst, hb⟩⟩
    · obtain ⟨rfl, rb, hrb, rfl, hb⟩ := decode_consumed WalFileDecoder.reading_start hd
      rw [WalFileDecoder.pending, List.nil_append] at hb
      subst hb
      obtain ⟨d', hd', rfl⟩ := Option.map_eq_some'.1 h
      obtain ⟨rbs, p, hrbs, hrec, hr, herr⟩ := ih hd' (by simp [decoderFrame] at hn; omega)
      refine ⟨rb :: rbs, p, ?_, by simp [Drive.after, hrec], by simp [hr], herr⟩
      simpa [or_imp, forall_and] using ⟨hrb, hrbs⟩

/-! ## Reading frames from a file -/

section Stream

variable (chunk : ℕ → ℕ)

/-- The round trip of the forward reader: for every read schedule, a file whose bytes after the
cursor are the frames of well-formed record buffers streams back the bodies of those frames, in
order, and ends without an error. -/
theorem recordsStream_frames {rbs : List (List UInt8)} (h : ∀ rb ∈ rbs, FrameBody rb)
    {f : LockedFile} (hf : f.data.drop f.pos = decoderFrames rbs) :
    recordsStream chunk f = some ⟨frameRecords rbs, none, .start, []⟩ := by
  have hd : drain .start (f.data.drop f.pos) = some ⟨frameRecords rbs, none, .start, []⟩ := by
    rw [hf, ← List.append_nil (decoderFrames rbs), drain_frames h, drain_start_nil]
    simp [Drive.after]
  exact recordsStream_of_drain chunk hd

/-- A file of a checkpoint frame and a label set frame, read a byte at a time. -/
theorem recordsStream_frames_checkpoint_labelSet :
    (∀ rb ∈ [1 :: writeU32 3, 0 :: 1 :: (([0] ++ layerBytes (0, 0, 0, 0, 9)) ++ writeU32 4)],
      FrameBody rb) ∧
    recordsStream (fun _ => 0)
        ⟨decoderFrames [1 :: writeU32 3, 0 :: 1 :: (([0] ++ layerBytes (0, 0, 0, 0, 9)) ++ writeU32 4)],
          0, 0⟩ =
      some ⟨frameRecords [1 :: writeU32 3,
        0 :: 1 :: (([0] ++ layerBytes (0, 0, 0, 0, 9)) ++ writeU32 4)], none, .start, []⟩ :=
  have h : ∀ rb ∈ [1 :: writeU32 3, 0 :: 1 :: (([0] ++ layerBytes (0, 0, 0, 0, 9)) ++ writeU32 4)],
      FrameBody rb := by
    simp only [List.mem_cons, List.mem_singleton, List.not_mem_nil, or_false, forall_eq_or_imp,
      forall_eq]
    have hl := FrameBody.labelSet [⟨[0] ++ layerBytes (0, 0, 0, 0, 9), by decide⟩] (writeU32 4)
      (List.cons_ne_nil _ _) (by decide) rfl
    exact ⟨.checkpoint _ rfl, by simpa using hl⟩
  ⟨h, recordsStream_frames (fun _ => 0) h rfl⟩

/-- What the forward reader accepts is well formed: for every read schedule, the records
`into_records_stream` yields are the bodies of well-formed frames lying back to back from the
cursor; and when the stream ends without an error, what follows those frames is the first fields
of at most one more frame (the bytes a state met from `Start` holds), which the stream drops. -/
theorem recordsStream_sound {f : LockedFile} {d : Drive} (h : recordsStream chunk f = some d) :
    ∃ rbs p, (∀ rb ∈ rbs, FrameBody rb) ∧ d.records = frameRecords rbs ∧
      f.data.drop f.pos = decoderFrames rbs ++ p ∧
      (d.error = none → d.state.Reading ∧ p = d.state.pending) := by
  obtain ⟨e, he⟩ := drain_fromStart (show FromStart .start from trivial) (f.data.drop f.pos)
  rw [recordsStream_of_drain chunk he, Option.some.injEq] at h
  subst h
  obtain ⟨rbs, p, hrbs, hrec, hb, herr⟩ := drain_consumed he
  refine ⟨rbs, p, hrbs, ?_, hb, fun hnone => ?_⟩
  · rw [← hrec]; obtain ⟨_, _ | _, _, _ | _⟩ := e <;> rfl
  · obtain ⟨rs, _ | err, st, _ | ⟨x, r⟩⟩ := e <;> cases hnone
    exact ⟨(herr rfl).1, by simpa using (herr rfl).2⟩

/-- The frame of `Checkpoint(0)` and the type byte of another checkpoint, read a byte at a time:
one record, then a clean end that drops the type byte. -/
theorem recordsStream_sound_torn_tail :
    ∃ d, recordsStream (fun _ => 0) ⟨decoderFrames [1 :: writeU32 0] ++ [1], 0, 0⟩ = some d ∧
      ∃ rbs p, (∀ rb ∈ rbs, FrameBody rb) ∧ d.records = frameRecords rbs ∧
        (decoderFrames [1 :: writeU32 0] ++ [1]).drop 0 = decoderFrames rbs ++ p ∧
        (d.error = none → d.state.Reading ∧ p = d.state.pending) := by
  have hd : drain .start ((decoderFrames [1 :: writeU32 0] ++ [1]).drop 0) =
      some ⟨frameRecords [1 :: writeU32 0], none, .checkpointReadIdentifier [1], []⟩ := by
    rw [List.drop_zero, drain_frames (by simpa using FrameBody.checkpoint (writeU32 0) rfl)]
    rfl
  have hs := recordsStream_of_drain (fun _ => 0) (f := ⟨_, 0, 0⟩) hd
  exact ⟨_, hs, recordsStream_sound (fun _ => 0) hs⟩

end Stream

/-! ## One record at a time -/

section Next

variable (chunk : ℕ → ℕ)

/-- A read whose size covers the rest of the file returns all of it and leaves the cursor at the
end. -/
theorem LockedFile.read_to_end {f : LockedFile} (hp : f.pos ≤ f.data.length)
    (h : f.data.length - f.pos ≤ chunk f.reads + 1) :
    f.read chunk = (f.data.drop f.pos, ⟨f.data, f.data.length, f.reads + 1⟩) := by
  simp only [LockedFile.read, List.take_of_length_le (by simpa using h : (f.data.drop f.pos).length ≤
    chunk f.reads + 1), List.length_drop]
  congr 2
  omega

/-- `next_record` returns the first frame of what its read returned and drops the rest of its
buffer with the `FramedRead`. So when the first read covers a frame and the frames after it,
`next_record` returns the first record and leaves the cursor at the end of the file, and the
next call returns no record: the frames after the first are lost, for every read schedule whose
first read reaches the end. -/
theorem nextRecord_drops_buffered {rb : List UInt8} {rbs : List (List UInt8)} (hrb : FrameBody rb)
    {f : LockedFile} (hd : f.data.drop f.pos = decoderFrames (rb :: rbs))
    (hread : f.data.length - f.pos ≤ chunk f.reads + 1) :
    nextRecord chunk f = .ok (some ⟨rb.drop 1⟩) ⟨f.data, f.data.length, f.reads + 1⟩ ∧
      nextRecord chunk ⟨f.data, f.data.length, f.reads + 1⟩ =
        .ok none ⟨f.data, f.data.length, f.reads + 2⟩ := by
  have hlen : f.pos < f.data.length := by
    have := congrArg List.length hd
    simp only [List.length_drop, decoderFrames_cons, List.length_append, length_decoderFrame] at this
    omega
  constructor
  · have hne : decoderFrame rb ++ decoderFrames rbs ≠ [] :=
      List.ne_nil_of_length_pos (by simp only [List.length_append, length_decoderFrame]; omega)
    rw [nextRecord, framedLoop]
    simp only [LockedFile.read_to_end chunk hlen.le hread, hd, decoderFrames_cons, if_neg hne,
      List.nil_append, decode_frame hrb]
  · simp [nextRecord, framedLoop, LockedFile.read, decodeEof, decode_start_nil]

/-- Two checkpoint frames read in one go. -/
theorem nextRecord_drops_buffered_two_checkpoints :
    FrameBody (1 :: writeU32 3) ∧
      nextRecord (fun _ => 26) ⟨decoderFrames [1 :: writeU32 3, 1 :: writeU32 4], 0, 0⟩ =
        .ok (some ⟨writeU32 3⟩) ⟨decoderFrames [1 :: writeU32 3, 1 :: writeU32 4], 26, 1⟩ ∧
      nextRecord (fun _ => 26) ⟨decoderFrames [1 :: writeU32 3, 1 :: writeU32 4], 26, 1⟩ =
        .ok none ⟨decoderFrames [1 :: writeU32 3, 1 :: writeU32 4], 26, 2⟩ :=
  ⟨.checkpoint _ rfl, nextRecord_drops_buffered (fun _ => 26) (.checkpoint (writeU32 3) rfl)
    (f := ⟨decoderFrames [1 :: writeU32 3, 1 :: writeU32 4], 0, 0⟩) rfl (by decide)⟩

end Next

/-! ## The record parser -/

/-- The entry loop of `LabelSetRecord::try_split_from_bytes` succeeds exactly on `k` entries. -/
theorem splitEntries_ok_iff {k : ℕ} {b d : List UInt8} :
    LabelSetRecord.splitEntries k b = (.ok (), d) ↔
      ∃ es : List LabelSetEntry, es.length = k ∧ b = (es.map (·.data)).flatten ++ d := by
  induction k generalizing b with
  | zero =>
    simp only [LabelSetRecord.splitEntries, Prod.mk.injEq, true_and, List.length_eq_zero]
    exact ⟨fun h => ⟨[], rfl, by simp [h]⟩, fun ⟨es, hes, hb⟩ => by simp [hb, hes]⟩
  | succ k ih =>
    constructor
    · intro h
      simp only [LabelSetRecord.splitEntries] at h
      split at h
      · rename_i e d' hs
        obtain ⟨es, hes, rfl⟩ := ih.1 h
        exact ⟨e :: es, by simp [hes], by simp [LabelSetEntry.eq_append_of_trySplitFromBytes hs]⟩
      · cases h
    · rintro ⟨_ | ⟨e, es⟩, hes, rfl⟩
      · cases hes
      · simp only [LabelSetRecord.splitEntries, List.map_cons, List.flatten_cons, List.append_assoc,
          LabelSetEntry.trySplitFromBytes_append]
        exact ih.2 ⟨es, by simpa using hes, rfl⟩

/-- The bodies `LabelSetRecord::try_split_from_bytes` takes whole: a count of at most 100, that
many entries, and an id. -/
def LabelSetBody (body : List UInt8) : Prop :=
  ∃ (n : UInt8) (es : List LabelSetEntry) (c : List UInt8),
    body = n :: ((es.map (·.data)).flatten ++ c) ∧ es.length = n.toNat ∧ ¬ 100 < n ∧ c.length = 4

theorem trySplitFromBytes_eq_ok_nil {body : List UInt8} {r : LabelSetRecord} :
    LabelSetRecord.trySplitFromBytes body = (.ok r, []) ↔ r = ⟨body⟩ ∧ LabelSetBody body := by
  constructor
  · intro ht
    match body, ht with
    | n :: rest, ht =>
      simp only [LabelSetRecord.trySplitFromBytes] at ht
      split_ifs at ht with h100
      · simp at ht
      split at ht
      · cases ht
      · rename_i d hs
        split_ifs at ht with hd4
        · simp at ht
        simp only [Prod.mk.injEq, Except.ok.injEq] at ht
        obtain ⟨rfl, hd⟩ := ht
        obtain ⟨es, hes, rfl⟩ := splitEntries_ok_iff.1 hs
        have hd4' : d.length = 4 := by
          have := congrArg List.length hd; simp at this; omega
        exact ⟨by simp; omega, n, es, d, rfl, hes, h100, hd4'⟩
  · rintro ⟨rfl, n, es, c, rfl, hes, h100, hc⟩
    have hs : LabelSetRecord.splitEntries n.toNat ((es.map (·.data)).flatten ++ c) = (.ok (), c) :=
      splitEntries_ok_iff.2 ⟨es, hes, rfl⟩
    simp only [LabelSetRecord.trySplitFromBytes, if_neg h100, hs,
      List.drop_eq_nil_of_le (le_of_eq hc), hc, lt_self_iff_false, if_false, Nat.sub_self,
      Nat.sub_zero]
    rw [List.take_of_length_le (by simp)]

/-- The bodies `try_split_from_bytes` takes whole are the decoder's label set bodies, and a zero
count followed by an id. -/
theorem labelSetBody_iff {body : List UInt8} :
    LabelSetBody body ↔ FrameBody (0 :: body) ∨ ∃ c, body = 0 :: c ∧ c.length = 4 := by
  constructor
  · rintro ⟨n, es, c, rfl, hes, h100, hc⟩
    by_cases hn : n = 0
    · subst hn
      obtain rfl : es = [] := List.eq_nil_of_length_eq_zero (by simpa using hes)
      exact .inr ⟨c, by simp, hc⟩
    · have hne : es ≠ [] := fun h => hn (UInt8.toNat.inj (by simp [← hes, h]))
      have h100' : es.length ≤ 100 := by rw [hes]; rw [uint8_lt_iff] at h100; simpa using h100
      have := FrameBody.labelSet es c hne h100' hc
      rw [hes, toUInt8_toNat] at this
      exact .inl this
  · rintro (hb | ⟨c, rfl, hc⟩)
    · generalize hx : (0 :: body) = x at hb
      cases hb with
      | checkpoint c hc => exact absurd (List.cons.inj hx).1 (by decide)
      | labelSet es c hne h100 hc =>
        obtain ⟨-, rfl⟩ := List.cons.inj hx
        have hn : es.length.toUInt8.toNat = es.length := by
          rw [toNat_toUInt8, Nat.mod_eq_of_lt (by omega)]
        exact ⟨_, es, c, rfl, hn.symm, by rw [uint8_lt_iff, hn]; simpa using h100, hc⟩
    · exact ⟨0, [], c, by simp, rfl, by decide, hc⟩

/-- `LabelSetRecord::from_bytes`, which `AnnotatedWalRecord::record` calls, and the decoder agree
on label set bodies: `from_bytes` returns a record exactly on the bodies the decoder reads as a
label set, and on a zero count followed by an id, which the decoder rejects with `ZeroLabels`;
the record holds the whole body. -/
theorem fromBytes_eq_some_iff {body : List UInt8} {r : LabelSetRecord} :
    LabelSetRecord.fromBytes body = some r ↔
      r = ⟨body⟩ ∧ (FrameBody (0 :: body) ∨ ∃ c, body = 0 :: c ∧ c.length = 4) := by
  rw [← labelSetBody_iff, ← trySplitFromBytes_eq_ok_nil, LabelSetRecord.fromBytes]
  constructor
  · intro h
    split at h
    · rename_i r' ht
      cases h
      exact ht
    · cases h
  · intro h
    rw [h]

end TerminusStore.Wal
