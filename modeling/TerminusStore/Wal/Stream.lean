import TerminusStore.Wal.File

/-!
# Reading the WAL forward to its end

Reference: `src/storage/directory/wal.rs`, `ReadableWalFile::into_records_stream`, the
`FramedRead` over `WalFileDecoder::Start` it returns.

tokio-codec's `FramedRead` reads into its buffer and calls `decode` until it returns `Ok(None)`,
yielding each frame (`feed`). When a read returns nothing it calls `decode_eof` until that returns
no frame; the default `decode_eof` calls `decode` once more and fails with "bytes remaining on
stream" when `decode` leaves bytes in the buffer (`finishEof`). A consumer reads the stream to its
first error or its end. `recordsStream` is that, for an arbitrary read schedule.

## Shape of the proof

A drive that has returned `Ok(None)` is settled: more `decode` calls without input change nothing
(`feed_nil_of_feed`). So each read the stream makes is one chunk fed to the driver, and by the
chunking results the reads together are all the bytes after the cursor fed at once
(`streamLoop_eq`); at the end, `decode_eof` only looks at the buffer (`finishEof_drain`).

The decoder moves every complete field it reads into its state, so where the input stops at a
field boundary the buffer is empty and `decode_eof` ends the stream as it would at a frame
boundary: `recordsStream_torn_checkpoint` shows it for a checkpoint frame cut after its type
byte, its id or its length field. Cut inside a field, the frame leaves bytes in the buffer and the
stream fails at the end (`recordsStream_torn_inside_field`). A label set frame behaves alike: cut
after its count or after any entry the stream ends cleanly, and cut inside an entry it fails
(`recordsStream_torn_labelSet`).
-/

namespace TerminusStore.Wal

/-- `decode_eof` on a drive that stopped on `Ok(None)`: an error when bytes remain in the
buffer. -/
def Drive.atEof (e : Drive) : Drive :=
  match e.error, e.rest with
  | none, _ :: _ => { e with error := some (.io .other) }
  | _, _ => e

/-- The polls of `decode_eof` at the end of the input, until it returns no frame: `decode` until
it returns `Ok(None)` or fails, then the check on the buffer. -/
def finishEof (d : Drive) : Option Drive :=
  match d.error with
  | some _ => some d
  | none => (drain d.state d.rest).map fun e => e.atEof.after d.records

/-- At the end of the input, `decode_eof` on what the calls of `decode` left is the check on the
buffer. -/
theorem finishEof_drain {st : WalFileDecoder} {b : List UInt8} {e : Drive}
    (h : drain st b = some e) : finishEof e = some e.atEof := by
  obtain ⟨rs, err, st', r⟩ := e
  cases err with
  | some e' => rfl
  | none =>
    simp only [finishEof, drain_settled h rfl, Option.map_some']
    cases r <;> simp [Drive.atEof, Drive.after]

/-- The decoder takes a checkpoint frame cut after its type byte, its id or its length field
into its state, and waits with nothing left in its buffer. -/
theorem decode_checkpoint_cut (c l x : UInt32) {k : ℕ} (hk : k = 1 ∨ k = 5 ∨ k = 9) :
    ∃ st, decode .start ((1 :: (writeU32 c ++ writeU32 l ++ writeU32 x)).take k) =
      some ⟨.ok none, st, []⟩ := by
  rcases hk with rfl | rfl | rfl <;> exact ⟨_, rfl⟩

/-- The decoder keeps a checkpoint frame cut inside its id, length or checksum field in its
buffer. -/
theorem decode_checkpoint_cut_inside (c l x : UInt32) {k : ℕ}
    (hk : 1 < k ∧ k < 13 ∧ k ≠ 5 ∧ k ≠ 9) :
    ∃ st r, decode .start ((1 :: (writeU32 c ++ writeU32 l ++ writeU32 x)).take k) =
      some ⟨.ok none, st, r⟩ ∧ r ≠ [] := by
  have : k = 2 ∨ k = 3 ∨ k = 4 ∨ k = 6 ∨ k = 7 ∨ k = 8 ∨ k = 10 ∨ k = 11 ∨ k = 12 := by omega
  rcases this with rfl | rfl | rfl | rfl | rfl | rfl | rfl | rfl | rfl <;>
    exact ⟨_, _, rfl, List.cons_ne_nil _ _⟩

/-- The decoder takes a label set frame cut inside an entry, or between entries: it reads the type
byte, the count and the entries before the cut into its state, and keeps the bytes of the cut
entry in its buffer. -/
theorem decode_labelSet_cut (pre : List LabelSetEntry) (e : LabelSetEntry)
    (post : List LabelSetEntry) (hcount : (pre ++ e :: post).length ≤ 100) {m : ℕ}
    (hm : m < e.data.length) :
    ∃ st, decode .start (0 :: (pre ++ e :: post).length.toUInt8 ::
        ((pre.map (·.data)).flatten ++ e.data.take m)) = some ⟨.ok none, st, e.data.take m⟩ := by
  have hlen : (pre ++ e :: post).length.toUInt8.toNat = (pre ++ e :: post).length := by
    rw [toNat_toUInt8]
    omega
  have h0 : (pre ++ e :: post).length.toUInt8 ≠ 0 := fun h => by
    have := congrArg UInt8.toNat h
    rw [hlen] at this
    simp at this
  have h100 : ¬ 100 < (pre ++ e :: post).length.toUInt8 := by
    rw [uint8_lt_iff, hlen]
    exact Nat.not_lt.2 hcount
  rw [decode_eq_step, decodeStep_start_zero]
  dsimp only
  rw [decode_eq_step, decodeStep_labelSetReadNumEntries _ _ h0 h100]
  dsimp only
  rw [hlen, decode_readEntries_lt pre (by simp)]
  exact ⟨_, decode_readEntry_take e hm _ _⟩

/-- Bytes the calls of `decode` take to a frame boundary, then input on which `decode` waits:
the calls end where `decode` waits, after the records of the first part. -/
theorem drain_append_wait {b p r : List UInt8} {rs : List AnnotatedWalRecord} {st : WalFileDecoder}
    (hb : drain .start b = some ⟨rs, none, .start, []⟩) (hp : decode .start p = some ⟨.ok none, st, r⟩) :
    drain .start (b ++ p) = some ⟨rs, none, st, r⟩ := by
  rw [drain_append, hb, Option.some_bind, feed, List.nil_append, drain_eq, hp]
  simp [Drive.after]

/-- The frame the decoder accepts for `Checkpoint(0)`: the type byte, the id, the length 5 of the
type byte and body, and the CRC over both. -/
def checkpointZeroFrame : List UInt8 :=
  1 :: (writeU32 0 ++ (writeU32 5 ++ writeU32 (checksumIeee ([1] ++ writeU32 0))))

theorem drain_checkpointZeroFrame :
    drain .start checkpointZeroFrame = some ⟨[⟨writeU32 0⟩], none, .start, []⟩ := by
  rw [drain_eq, checkpointZeroFrame, decode_checkpoint_zero_frame]
  rfl

section Stream

variable (chunk : ℕ → ℕ)

/-- The polls of `into_records_stream`, by fuel: each read's bytes go into the buffer and
`decode` is called until it returns `Ok(None)`; once a read returns nothing, `decode_eof` until it
returns no frame. -/
def streamLoop : ℕ → Drive → LockedFile → Option Drive
  | 0, d, _ => some d
  | fuel + 1, d, f =>
    let r := f.read chunk
    if r.1 = [] then finishEof d else (feed d r.1).bind (streamLoop fuel · r.2)

/-- `into_records_stream` read to its first error or its end: the records it yields, and the error
it ends on, if any. Every read but the last returns a byte, so one read more than there are bytes
after the cursor suffices. -/
def recordsStream (f : LockedFile) : Option Drive :=
  streamLoop chunk (f.data.length - f.pos + 1) ⟨[], none, .start, []⟩ f

/-- However the reads fall, the stream feeds the driver everything after the cursor, then
finishes at the end of the input. -/
theorem streamLoop_eq {fuel : ℕ} {d : Drive} {f : LockedFile} (hd : feed d [] = some d)
    (hfuel : f.data.length - f.pos < fuel) :
    streamLoop chunk fuel d f = (feed d (f.data.drop f.pos)).bind finishEof := by
  induction fuel generalizing d f with
  | zero => omega
  | succ fuel ih =>
    simp only [streamLoop]
    by_cases hb : (f.read chunk).1 = []
    · rw [if_pos hb, List.drop_eq_nil_of_le ((f.read_eq_nil chunk).1 hb), hd, Option.some_bind]
    · have hlt : f.pos < f.data.length := by
        by_contra h; exact hb ((f.read_eq_nil chunk).2 (by omega))
      have hp := f.read_pos chunk hlt
      rw [if_neg hb, f.read_append chunk, feed_append, Option.bind_assoc]
      rcases hf : feed d (f.read chunk).1 with _ | d'
      · rfl
      · simp only [Option.some_bind]
        exact ih (feed_nil_of_feed hf) (by rw [f.read_data chunk]; omega)

/-- The stream is the calls of `decode` on everything after the cursor, then `decode_eof`. -/
theorem recordsStream_of_drain {f : LockedFile} {d : Drive}
    (hd : drain .start (f.data.drop f.pos) = some d) : recordsStream chunk f = some d.atEof := by
  rw [recordsStream, streamLoop_eq chunk (d := ⟨[], none, .start, []⟩) rfl (Nat.lt_succ_self _)]
  simp only [feed, List.nil_append, hd, Option.map_some', Drive.after_nil, id, Option.some_bind]
  exact finishEof_drain hd

/-- Reading the WAL forward is decoding everything after the cursor at once: for every content,
cursor and read schedule, `into_records_stream` yields the records `WalFileDecoder` emits from
`Start` over those bytes and ends on the error it returns; where it returns none, the stream fails
at the end of the input exactly when bytes remain in the buffer. No call of `decode` panics. -/
theorem recordsStream_eq_drain (f : LockedFile) :
    ∃ d, drain .start (f.data.drop f.pos) = some d ∧ recordsStream chunk f = some d.atEof := by
  obtain ⟨d, hd⟩ := drain_fromStart (show FromStart .start from trivial) (f.data.drop f.pos)
  exact ⟨d, hd, recordsStream_of_drain chunk hd⟩

/-- A checkpoint frame cut after its type byte, its id or its length field, after any bytes the
stream reads to a frame boundary, for every read schedule: the stream yields the records before
the cut frame and ends without an error, as at a frame boundary; and `next_record` from the start
of the cut frame returns no record. -/
theorem recordsStream_torn_checkpoint {b : List UInt8} {rs : List AnnotatedWalRecord}
    (hb : drain .start b = some ⟨rs, none, .start, []⟩) (c l x : UInt32) {k : ℕ}
    (hk : k = 1 ∨ k = 5 ∨ k = 9) (n : ℕ) :
    (recordsStream chunk ⟨b ++ (1 :: (writeU32 c ++ writeU32 l ++ writeU32 x)).take k, 0, n⟩).map
        (fun d => (d.records, d.error)) = some (rs, none) ∧
      ∃ f', nextRecord chunk
        ⟨b ++ (1 :: (writeU32 c ++ writeU32 l ++ writeU32 x)).take k, b.length, n⟩ = .ok none f' := by
  obtain ⟨st, hp⟩ := decode_checkpoint_cut c l x hk
  have hdrain := drain_append_wait hb hp
  constructor
  · rw [recordsStream_of_drain chunk (f := ⟨_, 0, n⟩) (by rwa [List.drop_zero])]
    rfl
  · have hn := nextRecord_framed chunk ⟨b ++ (1 :: (writeU32 c ++ writeU32 l ++ writeU32 x)).take k,
      b.length, n⟩
    rw [List.drop_left, hp] at hn
    obtain ⟨f', hf', -⟩ := Framed.ok_none_nil hn
    exact ⟨f', hf'⟩

/-- That frame, then the type byte of another checkpoint, read a byte at a time: the stream
yields the checkpoint's record and ends without an error. -/
theorem recordsStream_torn_checkpoint_after_frame :
    drain .start checkpointZeroFrame = some ⟨[⟨writeU32 0⟩], none, .start, []⟩ ∧
      (1 = 1 ∨ 1 = 5 ∨ 1 = 9) ∧
      (recordsStream (fun _ => 0)
          ⟨checkpointZeroFrame ++ (1 :: (writeU32 0 ++ writeU32 0 ++ writeU32 0)).take 1, 0, 0⟩).map
        (fun d => (d.records, d.error)) = some ([⟨writeU32 0⟩], none) ∧
      ∃ f', nextRecord (fun _ => 0) ⟨checkpointZeroFrame ++
        (1 :: (writeU32 0 ++ writeU32 0 ++ writeU32 0)).take 1, checkpointZeroFrame.length, 0⟩ =
          .ok none f' :=
  ⟨drain_checkpointZeroFrame, .inl rfl,
    recordsStream_torn_checkpoint (fun _ => 0) drain_checkpointZeroFrame 0 0 0 (.inl rfl) 0⟩

/-- A checkpoint frame cut inside its id, length or checksum field, after any bytes the stream
reads to a frame boundary, for every read schedule: the stream yields the records before the cut
frame and then fails at the end of the input, as bytes remain in the buffer. -/
theorem recordsStream_torn_inside_field {b : List UInt8} {rs : List AnnotatedWalRecord}
    (hb : drain .start b = some ⟨rs, none, .start, []⟩) (c l x : UInt32) {k : ℕ}
    (hk : 1 < k ∧ k < 13 ∧ k ≠ 5 ∧ k ≠ 9) (n : ℕ) :
    (recordsStream chunk ⟨b ++ (1 :: (writeU32 c ++ writeU32 l ++ writeU32 x)).take k, 0, n⟩).map
      (fun d => (d.records, d.error)) = some (rs, some (.io .other)) := by
  obtain ⟨st, r, hp, hr⟩ := decode_checkpoint_cut_inside c l x hk
  have hdrain := drain_append_wait hb hp
  rw [recordsStream_of_drain chunk (f := ⟨_, 0, n⟩) (by rwa [List.drop_zero])]
  obtain ⟨y, r, rfl⟩ := List.exists_cons_of_ne_nil hr
  rfl

/-- That frame, then the type byte and two bytes of the id of another checkpoint, read a byte at
a time: the stream yields the checkpoint's record and then fails. -/
theorem recordsStream_torn_inside_field_after_frame :
    drain .start checkpointZeroFrame = some ⟨[⟨writeU32 0⟩], none, .start, []⟩ ∧
      (1 < 3 ∧ 3 < 13 ∧ 3 ≠ 5 ∧ 3 ≠ 9) ∧
      (recordsStream (fun _ => 0)
          ⟨checkpointZeroFrame ++ (1 :: (writeU32 0 ++ writeU32 0 ++ writeU32 0)).take 3, 0, 0⟩).map
        (fun d => (d.records, d.error)) = some ([⟨writeU32 0⟩], some (.io .other)) :=
  ⟨drain_checkpointZeroFrame, by decide,
    recordsStream_torn_inside_field (fun _ => 0) drain_checkpointZeroFrame 0 0 0 (by decide) 0⟩

/-- Bytes the stream reads to a frame boundary, then bytes on which `decode` waits, for every read
schedule: the stream yields the records of the first part, and fails at the end of the input
exactly when `decode` left bytes in its buffer. -/
theorem recordsStream_append_wait {b p r : List UInt8} {rs : List AnnotatedWalRecord}
    {st : WalFileDecoder} (hb : drain .start b = some ⟨rs, none, .start, []⟩)
    (hp : decode .start p = some ⟨.ok none, st, r⟩) (n : ℕ) :
    (recordsStream chunk ⟨b ++ p, 0, n⟩).map (fun d => (d.records, d.error)) =
      some (rs, if r = [] then none else some (.io .other)) := by
  rw [recordsStream_of_drain chunk (f := ⟨_, 0, n⟩) (by rw [List.drop_zero]; exact drain_append_wait hb hp)]
  cases r <;> rfl

/-- A label set frame cut inside an entry or between entries (after its count or after any
entry), after any bytes the stream reads to a frame boundary, for every read schedule: the
stream yields the records before the cut frame. Cut between entries (`m = 0`) it then ends
without an error, as at a frame boundary; cut inside an entry it fails at the end of the input. -/
theorem recordsStream_torn_labelSet {b : List UInt8} {rs : List AnnotatedWalRecord}
    (hb : drain .start b = some ⟨rs, none, .start, []⟩) (pre : List LabelSetEntry)
    (e : LabelSetEntry) (post : List LabelSetEntry) (hcount : (pre ++ e :: post).length ≤ 100)
    {m : ℕ} (hm : m < e.data.length) (n : ℕ) :
    (recordsStream chunk ⟨b ++ 0 :: (pre ++ e :: post).length.toUInt8 ::
        ((pre.map (·.data)).flatten ++ e.data.take m), 0, n⟩).map (fun d => (d.records, d.error)) =
      some (rs, if m = 0 then none else some (.io .other)) := by
  obtain ⟨st, hp⟩ := decode_labelSet_cut pre e post hcount hm
  have hne : e.data ≠ [] := List.ne_nil_of_length_pos (by omega)
  rw [recordsStream_append_wait chunk hb hp]
  simp only [List.take_eq_nil_iff, hne, or_false]

/-- The entry of the empty label bound to the layer `[0, 0, 0, 7, 0]`. -/
def emptyLabelEntry : LabelSetEntry := ⟨0 :: layerBytes (0, 0, 0, 7, 0), rfl⟩

/-- The checkpoint frame, then a label set of two entries cut three bytes into its second: the
stream yields the checkpoint's record and fails. -/
theorem recordsStream_torn_labelSet_after_frame :
    drain .start checkpointZeroFrame = some ⟨[⟨writeU32 0⟩], none, .start, []⟩ ∧
      ([emptyLabelEntry] ++ emptyLabelEntry :: []).length ≤ 100 ∧ 3 < emptyLabelEntry.data.length ∧
      (recordsStream (fun _ => 0) ⟨checkpointZeroFrame ++
          0 :: ([emptyLabelEntry] ++ emptyLabelEntry :: []).length.toUInt8 ::
            (([emptyLabelEntry].map (·.data)).flatten ++ emptyLabelEntry.data.take 3), 0, 0⟩).map
        (fun d => (d.records, d.error)) =
        some ([⟨writeU32 0⟩], if 3 = 0 then none else some (.io .other)) :=
  ⟨drain_checkpointZeroFrame, by decide, by decide,
    recordsStream_torn_labelSet (fun _ => 0) drain_checkpointZeroFrame [emptyLabelEntry]
      emptyLabelEntry [] (by decide) (by decide) 0⟩

end Stream

end TerminusStore.Wal
