import TerminusStore.Wal.Format
import TerminusStore.Wal.Writer

/-!
# Reading well-formed frames backwards

Reference: `src/storage/directory/wal.rs`,
`ReadableWalFile::{seek_previous, peek_previous, previous}` and the operations built on them:
`get_last_id`, `get_last_checkpoint`, the two label scans, `ExclusiveWalFile::{append_labelset,
append_checkpoint, truncate}`.

The forward reader accepts exactly the frames of `TerminusStore.Wal.Format`. From the end of such
a frame, `seek_previous` reads the frame's length field `len` and aims `len + 16` bytes back,
eight bytes before the frame's start (`seekPrevious_frame_end`). After a single frame its length
check fails with `IncompleteRecord`. After more, it lands on the length and checksum fields of
the frame before. Every record buffer is shorter than `2 ^ 16`, so that length field begins with
two zero bytes, and the decoder reads them as a label set without labels: `ZeroLabels`.

`walOperations_after_frames` puts this together. Take any WAL whose bytes before the cursor are
one or more well-formed frames, whatever follows and however the reads fall. On it,
`peek_previous`, `previous`, `get_last_id`, `get_last_checkpoint`, both label scans, both appends
and `truncate` all fail. The backward reader reads nothing the forward reader accepts.
-/

namespace TerminusStore.Wal

/-! ## Frames -/

theorem decoderFrames_concat (rbs : List (List UInt8)) (rb : List UInt8) :
    decoderFrames (rbs ++ [rb]) = decoderFrames rbs ++ decoderFrame rb := by
  simp [decoderFrames]

/-- The big-endian bytes of a word below `2 ^ 16` begin with two zero bytes. -/
theorem writeU32_of_lt {x : UInt32} (h : x.toNat < 2 ^ 16) :
    ∃ b2 b3, writeU32 x = [0, 0, b2, b3] := by
  have h24 : x.toNat / 2 ^ 24 = 0 := Nat.div_eq_of_lt (by omega)
  have h16 : x.toNat / 2 ^ 16 = 0 := Nat.div_eq_of_lt h
  exact ⟨_, _, by simp only [writeU32, h24, h16]; rfl⟩

/-- From `Start`, two zero bytes are a label set without labels. -/
theorem decode_zero_zero (rest : List UInt8) :
    decode .start (0 :: 0 :: rest) = some ⟨.error .zeroLabels, .invalid, 0 :: rest⟩ := by
  rw [decode_next (decodeStep_start_zero _), decode_eq_step,
    decodeStep_labelSetReadNumEntries_zero]

/-- Where `decode` fails on everything after the cursor, `next_record` fails with that error and
its handle. -/
theorem Framed.err_of_error {data : List UInt8} {stop : ℕ} {e : WalError} {st : WalFileDecoder}
    {r : List UInt8} {o : Outcome LockedFile (Option AnnotatedWalRecord)}
    (h : Framed data stop (some ⟨.error e, st, r⟩) o) : ∃ g, o = .err e (some g) := by
  rcases o with ⟨_ | a, f⟩ | ⟨e', _ | g⟩ | _
  all_goals first | exact absurd h id | exact ⟨g, by rw [h.1]⟩

/-! ## One step back from a frame boundary -/

section Step

variable (chunk : ℕ → ℕ) {f : LockedFile} {before rb more : List UInt8}

/-- `seek_previous` from the end of a well-formed frame that follows the bytes `before`: it fails
its length check when fewer than eight bytes precede the frame, and otherwise lands eight bytes
before the frame's start. -/
theorem seekPrevious_frame_end (h : FrameBody rb) (hd : f.data = before ++ decoderFrame rb ++ more)
    (hp : f.pos = before.length + rb.length + 8) :
    seekPrevious f = if before.length < 8 then .err .incompleteRecord (some ⟨f.data, f.pos - 4, f.reads⟩)
      else .ok (before.length - 8) ⟨f.data, before.length - 8, f.reads⟩ := by
  have hlt := h.length_lt
  have hd8 : (f.data.drop (f.pos - 8)).take 8 =
      writeU32 rb.length.toUInt32 ++ writeU32 (checksumIeee rb) := by
    rw [hd, hp, show before.length + rb.length + 8 - 8 = (before ++ rb).length by simp]
    simp only [decoderFrame, List.append_assoc]
    rw [← List.append_assoc before rb, List.drop_left, ← List.append_assoc (writeU32 _)]
    exact List.take_left' (by simp)
  have hlen : rb.length.toUInt32.toNat = rb.length := by
    rw [toNat_toUInt32, Nat.mod_eq_of_lt (by omega)]
  rw [seekPrevious_eq (by omega) hd8, hlen]
  by_cases hb : before.length < 8
  · rw [if_pos (by omega), if_pos hb]
  · rw [if_neg (by omega), if_neg hb, show f.pos - rb.length - 16 = before.length - 8 by omega]

/-- From the end of two or more well-formed frames, `peek_previous` lands on the length field of
the frame before the last, and fails there with `ZeroLabels`. -/
theorem peekPrevious_two_frames_end {rb' : List UInt8} (h' : FrameBody rb') (h : FrameBody rb)
    (hd : f.data = before ++ decoderFrame rb' ++ decoderFrame rb ++ more)
    (hp : f.pos = (before ++ decoderFrame rb' ++ decoderFrame rb).length) :
    ∃ g, peekPrevious chunk f = .err .zeroLabels (some g) := by
  have hb8 : ¬ (before ++ decoderFrame rb').length < 8 := by simp; omega
  have hs := seekPrevious_frame_end h hd (by simp [hp]; omega)
  rw [if_neg hb8] at hs
  obtain ⟨b2, b3, hw⟩ := writeU32_of_lt (x := rb'.length.toUInt32)
    (by rw [toNat_toUInt32, Nat.mod_eq_of_lt (by have := h'.length_lt; omega)]; exact h'.length_lt)
  have hdrop : f.data.drop ((before ++ decoderFrame rb').length - 8) =
      0 :: 0 :: (b2 :: b3 :: (writeU32 (checksumIeee rb') ++ decoderFrame rb ++ more)) := by
    rw [hd, show (before ++ decoderFrame rb').length - 8 = (before ++ rb').length by simp; omega,
      decoderFrame, hw]
    simp [List.drop_left]
  obtain ⟨g, hg⟩ := Framed.err_of_error (by
    simpa only [hdrop, decode_zero_zero] using
      nextRecord_framed chunk ⟨f.data, (before ++ decoderFrame rb').length - 8, f.reads⟩)
  refine ⟨g, ?_⟩
  have h0 : f.pos ≠ 0 := by simp [hp]
  simp only [peekPrevious, if_neg h0, hs, Outcome.ok_bind, hg]

end Step

/-! ## Every operation that reads back -/

section Operations

variable (chunk : ℕ → ℕ) {rbs : List (List UInt8)} {f : LockedFile} {more : List UInt8}

/-- `peek_previous` and `previous` from the end of one or more well-formed frames fail:
`IncompleteRecord` after one frame, `ZeroLabels` after more. -/
theorem peekPrevious_after_frames (h : ∀ rb ∈ rbs, FrameBody rb) (hne : rbs ≠ [])
    (hd : f.data = decoderFrames rbs ++ more) (hp : f.pos = (decoderFrames rbs).length) :
    ∃ g, peekPrevious chunk f =
        .err (if rbs.length = 1 then .incompleteRecord else .zeroLabels) (some g) ∧
      previous chunk f = .err (if rbs.length = 1 then .incompleteRecord else .zeroLabels) (some g) := by
  obtain ⟨pre, rb, rfl⟩ : ∃ pre rb, rbs = pre ++ [rb] :=
    ⟨_, _, (List.dropLast_append_getLast hne).symm⟩
  have hrb := h rb (by simp)
  rw [decoderFrames_concat] at hd hp
  have hpk : ∃ g, peekPrevious chunk f =
      .err (if (pre ++ [rb]).length = 1 then .incompleteRecord else .zeroLabels) (some g) := by
    rcases pre.eq_nil_or_concat with rfl | ⟨pre', rb', rfl⟩
    · have hd' : f.data = [] ++ decoderFrame rb ++ more := by simpa using hd
      have hs := seekPrevious_frame_end hrb hd' (by simp [hp])
      rw [if_pos (by simp)] at hs
      exact ⟨_, by simpa using (peekPrevious_of_seekPrevious_err chunk (by simp [hp]) hs).1⟩
    · rw [List.concat_eq_append, decoderFrames_concat] at hd hp
      simpa using peekPrevious_two_frames_end chunk (h rb' (by simp)) hrb hd hp
  obtain ⟨g, hg⟩ := hpk
  exact ⟨g, hg, by rw [previous, hg, Outcome.err_bind]⟩

/-- The backward reader reads nothing the forward reader accepts. On every WAL whose bytes
before the cursor are one or more well-formed frames, whatever follows and for every read
schedule, every operation that reads back fails: `peek_previous`, `previous`, `get_last_id`,
`get_last_checkpoint` and both label scans with their handle, both appends and `truncate`
without it. The error is `IncompleteRecord` after one frame and `ZeroLabels` after more. -/
theorem walOperations_after_frames (h : ∀ rb ∈ rbs, FrameBody rb) (hne : rbs ≠ [])
    (hd : f.data = decoderFrames rbs ++ more) (hp : f.pos = (decoderFrames rbs).length) :
    ∃ g, peekPrevious chunk f =
        .err (if rbs.length = 1 then .incompleteRecord else .zeroLabels) (some g) ∧
      previous chunk f = .err (if rbs.length = 1 then .incompleteRecord else .zeroLabels) (some g) ∧
      getLastId (fileBackward chunk) f =
        .err (if rbs.length = 1 then .incompleteRecord else .zeroLabels) (some g) ∧
      getLastCheckpoint (fileBackward chunk) f =
        .err (if rbs.length = 1 then .incompleteRecord else .zeroLabels) (some g) ∧
      (∀ labels, getLabelsSinceLastCheckpoint (fileBackward chunk) labels f =
        .err (if rbs.length = 1 then .incompleteRecord else .zeroLabels) (some g)) ∧
      getAllLabelsSinceLastCheckpoint (fileBackward chunk) f =
        .err (if rbs.length = 1 then .incompleteRecord else .zeroLabels) (some g) ∧
      (∀ id labels, appendLabelset (fileBackward chunk) LockedFile.writeFrame f id labels =
        .err (if rbs.length = 1 then .incompleteRecord else .zeroLabels) none) ∧
      (∀ checkpoint, appendCheckpoint (fileBackward chunk) LockedFile.writeFrame f checkpoint =
        .err (if rbs.length = 1 then .incompleteRecord else .zeroLabels) none) ∧
      truncate chunk f = .err (if rbs.length = 1 then .incompleteRecord else .zeroLabels) none := by
  obtain ⟨g, hpk, hpr⟩ := peekPrevious_after_frames chunk h hne hd hp
  have hB : (fileBackward chunk).previous f = _ := hpr
  have hscan : ∀ {W : Type} (collect : UInt32 → ScanState W → LabelSetEntry → ScanState W) (w : W),
      scanSinceLastCheckpoint (fileBackward chunk) collect w f =
        .err (if rbs.length = 1 then .incompleteRecord else .zeroLabels) (some g) := fun _ _ => by
    rw [scanSinceLastCheckpoint, walkBackwards_of_err _ hB]
    rfl
  refine ⟨g, hpk, hpr, getLastId_of_err _ hB, getLastCheckpoint_of_err _ hB,
    fun _ => hscan _ _, hscan _ _, fun _ _ => ?_, fun _ => ?_, ?_⟩
  · rw [appendLabelset, getLastId_of_err _ hB]
  · rw [appendCheckpoint, getLastCheckpoint_of_err _ hB]
  · rw [truncate, hpk]

/-- The WAL of the frames of `Checkpoint(3)` and `Checkpoint(4)`, read a byte at a time from
its end. -/
theorem walOperations_after_two_checkpoints :
    (∀ rb ∈ [1 :: writeU32 3, 1 :: writeU32 4], FrameBody rb) ∧
      ∃ g, peekPrevious (fun _ => 0) ⟨decoderFrames [1 :: writeU32 3, 1 :: writeU32 4], 26, 0⟩ =
          .err (if [1 :: writeU32 3, 1 :: writeU32 4].length = 1 then .incompleteRecord
            else .zeroLabels) (some g) ∧
        truncate (fun _ => 0) ⟨decoderFrames [1 :: writeU32 3, 1 :: writeU32 4], 26, 0⟩ =
          .err (if [1 :: writeU32 3, 1 :: writeU32 4].length = 1 then .incompleteRecord
            else .zeroLabels) none :=
  have h : ∀ rb ∈ [1 :: writeU32 3, 1 :: writeU32 4], FrameBody rb := by
    simp only [List.mem_cons, List.mem_singleton, List.not_mem_nil, or_false, forall_eq_or_imp,
      forall_eq]
    exact ⟨.checkpoint _ rfl, .checkpoint _ rfl⟩
  let ⟨g, hpk, _, _, _, _, _, _, _, htr⟩ := walOperations_after_frames (fun _ => 0)
    (f := ⟨decoderFrames [1 :: writeU32 3, 1 :: writeU32 4], 26, 0⟩) h (List.cons_ne_nil _ _)
    (List.append_nil _).symm rfl
  ⟨h, g, hpk, htr⟩

end Operations

end TerminusStore.Wal
