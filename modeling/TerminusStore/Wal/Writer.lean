import TerminusStore.Wal.Recovery

/-!
# The writer

Reference: `src/storage/directory/wal.rs`,
`ExclusiveWalFile::{append_labelset, append_checkpoint, truncate}` and `WalFileEncoder`.

An append reads the last id (or the last checkpoint) with a backward walk from the cursor, and
writes the new frame through the handle that walk returns. The file-lock facility that writes
and truncates is outside the source: a write here goes at the handle's cursor, as a file opened
without append mode does, and `truncate` cuts the file at the cursor, as the spec describes it.

`append_single_frame` shows that neither append succeeds on a file that holds one frame, with
the cursor at its end: the guard's walk fails in `seek_previous` (see `previous_single_frame`).
`tornTail_peekPrevious` is a file whose last 23 bytes end on a field boundary of a label set:
the decoder runs out of input there, so `peek_previous` reports the start of the file from an
offset past it, and `truncate` accepts the cursor.
-/

namespace TerminusStore.Wal

namespace LockedFile

/-- A write through the handle: the bytes go at the cursor, over what is there, and the cursor
moves past them. -/
def write (f : LockedFile) (bytes : List UInt8) : LockedFile :=
  { f with
    data := f.data.take f.pos ++ List.replicate (f.pos - f.data.length) 0 ++ bytes ++
      f.data.drop (f.pos + bytes.length),
    pos := f.pos + bytes.length }

/-- Modelled from the spec: the lock facility's `truncate` cuts the file at the cursor. -/
def truncate (f : LockedFile) : LockedFile := { f with data := f.data.take f.pos }

end LockedFile

/-- `FramedWrite::send` of a frame through `WalFileEncoder`, then `do_shutdown`. -/
def LockedFile.writeFrame (f : LockedFile) (w : WalRecord) : LockedFile :=
  f.write (AnnotatedWalRecord.new w).data

section Writer

variable {F : Type} (B : Backward F) (write : F → WalRecord → F)

/-- `ExclusiveWalFile::append_labelset` over a handle that writes a record's frame with
`write`, with the label map's bindings in its iteration order; the result's handle is the
file after the call. The guard's `last_id + 1` panics at `u32::MAX`, as overflow checks do. -/
def appendLabelset (f : F) (id : UInt32) (labels : List (Str × Layer)) : Outcome F Bool :=
  match getLastId B f with
  | .ok lastId wal =>
    if lastId = 4294967295 then .panic
    else if id = lastId + 1 then
      match (LogRecord.labelSet id labels).toWalRecord with
      | some w => .ok true (write wal w)
      | none => .panic
    else .ok false wal
  | .err e _ => .err e none
  | .panic => .panic

/-- `ExclusiveWalFile::append_checkpoint`; the result's handle is the file after the call. -/
def appendCheckpoint (f : F) (checkpoint : UInt32) : Outcome F Bool :=
  match getLastCheckpoint B f with
  | .ok lastCheckpoint wal =>
    if lastCheckpoint < checkpoint then
      .ok true (write wal (.checkpoint (CheckpointRecord.new checkpoint)))
    else .ok false wal
  | .err e _ => .err e none
  | .panic => .panic

/-- `ExclusiveWalFile::truncate`: `peek_previous`, then cut the file where the cursor stands. -/
def truncate (chunk : ℕ → ℕ) (f : LockedFile) : Outcome LockedFile Unit :=
  match peekPrevious chunk f with
  | .ok _ wal => .ok () wal.truncate
  | .err e _ => .err e none
  | .panic => .panic

end Writer

/-! ## Appending to a file of one frame -/

section Walk

variable {F σ T : Type} (B : Backward F)

/-- A walk whose first `previous` fails fails with it. -/
theorem walkBackwards_of_err {f : F} {e : WalError} {h : Option F} (hp : B.previous f = .err e h)
    (visit : Visitor σ T) (s : σ) : walkBackwards B visit s f = .err e h := by
  rw [walkBackwards_eq, hp]
  rfl

theorem getLastId_of_err {f : F} {e : WalError} {h : Option F} (hp : B.previous f = .err e h) :
    getLastId B f = .err e h := by
  rw [getLastId, walkBackwards_of_err B hp]
  rfl

theorem getLastCheckpoint_of_err {f : F} {e : WalError} {h : Option F}
    (hp : B.previous f = .err e h) : getLastCheckpoint B f = .err e h := by
  rw [getLastCheckpoint, walkBackwards_of_err B hp]
  rfl

end Walk

/-- Neither append succeeds on a file that holds just one frame the writer built, with the
cursor at its end, whatever the reads return, the id, the labels or the checkpoint: both fail
with `IncompleteRecord`. -/
theorem append_single_frame (chunk : ℕ → ℕ) {r : LogRecord} {w : WalRecord}
    (h : r.toWalRecord = some w) (n : ℕ) (id checkpoint : UInt32) (labels : List (Str × Layer)) :
    appendLabelset (fileBackward chunk) LockedFile.writeFrame
        ⟨(AnnotatedWalRecord.new w).data, (AnnotatedWalRecord.new w).data.length, n⟩ id labels =
      .err .incompleteRecord none ∧
    appendCheckpoint (fileBackward chunk) LockedFile.writeFrame
        ⟨(AnnotatedWalRecord.new w).data, (AnnotatedWalRecord.new w).data.length, n⟩ checkpoint =
      .err .incompleteRecord none := by
  have hp := (peekPrevious_of_seekPrevious_err chunk (by simp) (seekPrevious_single_frame h n)).2
  constructor
  · rw [appendLabelset, getLastId_of_err (fileBackward chunk) hp]
  · rw [appendCheckpoint, getLastCheckpoint_of_err (fileBackward chunk) hp]

/-- The one-frame file of `[Checkpoint(0)]` refuses `append_checkpoint(1)` and
`append_labelset(1, {})`. -/
theorem append_single_frame_checkpoint_zero :
    (LogRecord.checkpoint 0).toWalRecord = some (.checkpoint (CheckpointRecord.new 0)) ∧
      appendLabelset (fileBackward fun _ => 0) LockedFile.writeFrame
          ⟨(AnnotatedWalRecord.new (.checkpoint (CheckpointRecord.new 0))).data, 13, 0⟩ 1 [] =
        .err .incompleteRecord none ∧
      appendCheckpoint (fileBackward fun _ => 0) LockedFile.writeFrame
          ⟨(AnnotatedWalRecord.new (.checkpoint (CheckpointRecord.new 0))).data, 13, 0⟩ 1 =
        .err .incompleteRecord none :=
  ⟨rfl, append_single_frame (fun _ => 0) (r := .checkpoint 0) rfl 0 1 1 []⟩

/-! ## A torn tail -/

/-- A label set cut short after its first entry: type 0, two entries announced, and one entry
with an empty label and the layer `(0, 0, 0, 7, 0)`. -/
def tornTail : List UInt8 := [0, 2, 0] ++ layerBytes (0, 0, 0, 7, 0)

/-- The decoder runs out of input in the middle of the label set, with nothing left over. -/
theorem decode_tornTail : ∃ st, decode .start tornTail = some ⟨.ok none, st, []⟩ :=
  ⟨_, rfl⟩

/-- From offset 23 of the torn tail, whatever the reads return, `peek_previous` reports the start
of the file and leaves the cursor at 23, and `truncate` succeeds there and keeps the file. -/
theorem tornTail_peekPrevious (chunk : ℕ → ℕ) (n : ℕ) :
    ∃ m, peekPrevious chunk ⟨tornTail, 23, n⟩ = .ok none ⟨tornTail, 23, m⟩ ∧
      truncate chunk ⟨tornTail, 23, n⟩ = .ok () ⟨tornTail, 23, m⟩ := by
  have hs : seekPrevious ⟨tornTail, 23, n⟩ = .ok 0 ⟨tornTail, 0, n⟩ := rfl
  obtain ⟨st, hd⟩ := decode_tornTail
  have hn := nextRecord_framed chunk ⟨tornTail, 0, n⟩
  simp only [List.drop_zero, hd, show max 0 tornTail.length = 23 from rfl] at hn
  obtain ⟨⟨d, p, m⟩, hr, rfl, rfl⟩ := hn.ok_none_nil
  have hp : peekPrevious chunk ⟨tornTail, 23, n⟩ = .ok none ⟨tornTail, 23, m⟩ := by
    simp only [peekPrevious, hs, Outcome.ok_bind, hr]
    rfl
  exact ⟨m, hp, by rw [truncate, hp]; rfl⟩

/-! ## Calls from the empty file

Each append and `truncate` consumes its `ExclusiveWalFile`, so a caller opens the file again for
the next call. `FileFromEmpty` is the set of files that calls leave behind, call after call, from
the empty file. As in `TerminusStore.Wal.Log`, each call is made with the cursor at the end of the
file. On the empty file both guards read 0, and an admitted record's frame goes at offset 0.
From the end of that one frame every later call fails in `seek_previous`. So the file never holds
more than one frame (`fileFromEmpty_atMostOneFrame`), where the log view grows without bound. -/

/-- The files of at most one frame, one the writer built. -/
def AtMostOneFrame (data : List UInt8) : Prop :=
  data = [] ∨ ∃ r w, LogRecord.toWalRecord r = some w ∧ data = (AnnotatedWalRecord.new w).data

/-- The WAL files the calls leave, call after call, from the empty file; each call is made on a
handle at the end of the file, read with the schedule `chunk`. -/
inductive FileFromEmpty (chunk : ℕ → ℕ) : List UInt8 → Prop
  | empty : FileFromEmpty chunk []
  | labelSet {data : List UInt8} {n : ℕ} {id : UInt32} {labels : List (Str × Layer)} {b : Bool}
      {f : LockedFile} : FileFromEmpty chunk data →
      appendLabelset (fileBackward chunk) LockedFile.writeFrame ⟨data, data.length, n⟩ id labels =
        .ok b f → FileFromEmpty chunk f.data
  | checkpoint {data : List UInt8} {n : ℕ} {c : UInt32} {b : Bool} {f : LockedFile} :
      FileFromEmpty chunk data →
      appendCheckpoint (fileBackward chunk) LockedFile.writeFrame ⟨data, data.length, n⟩ c =
        .ok b f → FileFromEmpty chunk f.data
  | truncate {data : List UInt8} {n : ℕ} {f : LockedFile} : FileFromEmpty chunk data →
      truncate chunk ⟨data, data.length, n⟩ = .ok () f → FileFromEmpty chunk f.data

section FromEmpty

variable (chunk : ℕ → ℕ) (n : ℕ)

/-- On the empty file, the walk meets the start at once: both guards read 0. -/
theorem getLastId_empty : getLastId (fileBackward chunk) ⟨[], 0, n⟩ = .ok 0 ⟨[], 0, n⟩ := rfl

theorem getLastCheckpoint_empty :
    getLastCheckpoint (fileBackward chunk) ⟨[], 0, n⟩ = .ok 0 ⟨[], 0, n⟩ := rfl

/-- A frame written on the empty file is the whole file. -/
theorem atMostOneFrame_writeFrame {r : LogRecord} {w : WalRecord} (hr : r.toWalRecord = some w) :
    AtMostOneFrame (LockedFile.writeFrame ⟨[], 0, n⟩ w).data :=
  .inr ⟨r, w, hr, by simp [LockedFile.writeFrame, LockedFile.write]⟩

variable {chunk n} {data : List UInt8}

theorem appendLabelset_atMostOneFrame (hd : AtMostOneFrame data) {id : UInt32}
    {labels : List (Str × Layer)} {b : Bool} {f : LockedFile}
    (h : appendLabelset (fileBackward chunk) LockedFile.writeFrame ⟨data, data.length, n⟩ id labels =
      .ok b f) : AtMostOneFrame f.data := by
  rcases hd with rfl | ⟨r, w, hr, rfl⟩
  · rw [List.length_nil, appendLabelset, getLastId_empty] at h
    dsimp only at h
    split_ifs at h
    · split at h
      · cases h; exact atMostOneFrame_writeFrame n ‹_›
      · cases h
    · cases h; exact .inl rfl
  · rw [appendLabelset, getLastId_of_err _
    (peekPrevious_of_seekPrevious_err chunk (by simp) (seekPrevious_single_frame hr n)).2] at h
    cases h

theorem appendCheckpoint_atMostOneFrame (hd : AtMostOneFrame data) {c : UInt32} {b : Bool}
    {f : LockedFile}
    (h : appendCheckpoint (fileBackward chunk) LockedFile.writeFrame ⟨data, data.length, n⟩ c =
      .ok b f) : AtMostOneFrame f.data := by
  rcases hd with rfl | ⟨r, w, hr, rfl⟩
  · rw [List.length_nil, appendCheckpoint, getLastCheckpoint_empty] at h
    dsimp only at h
    split_ifs at h
    · cases h; exact atMostOneFrame_writeFrame (r := .checkpoint c) n rfl
    · cases h; exact .inl rfl
  · rw [appendCheckpoint, getLastCheckpoint_of_err _
    (peekPrevious_of_seekPrevious_err chunk (by simp) (seekPrevious_single_frame hr n)).2] at h
    cases h

theorem truncate_atMostOneFrame (hd : AtMostOneFrame data) {f : LockedFile}
    (h : truncate chunk ⟨data, data.length, n⟩ = .ok () f) : AtMostOneFrame f.data := by
  rcases hd with rfl | ⟨r, w, hr, rfl⟩
  · cases h; exact .inl rfl
  · rw [truncate, (peekPrevious_of_seekPrevious_err chunk (by simp)
      (seekPrevious_single_frame hr n)).1] at h
    cases h

end FromEmpty

/-- Over the real file, the WAL never holds more than one frame: along every sequence of
`append_labelset`, `append_checkpoint` and `truncate` calls from the empty file, each made at the
end of the file and for every read schedule, the file is empty or is the one frame of a record
the writer built. The first admitted record is written at offset 0; every call from the end of
its frame fails. -/
theorem fileFromEmpty_atMostOneFrame {chunk : ℕ → ℕ} {data : List UInt8}
    (h : FileFromEmpty chunk data) : AtMostOneFrame data := by
  induction h with
  | empty => exact .inl rfl
  | labelSet _ happ ih => exact appendLabelset_atMostOneFrame ih happ
  | checkpoint _ happ ih => exact appendCheckpoint_atMostOneFrame ih happ
  | truncate _ htr ih => exact truncate_atMostOneFrame ih htr

/-- `append_checkpoint(1)` on the empty file writes the frame of `Checkpoint(1)`. -/
theorem fileFromEmpty_atMostOneFrame_checkpoint_one :
    FileFromEmpty (fun _ => 0) (AnnotatedWalRecord.new (.checkpoint (CheckpointRecord.new 1))).data ∧
      AtMostOneFrame (AnnotatedWalRecord.new (.checkpoint (CheckpointRecord.new 1))).data :=
  have h : FileFromEmpty (fun _ => 0)
      (AnnotatedWalRecord.new (.checkpoint (CheckpointRecord.new 1))).data :=
    FileFromEmpty.checkpoint (n := 0) (c := 1) (b := true)
      (f := ⟨(AnnotatedWalRecord.new (.checkpoint (CheckpointRecord.new 1))).data, 13, 0⟩) .empty rfl
  ⟨h, fileFromEmpty_atMostOneFrame h⟩

end TerminusStore.Wal
