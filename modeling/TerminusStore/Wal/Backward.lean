import TerminusStore.Wal.File

/-!
# Walking the WAL backwards

Reference: `src/storage/directory/wal.rs`,
`ReadableWalFile::{seek_previous, peek_previous, previous, walk_backwards}`.

`seek_previous` reads the length field eight bytes before the cursor and seeks back over the
frame. Its inner closure rebinds `pos` to the offset `seek(SeekFrom::Current(-8))` returns, so
the length check and the target are both taken eight bytes early: from a frame end `P` with
length field `len` it checks `P - 8 < len + 8` and lands on `P - len - 16`, where a frame of
`len + 9` bytes starts at `P - len - 9`. `previous_single_frame` shows the consequence: from the
end of a file holding one frame the writer built, `previous` fails with `IncompleteRecord`,
however the reads fall.

`walk_backwards` is stated over any handle with a `previous` (`Backward`), so that the same
definition runs over the file and over the records of the reverse-scan contract
(`TerminusStore.Wal.Log`). Every record `previous` returns moves the cursor back, so the walk
runs with one unit of fuel more than the cursor's offset; `walkBackwards_eq` is its unfolding
equation, and `walkBackwards_sim` says that two visitors that stop alike walk alike.

Errors hand the handle back where the failing call left it. Only `peek_record` seeks back to
where it started; `seek_previous`'s length check hands it back after the length field it read,
four bytes before the cursor (`errorHandle_cursor`). Every caller in the source drops such a
handle. Each handle an operation hands back is over the same bytes (`Outcome.Keeps`).

`walkBackwards_terminates` says why the walk ends on every file: it recurses only on a record
`previous` returned, after which the cursor stands below where it was (`WalkCall` is
well-founded).
-/

namespace TerminusStore.Wal

/-! ## One step back over the file -/

section File

variable (chunk : ℕ → ℕ)

/-- `ReadableWalFile::seek_previous`. The inner `pos` is the offset eight bytes before the
cursor, and it shadows the cursor in the length check and the target. -/
def seekPrevious (f : LockedFile) : Outcome LockedFile ℕ :=
  if f.pos = 0 then .ok f.pos f
  else if f.pos < 8 then .err .incompleteRecord (some f)
  else
    let pos := f.pos - 8
    (f.seekTo pos).readExact4.bind fun buf file =>
      let len := (readU32 buf).toNat
      if pos < len + 8 then .err .incompleteRecord (some file)
      else .ok (pos - len - 8) (file.seekTo (pos - len - 8))

/-- `ReadableWalFile::peek_previous`: seek back over a frame, read it forward, and check that
the read ended where the cursor stood. -/
def peekPrevious (f : LockedFile) : Outcome LockedFile (Option AnnotatedWalRecord) :=
  let current := f.pos
  if current = 0 then .ok none f
  else
    (seekPrevious f).bind fun _ wal =>
      match nextRecord chunk wal with
      | .ok (some record) wal' =>
        if current = wal'.pos then .ok (some record) wal'
        else .err .invalidRecordLength (some wal')
      | .ok none wal' => .ok none wal'
      | .err e wal' => .err e wal'
      | .panic => .panic

/-- `ReadableWalFile::previous`: `peek_previous`, then `seek_previous`. -/
def previous (f : LockedFile) : Outcome LockedFile (Option AnnotatedWalRecord) :=
  (peekPrevious chunk f).bind fun record wal => (seekPrevious wal).map fun _ => record

/-- Where `seek_previous` lands: the cursor stays at offset 0, and otherwise moves back. -/
theorem seekPrevious_pos {f f' : LockedFile} {p : ℕ} (h : seekPrevious f = .ok p f') :
    f'.pos = p ∧ f'.data = f.data ∧ (f.pos = 0 ∨ p < f.pos) := by
  unfold seekPrevious at h
  split_ifs at h with h0 h8
  · cases h; exact ⟨rfl, rfl, .inl h0⟩
  · obtain ⟨buf, file, hr, hk⟩ := Outcome.bind_eq_ok.1 h
    unfold LockedFile.readExact4 at hr
    split_ifs at hr
    cases hr
    dsimp only at hk
    split_ifs at hk
    cases hk
    exact ⟨rfl, rfl, .inr (by simp; omega)⟩

/-- `seek_previous` fails with its handle only on `IncompleteRecord`: at the cursor when it is
below 8, and otherwise after the length field it read, four bytes back, when the offset of that
field is below the length plus 8. -/
theorem seekPrevious_err {f h : LockedFile} {e : WalError} (hs : seekPrevious f = .err e (some h)) :
    e = .incompleteRecord ∧ h.data = f.data ∧
      (0 < f.pos ∧ f.pos < 8 ∧ h.pos = f.pos ∨
        8 ≤ f.pos ∧ f.pos - 8 < (readU32 ((f.data.drop (f.pos - 8)).take 4)).toNat + 8 ∧
          h.pos = f.pos - 4) := by
  unfold seekPrevious at hs
  split_ifs at hs with h0 h8
  · cases hs
    exact ⟨rfl, rfl, .inl ⟨by omega, h8, rfl⟩⟩
  · unfold LockedFile.readExact4 at hs
    dsimp only [LockedFile.seekTo_pos, LockedFile.seekTo_data] at hs
    split_ifs at hs with hr
    · dsimp only [Outcome.ok_bind] at hs
      split_ifs at hs with hl
      cases hs
      exact ⟨rfl, rfl, .inr ⟨by omega, hl, by simp; omega⟩⟩
    · cases hs

theorem seekPrevious_keeps (f : LockedFile) : (seekPrevious f).Keeps f.data := by
  rcases hs : seekPrevious f with ⟨p, g⟩ | ⟨e, _ | g⟩ | _
  · exact (seekPrevious_pos hs).2.1
  · trivial
  · exact (seekPrevious_err hs).2.1
  · trivial

/-- A record `peek_previous` returns leaves the cursor where it was, away from offset 0. -/
theorem peekPrevious_some {f f' : LockedFile} {a : AnnotatedWalRecord}
    (h : peekPrevious chunk f = .ok (some a) f') : f'.pos = f.pos ∧ f.pos ≠ 0 := by
  unfold peekPrevious at h
  dsimp only at h
  split_ifs at h with h0
  · cases h
  obtain ⟨p, wal, -, hk⟩ := Outcome.bind_eq_ok.1 h
  split at hk
  · split_ifs at hk with hc
    cases hk
    exact ⟨hc.symm, h0⟩
  all_goals cases hk

theorem peekPrevious_keeps (f : LockedFile) : (peekPrevious chunk f).Keeps f.data := by
  unfold peekPrevious
  dsimp only
  split_ifs
  · rfl
  refine (seekPrevious_keeps f).bind fun _ wal hw => ?_
  have hk : (nextRecord chunk wal).Keeps f.data := hw ▸ nextRecord_keeps chunk wal
  rcases hn : nextRecord chunk wal with ⟨_ | record, wal'⟩ | ⟨e, wal'⟩ | _ <;> rw [hn] at hk
  · exact hk
  · dsimp only
    split_ifs <;> exact hk
  · exact hk
  · trivial

theorem previous_keeps (f : LockedFile) : (previous chunk f).Keeps f.data :=
  (peekPrevious_keeps chunk f).bind fun _ wal hw => by
    rw [Outcome.keeps_map, ← hw]
    exact seekPrevious_keeps wal

/-- From a cursor away from offset 0, `peek_previous` and `previous` fail as `seek_previous`
does. -/
theorem peekPrevious_of_seekPrevious_err {f : LockedFile} {e : WalError} {o : Option LockedFile}
    (h0 : f.pos ≠ 0) (hs : seekPrevious f = .err e o) :
    peekPrevious chunk f = .err e o ∧ previous chunk f = .err e o := by
  have hp : peekPrevious chunk f = .err e o := by
    simp only [peekPrevious, if_neg h0, hs, Outcome.err_bind]
  exact ⟨hp, by rw [previous, hp, Outcome.err_bind]⟩

/-- Where the handle an error hands back stands, from a cursor `P`. `peek_record` seeks back to
`P` on every error. `seek_previous` fails with a handle only on `IncompleteRecord`: at `P` when
`0 < P < 8`, and at `P - 4`, after the length field `len` it read at `P - 8`, when
`P - 8 < len + 8`; from every `P ≠ 0`, `peek_previous` and `previous` fail as it does. Every
handle handed back with an error is over the file's bytes, unchanged. -/
theorem errorHandle_cursor :
    (∀ f e h, peekRecord chunk f = .err e (some h) → h.data = f.data ∧ h.pos = f.pos) ∧
    (∀ f e h, seekPrevious f = .err e (some h) → e = .incompleteRecord ∧ h.data = f.data ∧
      (0 < f.pos ∧ f.pos < 8 ∧ h.pos = f.pos ∨
        8 ≤ f.pos ∧ f.pos - 8 < (readU32 ((f.data.drop (f.pos - 8)).take 4)).toNat + 8 ∧
          h.pos = f.pos - 4)) ∧
    (∀ f e o, f.pos ≠ 0 → seekPrevious f = .err e o →
      peekPrevious chunk f = .err e o ∧ previous chunk f = .err e o) ∧
    (∀ f e h, (peekPrevious chunk f = .err e (some h) ∨ previous chunk f = .err e (some h)) →
      h.data = f.data) := by
  refine ⟨fun f e h hp => peekRecord_err chunk hp, fun f e h hs => seekPrevious_err hs,
    fun f e o h0 hs => peekPrevious_of_seekPrevious_err chunk h0 hs, ?_⟩
  rintro f e h (hp | hp)
  · simpa [hp] using peekPrevious_keeps chunk f
  · simpa [hp] using previous_keeps chunk f

/-- On the eight zero bytes from their end, `seek_previous` fails, and its handle stands at
`8 - 4`. -/
theorem errorHandle_cursor_eight_zeros :
    seekPrevious ⟨List.replicate 8 0, 8, 0⟩ =
        .err .incompleteRecord (some ⟨List.replicate 8 0, 4, 0⟩) ∧
      (⟨List.replicate 8 0, 4, 0⟩ : LockedFile).pos = 8 - 4 :=
  have hs : seekPrevious ⟨List.replicate 8 0, 8, 0⟩ =
      .err .incompleteRecord (some ⟨List.replicate 8 0, 4, 0⟩) := rfl
  ⟨hs, (((errorHandle_cursor (fun _ => 0)).2.1 _ _ _ hs).2.2.resolve_left
    fun h => absurd h.2.1 (by decide)).2.2⟩

/-- The file of eight zero bytes, read from its end: `seek_previous` reads the length 0 at
offset 0 and, as `0 < 0 + 8`, fails with the handle at 4, not 8; `peek_previous` and `previous`
fail with it. -/
theorem seekPrevious_eight_zeros :
    seekPrevious ⟨List.replicate 8 0, 8, 0⟩ =
        .err .incompleteRecord (some ⟨List.replicate 8 0, 4, 0⟩) ∧
      peekPrevious (fun _ => 0) ⟨List.replicate 8 0, 8, 0⟩ =
        .err .incompleteRecord (some ⟨List.replicate 8 0, 4, 0⟩) ∧
      previous (fun _ => 0) ⟨List.replicate 8 0, 8, 0⟩ =
        .err .incompleteRecord (some ⟨List.replicate 8 0, 4, 0⟩) :=
  ⟨rfl, rfl, rfl⟩

/-- Every record `previous` returns moves the cursor back. -/
theorem previous_pos_lt {f f' : LockedFile} {a : AnnotatedWalRecord}
    (h : previous chunk f = .ok (some a) f') : f'.pos < f.pos := by
  obtain ⟨r, wal, hp, hk⟩ := Outcome.bind_eq_ok.1 h
  obtain ⟨q, hs, rfl⟩ := Outcome.map_eq_ok.1 hk
  obtain ⟨hw, h0⟩ := peekPrevious_some chunk hp
  obtain ⟨rfl, -, hq⟩ := seekPrevious_pos hs
  omega

/-- `seek_previous` from a cursor that follows a length field `len` and a checksum: it fails
unless `len + 16` bytes precede the cursor, with the cursor after the length field, and
otherwise lands `len + 16` bytes back. -/
theorem seekPrevious_eq {f : LockedFile} {len c : UInt32} (h8 : 8 ≤ f.pos)
    (hd : (f.data.drop (f.pos - 8)).take 8 = writeU32 len ++ writeU32 c) :
    seekPrevious f =
      if f.pos - 8 < len.toNat + 8 then .err .incompleteRecord (some ⟨f.data, f.pos - 4, f.reads⟩)
      else .ok (f.pos - len.toNat - 16) ⟨f.data, f.pos - len.toNat - 16, f.reads⟩ := by
  have hlen : f.pos - 8 + 4 ≤ f.data.length := by
    have := congrArg List.length hd
    simp only [List.length_take, List.length_drop, List.length_append, length_writeU32] at this
    omega
  have hbuf : (f.data.drop (f.pos - 8)).take 4 = writeU32 len := by
    have : (f.data.drop (f.pos - 8)).take 4 = ((f.data.drop (f.pos - 8)).take 8).take 4 := by
      rw [List.take_take]; rfl
    rw [this, hd, List.take_left' (length_writeU32 _)]
  unfold seekPrevious LockedFile.readExact4
  simp only [LockedFile.seekTo_pos, LockedFile.seekTo_data, if_neg (by omega : f.pos ≠ 0),
    if_neg (by omega : ¬ f.pos < 8), if_pos hlen, Outcome.ok_bind, hbuf, readU32_writeU32]
  rw [show f.pos - 8 + 4 = f.pos - 4 by omega, show f.pos - 8 - len.toNat - 8 =
    f.pos - len.toNat - 16 by omega]
  rfl

/-- From the end of a file holding just one frame the writer built, `seek_previous` fails its
length check, with the handle after the length field. -/
theorem seekPrevious_single_frame {r : LogRecord} {w : WalRecord} (h : r.toWalRecord = some w)
    (n : ℕ) :
    seekPrevious ⟨(AnnotatedWalRecord.new w).data, (AnnotatedWalRecord.new w).data.length, n⟩ =
      .err .incompleteRecord (some ⟨(AnnotatedWalRecord.new w).data,
        (AnnotatedWalRecord.new w).data.length - 4, n⟩) := by
  have hN := LogRecord.toWalRecord_data_length h
  let f : LockedFile := ⟨(AnnotatedWalRecord.new w).data, (AnnotatedWalRecord.new w).data.length, n⟩
  have hd : (f.data.drop (f.pos - 8)).take 8 =
      writeU32 w.data.length.toUInt32 ++ writeU32 w.checksum := by
    simp only [f, AnnotatedWalRecord.length_new, show w.data.length + 9 - 8 = w.data.length + 1 by
      omega, AnnotatedWalRecord.drop_new]
    exact List.take_of_length_le (by simp)
  have hlt : f.pos - 8 < w.data.length.toUInt32.toNat + 8 := by
    simp only [f, toNat_toUInt32, AnnotatedWalRecord.length_new, Nat.mod_eq_of_lt hN]
    omega
  rw [seekPrevious_eq (f := f) (by simp [f]) hd, if_pos hlt]

/-- From the end of a file holding just one frame the writer built, `previous` fails with
`IncompleteRecord`, whatever the reads return: `seek_previous` checks the offset of the length
field, `len + 1`, against `len + 8`. -/
theorem previous_single_frame {r : LogRecord} {w : WalRecord} (h : r.toWalRecord = some w)
    (n : ℕ) :
    previous chunk ⟨(AnnotatedWalRecord.new w).data, (AnnotatedWalRecord.new w).data.length, n⟩ =
      .err .incompleteRecord (some ⟨(AnnotatedWalRecord.new w).data,
        (AnnotatedWalRecord.new w).data.length - 4, n⟩) := by
  have hN := LogRecord.toWalRecord_data_length h
  let f : LockedFile := ⟨(AnnotatedWalRecord.new w).data, (AnnotatedWalRecord.new w).data.length, n⟩
  have hd : (f.data.drop (f.pos - 8)).take 8 =
      writeU32 w.data.length.toUInt32 ++ writeU32 w.checksum := by
    simp only [f, AnnotatedWalRecord.length_new, show w.data.length + 9 - 8 = w.data.length + 1 by
      omega, AnnotatedWalRecord.drop_new]
    exact List.take_of_length_le (by simp)
  have hs := seekPrevious_eq (f := f) (by simp [f]) hd
  rw [if_pos (by simp only [f, toNat_toUInt32, AnnotatedWalRecord.length_new,
    Nat.mod_eq_of_lt hN]; omega)] at hs
  simp only [previous, peekPrevious, f, if_neg (by simp : (AnnotatedWalRecord.new w).data.length ≠ 0)]
  rw [hs]
  rfl

end File

/-- The one-frame file of `[Checkpoint(0)]`, read a byte at a time, from its end. -/
theorem previous_single_frame_checkpoint_zero :
    (LogRecord.checkpoint 0).toWalRecord = some (.checkpoint (CheckpointRecord.new 0)) ∧
      previous (fun _ => 0)
        ⟨(AnnotatedWalRecord.new (.checkpoint (CheckpointRecord.new 0))).data, 13, 0⟩ =
        .err .incompleteRecord
          (some ⟨(AnnotatedWalRecord.new (.checkpoint (CheckpointRecord.new 0))).data, 9, 0⟩) :=
  ⟨rfl, previous_single_frame (fun _ => 0) (r := .checkpoint 0) rfl 0⟩

/-! ## The walk -/

/-- A handle `walk_backwards` can drive: its `previous`, and a measure of what lies before the
cursor that every record `previous` returns lowers. -/
structure Backward (F : Type) where
  previous : F → Outcome F (Option AnnotatedWalRecord)
  size : F → ℕ
  size_lt : ∀ {f f' : F} {a : AnnotatedWalRecord}, previous f = .ok (some a) f' → size f' < size f

/-- The WAL file as a handle for `walk_backwards`, the cursor's offset as its measure. -/
def fileBackward (chunk : ℕ → ℕ) : Backward LockedFile where
  previous := previous chunk
  size := LockedFile.pos
  size_lt := previous_pos_lt chunk

/-- A visitor `FnMut(Option<AnnotatedWalRecord>) -> Option<T>` together with the state its
closure holds; `none` is a panic. -/
abbrev Visitor (σ T : Type) := σ → Option AnnotatedWalRecord → Option (σ × Option T)

section Walk

variable {F σ τ T : Type} (B : Backward F)

/-- The loop of `walk_backwards`, by fuel. -/
def walkLoop (visit : Visitor σ T) : ℕ → σ → F → Outcome F (σ × Option T)
  | 0, s, f => .ok (s, none) f
  | n + 1, s, f =>
    (B.previous f).bind fun record wal =>
      match visit s record with
      | none => .panic
      | some (s', some t) => .ok (s', some t) wal
      | some (s', none) => if record.isSome then walkLoop visit n s' wal else .ok (s', none) wal

/-- `ReadableWalFile::walk_backwards`; the result also holds the visitor's final state. -/
def walkBackwards (visit : Visitor σ T) (s : σ) (f : F) : Outcome F (σ × Option T) :=
  walkLoop B visit (B.size f + 1) s f

theorem walkLoop_fuel (visit : Visitor σ T) {n₁ n₂ : ℕ} {s : σ} {f : F} (h₁ : B.size f < n₁)
    (h₂ : B.size f < n₂) : walkLoop B visit n₁ s f = walkLoop B visit n₂ s f := by
  induction n₁ generalizing n₂ s f with
  | zero => omega
  | succ n ih =>
    obtain ⟨m, rfl⟩ : ∃ m, n₂ = m + 1 := ⟨n₂ - 1, by omega⟩
    simp only [walkLoop]
    rcases hp : B.previous f with ⟨_ | a, wal⟩ | ⟨e, wal⟩ | _
    · rfl
    · have := B.size_lt hp
      simp only [Outcome.ok_bind]
      split
      · rfl
      · rfl
      · simp only [Option.isSome_some, if_true]
        exact ih (by omega) (by omega)
    · rfl
    · rfl

/-- The unfolding equation of `walk_backwards`. -/
theorem walkBackwards_eq (visit : Visitor σ T) (s : σ) (f : F) :
    walkBackwards B visit s f =
      (B.previous f).bind fun record wal =>
        match visit s record with
        | none => .panic
        | some (s', some t) => .ok (s', some t) wal
        | some (s', none) =>
          if record.isSome then walkBackwards B visit s' wal else .ok (s', none) wal := by
  rw [walkBackwards, walkLoop]
  rcases hp : B.previous f with ⟨_ | a, wal⟩ | ⟨e, wal⟩ | _
  · rfl
  · have := B.size_lt hp
    simp only [Outcome.ok_bind]
    split
    · rfl
    · rfl
    · simp only [Option.isSome_some, if_true]
      exact walkLoop_fuel B visit (by omega) (by omega)
  · rfl
  · rfl

/-- One recursive call of `walk_backwards`: from the visitor state and handle `cur` it calls
itself on `next` when `previous` returned a record at `next.2` and the visitor returned `None`,
its closure now holding `next.1`. -/
def WalkCall (visit : Visitor σ T) (next cur : σ × F) : Prop :=
  ∃ a, B.previous cur.2 = .ok (some a) next.2 ∧ visit cur.1 (some a) = some (next.1, none)

/-- No walk recurses forever: every recursive call is on a handle `previous` moved back. -/
theorem walkCall_wellFounded (visit : Visitor σ T) : WellFounded (WalkCall B visit) :=
  Subrelation.wf (fun ⟨_, hp, _⟩ => B.size_lt hp) (measure fun p : σ × F => B.size p.2).wf

/-- Two visitors that panic, stop and return alike from related states walk alike: the same
handles, errors and results, and related final states. -/
theorem walkBackwards_sim (R : σ → τ → Prop) {v : Visitor σ T} {w : Visitor τ T}
    (hvw : ∀ s t r, R s t → Option.Rel (fun p q => R p.1 q.1 ∧ p.2 = q.2) (v s r) (w t r))
    {s : σ} {t : τ} (h : R s t) (f : F) :
    Outcome.Rel (fun p q => R p.1 q.1 ∧ p.2 = q.2) (walkBackwards B v s f)
      (walkBackwards B w t f) := by
  obtain ⟨n, hn⟩ : ∃ n, B.size f < n := ⟨_, Nat.lt_succ_self _⟩
  induction n generalizing s t f with
  | zero => omega
  | succ n ih =>
    rw [walkBackwards_eq, walkBackwards_eq]
    rcases hp : B.previous f with ⟨record, wal⟩ | ⟨e, wal⟩ | _
    · simp only [Outcome.ok_bind]
      have hr := hvw s t record h
      generalize v s record = x at hr ⊢
      generalize w t record = y at hr ⊢
      cases hr with
      | none => trivial
      | some hxy =>
        rename_i p q
        obtain ⟨s', o⟩ := p
        obtain ⟨t', o'⟩ := q
        obtain ⟨hR, rfl⟩ := hxy
        rcases o with _ | x
        · cases record with
          | none => exact ⟨⟨hR, rfl⟩, rfl⟩
          | some a => exact ih hR wal (by have := B.size_lt hp; omega)
        · exact ⟨⟨hR, rfl⟩, rfl⟩
    · exact ⟨rfl, rfl⟩
    · trivial

/-- `walk_backwards` over the file terminates for every content, cursor, visitor and read
schedule. A record from `peek_previous` leaves the cursor at its starting offset `P ≠ 0`, the
cursor check; `previous` then moves it strictly below `P`; so the walk's recursion, which
follows only such records, is well-founded, and from the cursor `P` the walk makes at most
`P + 1` calls of `previous`: every larger budget of calls gives the same walk. -/
theorem walkBackwards_terminates (chunk : ℕ → ℕ) (visit : Visitor σ T) :
    (∀ f f' a, peekPrevious chunk f = .ok (some a) f' → f'.pos = f.pos ∧ f.pos ≠ 0) ∧
      (∀ f f' a, previous chunk f = .ok (some a) f' → f'.pos < f.pos) ∧
      WellFounded (WalkCall (fileBackward chunk) visit) ∧
      ∀ s f n, f.pos < n →
        walkLoop (fileBackward chunk) visit n s f = walkBackwards (fileBackward chunk) visit s f :=
  ⟨fun _ _ _ => peekPrevious_some chunk, fun _ _ _ => previous_pos_lt chunk,
    walkCall_wellFounded _ visit, fun _ _ _ hn => walkLoop_fuel _ visit hn (Nat.lt_succ_self _)⟩

end Walk

end TerminusStore.Wal
