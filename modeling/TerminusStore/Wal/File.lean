import TerminusStore.Wal.Chunking

/-!
# The WAL file and its frame reader

Reference: `src/storage/directory/wal.rs`, `ReadableWalFile::{seek, next_record, peek_record}`.

The file-lock facility is outside the source. A handle here is the file's bytes, the cursor,
and the number of reads made through it. Nothing in the source fixes how many bytes a read
returns, so the `n`-th read returns `chunk n + 1` bytes while that many remain, for an arbitrary
`chunk`; every result below holds for every `chunk`. `read_exact` gives the same bytes however
its reads fall, so it does not draw on `chunk`. Seeks cannot fail on this model.

`next_record` polls a fresh `FramedRead` once. tokio-codec's `FramedRead::poll` reads into its
buffer, calls `decode` on what it holds, and at the end of the input calls `decode_eof`, whose
default implementation fails with "bytes remaining on stream" when `decode` leaves bytes behind.
The frame reader is then dropped with what it read ahead, so the cursor may stand past the
frame it returned: `nextRecord_framed` says what the outcome is, for every read schedule, in
terms of `decode` on everything after the cursor.
-/

namespace TerminusStore.Wal

/-- An open WAL file. -/
structure LockedFile where
  /-- the file's bytes -/
  data : List UInt8
  /-- the cursor -/
  pos : ℕ
  /-- the reads made so far -/
  reads : ℕ
  deriving DecidableEq, Repr

/-- What a future over a handle `F` resolves to: a value with the handle; an error with the
handle (`none` where the source drops it); or a panic. -/
inductive Outcome (F α : Type) where
  | ok (a : α) (f : F)
  | err (e : WalError) (f : Option F)
  | panic
  deriving DecidableEq, Repr

namespace Outcome

variable {F α β : Type}

/-- `Future::map`. -/
def map (g : α → β) : Outcome F α → Outcome F β
  | ok a f => ok (g a) f
  | err e f => err e f
  | panic => panic

/-- `Future::and_then` on a future that yields its handle. -/
def bind (o : Outcome F α) (k : α → F → Outcome F β) : Outcome F β :=
  match o with
  | ok a f => k a f
  | err e f => err e f
  | panic => panic

@[simp] theorem map_ok (g : α → β) (a : α) (f : F) : (ok a f).map g = ok (g a) f := rfl
@[simp] theorem map_err (g : α → β) (e : WalError) (f : Option F) :
    (err e f : Outcome F α).map g = err e f := rfl
@[simp] theorem map_panic (g : α → β) : (panic : Outcome F α).map g = panic := rfl
@[simp] theorem ok_bind (a : α) (f : F) (k : α → F → Outcome F β) : (ok a f).bind k = k a f :=
  rfl
@[simp] theorem err_bind (e : WalError) (f : Option F) (k : α → F → Outcome F β) :
    (err e f).bind k = err e f := rfl
@[simp] theorem panic_bind (k : α → F → Outcome F β) : (panic : Outcome F α).bind k = panic :=
  rfl

@[simp] theorem map_map {γ : Type} (g : α → β) (g' : β → γ) (o : Outcome F α) :
    (o.map g).map g' = o.map (g' ∘ g) := by
  cases o <;> rfl

/-- What an outcome says without its handle: the value or the error; `none` is a panic. -/
def result : Outcome F α → Option (Except WalError α)
  | ok a _ => some (.ok a)
  | err e _ => some (.error e)
  | panic => none

/-- Two outcomes over the same handle that agree but for their values, which are related. -/
def Rel (S : α → β → Prop) : Outcome F α → Outcome F β → Prop
  | ok a f, ok b f' => S a b ∧ f = f'
  | err e f, err e' f' => e = e' ∧ f = f'
  | panic, panic => True
  | _, _ => False

/-- Related outcomes map to the same outcome when the maps agree on related values. -/
theorem Rel.map_eq {γ : Type} {S : α → β → Prop} {o : Outcome F α} {o' : Outcome F β}
    {g : α → γ} {g' : β → γ} (h : Rel S o o') (hg : ∀ a b, S a b → g a = g' b) :
    o.map g = o'.map g' := by
  match o, o', h with
  | ok a f, ok b f', ⟨hab, hf⟩ => rw [map_ok, map_ok, hg a b hab, hf]
  | err e f, err e' f', ⟨he, hf⟩ => rw [map_err, map_err, he, hf]
  | panic, panic, _ => rfl

theorem bind_eq_ok {o : Outcome F α} {k : α → F → Outcome F β} {b : β} {f' : F} :
    o.bind k = ok b f' ↔ ∃ a f, o = ok a f ∧ k a f = ok b f' := by
  cases o <;> simp [bind, and_assoc]

theorem map_eq_ok {o : Outcome F α} {g : α → β} {b : β} {f' : F} :
    o.map g = ok b f' ↔ ∃ a, o = ok a f' ∧ g a = b := by
  constructor
  · intro h
    cases o with
    | ok a f => cases h; exact ⟨a, rfl, rfl⟩
    | err => cases h
    | panic => cases h
  · rintro ⟨a, rfl, rfl⟩
    rfl

end Outcome

namespace LockedFile

/-- `seek(SeekFrom::Start(p))`. -/
def seekTo (f : LockedFile) (p : ℕ) : LockedFile := { f with pos := p }

/-- `tokio::io::read_exact(file, vec![0;4])`; its `io::Error` drops the handle. -/
def readExact4 (f : LockedFile) : Outcome LockedFile (List UInt8) :=
  if f.pos + 4 ≤ f.data.length then .ok ((f.data.drop f.pos).take 4) { f with pos := f.pos + 4 }
  else .err (.io .unexpectedEof) none

variable (chunk : ℕ → ℕ)

/-- One read into a frame reader's buffer. -/
def read (f : LockedFile) : List UInt8 × LockedFile :=
  let bytes := (f.data.drop f.pos).take (chunk f.reads + 1)
  (bytes, { f with pos := f.pos + bytes.length, reads := f.reads + 1 })

@[simp] theorem seekTo_data (f : LockedFile) (p : ℕ) : (f.seekTo p).data = f.data := rfl
@[simp] theorem seekTo_pos (f : LockedFile) (p : ℕ) : (f.seekTo p).pos = p := rfl

theorem read_data (f : LockedFile) : (f.read chunk).2.data = f.data := rfl

/-- A read returns nothing exactly at or past the end of the file. -/
theorem read_eq_nil (f : LockedFile) : (f.read chunk).1 = [] ↔ f.data.length ≤ f.pos := by
  simp [read]

theorem take_append_drop_length (l : List UInt8) (k : ℕ) :
    l.take k ++ l.drop (l.take k).length = l := by
  rcases le_total k l.length with h | h
  · rw [List.length_take_of_le h, List.take_append_drop]
  · rw [List.take_of_length_le h, List.drop_length, List.append_nil]

/-- A read takes the bytes at the cursor and moves the cursor past them. -/
theorem read_append (f : LockedFile) :
    f.data.drop f.pos = (f.read chunk).1 ++ (f.read chunk).2.data.drop (f.read chunk).2.pos := by
  simp only [read]
  rw [← List.drop_drop, take_append_drop_length]

theorem read_pos (f : LockedFile) (h : f.pos < f.data.length) :
    f.pos < (f.read chunk).2.pos ∧ (f.read chunk).2.pos ≤ f.data.length := by
  simp only [read, List.length_take, List.length_drop]
  omega

end LockedFile

namespace Outcome

variable {α β : Type}

/-- Every handle the outcome hands back is over the bytes `data`: the reader never writes. -/
def Keeps (data : List UInt8) : Outcome LockedFile α → Prop
  | ok _ g => g.data = data
  | err _ (some g) => g.data = data
  | _ => True

theorem Keeps.bind {data : List UInt8} {o : Outcome LockedFile α}
    {k : α → LockedFile → Outcome LockedFile β} (ho : o.Keeps data)
    (hk : ∀ a g, g.data = data → (k a g).Keeps data) : (o.bind k).Keeps data := by
  rcases o with ⟨a, g⟩ | ⟨e, _ | g⟩ | _
  · exact hk a g ho
  · trivial
  · exact ho
  · trivial

@[simp] theorem keeps_map {data : List UInt8} (g : α → β) (o : Outcome LockedFile α) :
    (o.map g).Keeps data = o.Keeps data := by
  rcases o with _ | ⟨e, _ | _⟩ | _ <;> rfl

end Outcome

/-! ## `FramedRead` -/

section Framed

variable (chunk : ℕ → ℕ)

/-- `Decoder::decode_eof`, tokio-codec's default: `decode`, and an error on bytes left over. -/
def decodeEof (st : WalFileDecoder) (buf : List UInt8) (f : LockedFile) :
    Outcome LockedFile (Option AnnotatedWalRecord) :=
  match decode st buf with
  | none => .panic
  | some ⟨.ok (some a), _, _⟩ => .ok (some a) f
  | some ⟨.ok none, _, r⟩ => if r = [] then .ok none f else .err (.io .other) (some f)
  | some ⟨.error e, _, _⟩ => .err e (some f)

/-- The first `poll` of a `FramedRead`, by fuel: read, then `decode` what is buffered, until a
frame, an error, or the end of the input. -/
def framedLoop : ℕ → WalFileDecoder → List UInt8 → LockedFile →
    Outcome LockedFile (Option AnnotatedWalRecord)
  | 0, _, _, f => .ok none f
  | fuel + 1, st, buf, f =>
    let r := f.read chunk
    if r.1 = [] then decodeEof st buf r.2
    else
      match decode st (buf ++ r.1) with
      | none => .panic
      | some ⟨.ok (some a), _, _⟩ => .ok (some a) r.2
      | some ⟨.ok none, st', rest⟩ => framedLoop fuel st' rest r.2
      | some ⟨.error e, _, _⟩ => .err e (some r.2)

/-- `ReadableWalFile::next_record`: every read but the last returns a byte, so one read more
than there are bytes after the cursor suffices. -/
def nextRecord (f : LockedFile) : Outcome LockedFile (Option AnnotatedWalRecord) :=
  framedLoop chunk (f.data.length - f.pos + 1) .start [] f

/-- `ReadableWalFile::peek_record`: `next_record`, then back to where it started. -/
def peekRecord (f : LockedFile) : Outcome LockedFile (Option AnnotatedWalRecord) :=
  match nextRecord chunk f with
  | .ok r f' => .ok r (f'.seekTo f.pos)
  | .err e f' => .err e (f'.map (·.seekTo f.pos))
  | .panic => .panic

/-- What a frame reader's outcome says of `decode` on the whole input after the cursor: the
same frame or error, and, where it read to the end of the file `stop`, no bytes left over. -/
def Framed (data : List UInt8) (stop : ℕ) :
    Option DecodeResult → Outcome LockedFile (Option AnnotatedWalRecord) → Prop
  | none, .panic => True
  | some ⟨.ok (some a), _, _⟩, .ok (some a') f => a' = a ∧ f.data = data
  | some ⟨.ok none, _, r⟩, .ok none f => r = [] ∧ f.data = data ∧ f.pos = stop
  | some ⟨.ok none, _, r⟩, .err (.io .other) (some f) => r ≠ [] ∧ f.data = data ∧ f.pos = stop
  | some ⟨.error e, _, _⟩, .err e' (some f) => e' = e ∧ f.data = data
  | _, _ => False

/-- Where `decode` runs out of input with nothing left over, the frame reader reads to the end
and returns no frame. -/
theorem Framed.ok_none_nil {data : List UInt8} {stop : ℕ} {st : WalFileDecoder}
    {o : Outcome LockedFile (Option AnnotatedWalRecord)}
    (h : Framed data stop (some ⟨.ok none, st, []⟩) o) :
    ∃ f, o = .ok none f ∧ f.data = data ∧ f.pos = stop := by
  rcases o with ⟨_ | a, f⟩ | ⟨e, f⟩ | _
  · exact ⟨f, rfl, h.2⟩
  · exact False.elim h
  · rcases e with _ | _ | _ | _ | _ | _ | _ | _ | _ | ⟨_ | _⟩ <;> rcases f with _ | f
    all_goals first | exact False.elim h | exact absurd rfl h.1
  · exact False.elim h

/-- The frame reader hands back its handle over the same bytes. -/
theorem Framed.keeps {data : List UInt8} {stop : ℕ} {d : Option DecodeResult}
    {o : Outcome LockedFile (Option AnnotatedWalRecord)} (h : Framed data stop d o) :
    o.Keeps data := by
  unfold Framed at h
  split at h
  all_goals first | trivial | exact h.2 | exact h.2.1

theorem decodeEof_framed (st : WalFileDecoder) (buf : List UInt8) (f : LockedFile) :
    Framed f.data f.pos (decode st buf) (decodeEof st buf f) := by
  unfold decodeEof
  rcases decode st buf with _ | ⟨e | _ | a, st', r⟩
  · trivial
  · exact ⟨rfl, rfl⟩
  · by_cases hr : r = [] <;> simp [hr, Framed]
  · exact ⟨rfl, rfl⟩

/-- However the reads fall, the frame reader's outcome is what `decode` makes of everything
after the cursor. -/
theorem framedLoop_framed {fuel : ℕ} {st : WalFileDecoder} {buf : List UInt8} {f : LockedFile}
    (hfuel : f.data.length - f.pos < fuel) :
    Framed f.data (max f.pos f.data.length) (decode st (buf ++ f.data.drop f.pos))
      (framedLoop chunk fuel st buf f) := by
  induction fuel generalizing st buf f with
  | zero => omega
  | succ fuel ih =>
    simp only [framedLoop]
    by_cases hb : (f.read chunk).1 = []
    · have hend := (f.read_eq_nil chunk).1 hb
      rw [if_pos hb, List.drop_eq_nil_of_le hend, List.append_nil, max_eq_left hend]
      have := decodeEof_framed st buf (f.read chunk).2
      simpa [LockedFile.read, List.drop_eq_nil_of_le hend] using this
    · have hlt : f.pos < f.data.length := by
        by_contra h; exact hb ((f.read_eq_nil chunk).2 (by omega))
      obtain ⟨hp₁, hp₂⟩ := f.read_pos chunk hlt
      rw [if_neg hb, f.read_append chunk, ← List.append_assoc, decode_append]
      rcases decode st (buf ++ (f.read chunk).1) with _ | ⟨e | _ | a, st', r⟩
      · trivial
      · exact ⟨rfl, rfl⟩
      · have := @ih st' r (f.read chunk).2 (by rw [f.read_data chunk]; omega)
        rw [f.read_data chunk, max_eq_right hp₂] at this
        rwa [max_eq_right hlt.le]
      · exact ⟨rfl, rfl⟩

theorem nextRecord_framed (f : LockedFile) :
    Framed f.data (max f.pos f.data.length) (decode .start (f.data.drop f.pos))
      (nextRecord chunk f) := by
  simpa using @framedLoop_framed chunk _ .start [] f (Nat.lt_succ_self _)

theorem nextRecord_keeps (f : LockedFile) : (nextRecord chunk f).Keeps f.data :=
  (nextRecord_framed chunk f).keeps

/-- `peek_record` hands its handle back at the cursor it started from, over the same bytes, on
every error. -/
theorem peekRecord_err {f h : LockedFile} {e : WalError} (hp : peekRecord chunk f = .err e (some h)) :
    h.data = f.data ∧ h.pos = f.pos := by
  have hk := nextRecord_keeps chunk f
  unfold peekRecord at hp
  rcases hn : nextRecord chunk f with _ | ⟨e', _ | g⟩ | _ <;> rw [hn] at hp hk <;> cases hp
  exact ⟨hk, rfl⟩

/-- The result of a frame reader whose `decode` on everything after the cursor returns `d`. -/
def framedResult : Option DecodeResult → Option (Except WalError (Option AnnotatedWalRecord))
  | none => none
  | some ⟨.ok none, _, []⟩ => some (.ok none)
  | some ⟨.ok none, _, _ :: _⟩ => some (.error (.io .other))
  | some ⟨r, _, _⟩ => some r

/-- A frame reader's result is a function of what `decode` makes of everything after the
cursor. -/
theorem Framed.result {data : List UInt8} {stop : ℕ} {d : Option DecodeResult}
    {o : Outcome LockedFile (Option AnnotatedWalRecord)} (h : Framed data stop d o) :
    o.result = framedResult d := by
  unfold Framed at h
  split at h
  · rfl
  · rw [h.1]; rfl
  · rw [h.1]; rfl
  · rename_i r _
    cases r with
    | nil => exact absurd rfl h.1
    | cons => rfl
  · rw [h.1]; rfl
  · exact h.elim

/-- What `next_record` returns, record or error, is what `decode` makes of the bytes after the
cursor, however the reads fall and whatever reads the handle made before. -/
theorem nextRecord_result (f : LockedFile) :
    (nextRecord chunk f).result = framedResult (decode .start (f.data.drop f.pos)) :=
  (nextRecord_framed chunk f).result

/-- `peek_record` consumes nothing, for every two read schedules. It returns what `next_record`
returns from the same handle. When it returns a record, it hands the handle back over the same
bytes with the cursor where it was, and `next_record` from there returns the same record again,
however its reads fall. -/
theorem peekRecord_then_nextRecord (chunk' : ℕ → ℕ) (f : LockedFile) :
    (peekRecord chunk f).result = (nextRecord chunk f).result ∧
      ∀ r g, peekRecord chunk f = .ok r g →
        g.data = f.data ∧ g.pos = f.pos ∧ (nextRecord chunk' g).result = some (.ok r) := by
  have hk := nextRecord_keeps chunk f
  have hres := nextRecord_result chunk f
  unfold peekRecord
  rcases hn : nextRecord chunk f with ⟨r, f'⟩ | ⟨e, _ | f'⟩ | _ <;> rw [hn] at hk hres
  · refine ⟨rfl, fun r' g h => ?_⟩
    obtain ⟨rfl, rfl⟩ := Outcome.ok.inj h
    have hd : f'.data = f.data := hk
    refine ⟨hd, rfl, ?_⟩
    rw [nextRecord_result, LockedFile.seekTo_data, LockedFile.seekTo_pos, hd, ← hres]
    rfl
  all_goals exact ⟨rfl, fun _ _ h => by cases h⟩

end Framed

end TerminusStore.Wal
