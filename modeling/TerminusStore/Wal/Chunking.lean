import TerminusStore.Wal.Decoder

/-!
# Feeding the decoder in chunks

Reference: `src/storage/directory/wal.rs`, `WalFileDecoder::decode`.

The reader appends each chunk it receives to the buffer and calls `decode` until it returns
`Ok(None)` or an error (`feed`); after an error it calls `decode` no more, as the decoder is
left `Invalid`, and only buffers what arrives. `run` drives a sequence of chunks from `Start`
and an empty buffer.

Shape of the proof: a pass that does not wait reads only the bytes it is given
(`decodeStep_append`), and a pass that waits consumes nothing, so `decode` on `b ++ c` is
`decode` on `b` resumed with `c` (`decode_append`). The same holds one level up for the calls
made on one chunk (`drain_append`) and for chunks (`feed_append`), so every split of the input
is driven as the whole (`run_flatten`). Every state met from `Start` is one the loop can leave
(`FromStart`), so no call panics.
-/

namespace TerminusStore.Wal

/-! ## One pass on more input -/

/-- A pass's outcome with `c` appended to what it leaves of the input. -/
def DecodeStep.append (c : List UInt8) : DecodeStep → DecodeStep
  | .next st r => .next st (r ++ c)
  | .emit a r => .emit a (r ++ c)
  | .fail e r => .fail e (r ++ c)
  | s => s

theorem four_le_append {b : List UInt8} (h : ¬ b.length < 4) (c : List UInt8) :
    ¬ (b ++ c).length < 4 ∧ (b ++ c).take 4 = b.take 4 ∧ (b ++ c).drop 4 = b.drop 4 ++ c :=
  ⟨by simp; omega, List.take_append_of_le_length (by omega),
    List.drop_append_of_le_length (by omega)⟩

/-- A pass that does not wait reads only the input it is given. -/
theorem decodeStep_append {st : WalFileDecoder} {b : List UInt8}
    (h : ∀ st', decodeStep st b ≠ .wait st') (c : List UInt8) :
    decodeStep st (b ++ c) = (decodeStep st b).append c := by
  cases st with
  | invalid => rfl
  | start | labelSetReadNumEntries =>
    match b with
    | [] => exact absurd rfl (h _)
    | x :: b => simp only [decodeStep, List.cons_append]; split_ifs <;> rfl
  | labelSetReadEntry rsf k =>
    rcases hs : LabelSetEntry.trySplitFromBytes b with ⟨r, rest⟩
    have hne : r ≠ .error .incompleteRecord := by
      rintro rfl
      exact h (.labelSetReadEntry rsf k) (by simp [decodeStep, hs])
    have happ := LabelSetEntry.trySplitFromBytes_append_of_ne (b := b) (by simpa [hs] using hne) c
    simp only [hs] at happ
    rcases r with e | entry <;> simp only [decodeStep, happ, hs]
    · cases e <;> first | exact absurd rfl hne | rfl
    · split <;> rfl
  | readRecordChecksum rb lb =>
    by_cases h4 : b.length < 4
    · exact absurd (by simp [decodeStep, h4]) (h (.readRecordChecksum rb lb))
    · obtain ⟨h4', ht, hd⟩ := four_le_append h4 c
      simp only [decodeStep, h4, h4', ht, hd, if_false]
      split_ifs <;> rfl
  | _ =>
    simp only [decodeStep] at h ⊢
    by_cases h4 : b.length < 4
    · simp only [h4, if_true] at h
      exact absurd rfl (h _)
    · obtain ⟨h4', ht, hd⟩ := four_le_append h4 c
      simp only [h4, h4', ht, hd, if_false]
      rfl

/-! ## `decode` on more input -/

/-- What a call of `decode` does with more input: where it waited it goes on, and where it
returned the new input stays in the buffer. -/
def resume (c : List UInt8) (d : DecodeResult) : Option DecodeResult :=
  match d.result with
  | .ok none => decode d.state (d.rest ++ c)
  | _ => some { d with rest := d.rest ++ c }

theorem decode_append (st : WalFileDecoder) (b c : List UInt8) :
    decode st (b ++ c) = (decode st b).bind (resume c) := by
  induction st, b using decode_induct with
  | step st b ih =>
    by_cases hw : ∃ st', decodeStep st b = .wait st'
    · obtain ⟨st', hs⟩ := hw
      obtain rfl := decodeStep_wait hs
      rw [decode_eq_step _ b, hs]
      rfl
    · push_neg at hw
      rw [decode_eq_step st (b ++ c), decodeStep_append hw, decode_eq_step st b]
      cases hs : decodeStep st b with
      | wait st' => exact absurd hs (hw st')
      | next st' r => exact ih st' r hs
      | emit | fail | panic => rfl

/-! ## States met from `Start` -/

/-- From a state met from `Start`, `decode` returns, and unless it fails it leaves such a state. -/
theorem decode_fromStart {st : WalFileDecoder} (hst : FromStart st) (b : List UInt8) :
    ∃ d, decode st b = some d ∧ ∀ v, d.result = .ok v → FromStart d.state := by
  induction st, b using decode_induct with
  | step st b ih =>
    rw [decode_eq_step]
    rcases decodeStep_cases st b with h | ⟨st', r, h, -⟩ | ⟨_, _, _, -, h, -⟩ | ⟨_, _, h⟩ | ⟨rfl, -⟩
    · rw [h]; exact ⟨_, rfl, fun _ _ => hst⟩
    · rw [h]; exact ih st' r h (fromStart_next hst h)
    · rw [h]; exact ⟨_, rfl, fun _ _ => trivial⟩
    · rw [h]; exact ⟨_, rfl, fun _ hv => by cases hv⟩
    · exact hst.elim

/-! ## The calls made on one buffer -/

/-- What the driver has seen: the records emitted so far in order, the error once one has been
returned, the decoder state and the buffer. -/
structure Drive where
  records : List AnnotatedWalRecord
  error : Option WalError
  state : WalFileDecoder
  rest : List UInt8

/-- The drive with `rs` emitted before it. -/
def Drive.after (rs : List AnnotatedWalRecord) (d : Drive) : Drive :=
  { d with records := rs ++ d.records }

@[simp] theorem Drive.after_nil : Drive.after [] = id := rfl

@[simp] theorem Drive.after_comp (rs rs' : List AnnotatedWalRecord) :
    Drive.after rs ∘ Drive.after rs' = Drive.after (rs ++ rs') := by
  funext d
  simp [Drive.after]

/-- Calling `decode` until it returns `Ok(None)` or an error, by fuel; `none` is a panic. -/
def drainLoop : ℕ → WalFileDecoder → List UInt8 → Option Drive
  | 0, st, b => some ⟨[], none, st, b⟩
  | fuel + 1, st, b =>
    match decode st b with
    | none => none
    | some ⟨.ok none, st', r⟩ => some ⟨[], none, st', r⟩
    | some ⟨.ok (some a), st', r⟩ => (drainLoop fuel st' r).map (Drive.after [a])
    | some ⟨.error e, st', r⟩ => some ⟨[], some e, st', r⟩

/-- The calls of `decode` on one buffer; every call that emits consumes a byte, so one more call
than there are bytes suffices. -/
def drain (st : WalFileDecoder) (b : List UInt8) : Option Drive :=
  drainLoop (b.length + 1) st b

/-- A call that emits consumes input. -/
theorem decode_emit_length {st st' : WalFileDecoder} {b r : List UInt8} {a : AnnotatedWalRecord}
    (h : decode st b = some ⟨.ok (some a), st', r⟩) : r.length < b.length := by
  induction st, b using decode_induct with
  | step st b ih =>
    rw [decode_eq_step] at h
    split at h
    · cases h
    · exact (ih _ _ ‹_› h).trans (decodeStep_next_length ‹_›)
    · cases h
      obtain ⟨_, _, -, -, hl⟩ := decodeStep_emit ‹_›
      exact hl
    all_goals cases h

theorem drainLoop_fuel {fuel₁ fuel₂ : ℕ} {st : WalFileDecoder} {b : List UInt8}
    (h₁ : b.length < fuel₁) (h₂ : b.length < fuel₂) :
    drainLoop fuel₁ st b = drainLoop fuel₂ st b := by
  induction fuel₁ generalizing fuel₂ st b with
  | zero => omega
  | succ f ih =>
    obtain ⟨f₂, rfl⟩ : ∃ f₂, fuel₂ = f₂ + 1 := ⟨fuel₂ - 1, by omega⟩
    simp only [drainLoop]
    rcases hd : decode st b with _ | ⟨e | _ | a, st', r⟩
    · rfl
    · rfl
    · rfl
    · have := decode_emit_length hd
      show Option.map _ _ = Option.map _ _
      rw [@ih f₂ st' r (by omega) (by omega)]

/-- The unfolding equation of `drain`. -/
theorem drain_eq (st : WalFileDecoder) (b : List UInt8) :
    drain st b = match decode st b with
      | none => none
      | some ⟨.ok none, st', r⟩ => some ⟨[], none, st', r⟩
      | some ⟨.ok (some a), st', r⟩ => (drain st' r).map (Drive.after [a])
      | some ⟨.error e, st', r⟩ => some ⟨[], some e, st', r⟩ := by
  rw [drain, drainLoop]
  rcases hd : decode st b with _ | ⟨e | _ | a, st', r⟩
  · rfl
  · rfl
  · rfl
  · show Option.map _ (drainLoop _ _ _) = Option.map _ (drainLoop _ _ _)
    rw [drainLoop_fuel (by have := decode_emit_length hd; omega) (Nat.lt_succ_self _)]

/-- Appending `chunk` to the buffer and calling `decode` until it returns `Ok(None)` or an error;
after an error the driver only buffers. -/
def feed (d : Drive) (chunk : List UInt8) : Option Drive :=
  match d.error with
  | some _ => some { d with rest := d.rest ++ chunk }
  | none => (drain d.state (d.rest ++ chunk)).map (Drive.after d.records)

theorem feed_after (rs : List AnnotatedWalRecord) (d : Drive) (c : List UInt8) :
    feed (d.after rs) c = (feed d c).map (Drive.after rs) := by
  obtain ⟨rs', err, st, b⟩ := d
  cases err with
  | some e => rfl
  | none =>
    show (drain st (b ++ c)).map (Drive.after (rs ++ rs')) = ((drain st (b ++ c)).map _).map _
    rw [Option.map_map, Drive.after_comp]

/-- The calls made on `b ++ c` are those made on `b`, then those `feed` makes with `c`. -/
theorem drain_append (st : WalFileDecoder) (b c : List UInt8) :
    drain st (b ++ c) = (drain st b).bind (feed · c) := by
  obtain ⟨n, hn⟩ : ∃ n, b.length < n := ⟨_, Nat.lt_succ_self _⟩
  induction n generalizing st b with
  | zero => omega
  | succ n ih =>
    rw [drain_eq st (b ++ c), decode_append, drain_eq st b]
    rcases hd : decode st b with _ | ⟨e | _ | a, st', r⟩
    · rfl
    · rfl
    · simp only [Option.some_bind, resume, feed, Drive.after_nil, Option.map_id]
      exact (drain_eq _ _).symm
    · have hr := decode_emit_length hd
      show (drain st' (r ++ c)).map _ = ((drain st' r).map _).bind _
      rw [ih st' r (by omega)]
      cases drain st' r <;> simp [feed_after]

theorem feed_append (d : Drive) (c₁ c₂ : List UInt8) :
    feed d (c₁ ++ c₂) = (feed d c₁).bind (feed · c₂) := by
  obtain ⟨rs, err, st, b⟩ := d
  cases err with
  | some e => simp [feed]
  | none =>
    show (drain st (b ++ (c₁ ++ c₂))).map (Drive.after rs) =
      ((drain st (b ++ c₁)).map (Drive.after rs)).bind (feed · c₂)
    rw [← List.append_assoc, drain_append]
    cases drain st (b ++ c₁) <;> simp [feed_after]

/-- After a chunk the driver is settled: nothing more to feed it changes nothing. -/
theorem feed_nil_of_feed {d d' : Drive} {c : List UInt8} (h : feed d c = some d') :
    feed d' [] = some d' := by
  have := feed_append d c []
  rwa [List.append_nil, h, Option.some_bind, eq_comm] at this

/-- Calls that end without an error end on a wait: calling `decode` again changes nothing. -/
theorem drain_settled {st : WalFileDecoder} {b : List UInt8} {e : Drive} (h : drain st b = some e)
    (he : e.error = none) : drain e.state e.rest = some ⟨[], none, e.state, e.rest⟩ := by
  have := drain_append st b []
  rw [List.append_nil, h, Option.some_bind] at this
  obtain ⟨rs, err, st', r⟩ := e
  subst he
  obtain ⟨x, hx, hxe⟩ := Option.map_eq_some'.1 (by simpa only [feed, List.append_nil] using this.symm)
  obtain ⟨xs, xe, xst, xr⟩ := x
  simp only [Drive.after, Drive.mk.injEq, List.append_right_eq_self] at hxe
  obtain ⟨rfl, rfl, rfl, rfl⟩ := hxe
  exact hx

/-- From a state met from `Start`, the calls on a buffer return. -/
theorem drain_fromStart {st : WalFileDecoder} (hst : FromStart st) (b : List UInt8) :
    ∃ d, drain st b = some d := by
  obtain ⟨n, hn⟩ : ∃ n, b.length < n := ⟨_, Nat.lt_succ_self _⟩
  induction n generalizing st b with
  | zero => omega
  | succ n ih =>
    obtain ⟨⟨res, st', r⟩, hd, hok⟩ := decode_fromStart hst b
    rw [drain_eq, hd]
    rcases res with e | _ | a
    · exact ⟨_, rfl⟩
    · exact ⟨_, rfl⟩
    · have := decode_emit_length hd
      obtain ⟨d, hd'⟩ := ih (hok _ rfl) r (by omega)
      exact ⟨_, by simp only [hd']; rfl⟩

/-! ## Chunks -/

/-- The driver over a sequence of chunks, from `Start` and an empty buffer. -/
def run (chunks : List (List UInt8)) : Option Drive :=
  chunks.foldlM feed ⟨[], none, .start, []⟩

theorem foldlM_feed (d : Drive) (c : List UInt8) (cs : List (List UInt8)) :
    (feed d c).bind (cs.foldlM feed) = feed d (c ++ cs.flatten) := by
  induction cs generalizing c with
  | nil => simp
  | cons c' cs ih =>
    rw [List.flatten_cons, ← List.append_assoc, ← ih, feed_append, Option.bind_assoc]
    simp [List.foldlM_cons]

/-- However the input is split into chunks, the driver emits the same records, returns the same
error after them, and ends in the same state with the same buffer as on the whole input; and no
call of `decode` panics. -/
theorem run_flatten (chunks : List (List UInt8)) :
    run chunks = run [chunks.flatten] ∧ ∃ d, run chunks = some d := by
  have hrun : run chunks = feed ⟨[], none, .start, []⟩ chunks.flatten := by
    cases chunks with
    | nil => rfl
    | cons c cs => simpa [run] using foldlM_feed _ c cs
  have hone : run [chunks.flatten] = feed ⟨[], none, .start, []⟩ chunks.flatten := by simp [run]
  obtain ⟨d, hd⟩ := drain_fromStart (show FromStart .start from trivial) chunks.flatten
  refine ⟨hrun.trans hone.symm, d.after [], ?_⟩
  rw [hrun, feed, List.nil_append, hd]
  rfl

end TerminusStore.Wal
