import TerminusStore.Bytes

/-!
# WAL records and their frames

Reference: `src/storage/directory/wal.rs`, from `WalError` to `AnnotatedWalRecord`.

Every record type of the source is a byte buffer with accessors that parse it. A
`LabelSetEntry` is only ever built by `new` or by `try_split_from_bytes`, and both check its
shape, so here it carries that shape as a field (`entryWellFormed`); `label` and `layer` are
then total. The other record types are plain buffers, and their parsing accessors return
`none` where the source panics.

`LogRecord` is what a record says (a label set binding labels to layers, or a checkpoint);
`LogRecord.toWalRecord` is how `append_labelset` and `append_checkpoint` build the record, and
`LogRecord.body` is the body layout of the spec. `toWalRecord_data` says the two agree, and
`record_new` that `AnnotatedWalRecord::record` reads back every record the writer builds.
-/

namespace TerminusStore.Wal

/-- The kinds of `io::Error` the WAL can meet: `read_exact` running into the end of the file,
and `FramedRead`'s "bytes remaining on stream" at the end of its input. -/
inductive IoErrorKind where
  | unexpectedEof
  | other
  deriving DecidableEq, Repr

/-- `WalError`. -/
inductive WalError where
  | fileNotFound
  | unknownRecordType
  | incompleteRecord
  | labelNotUtf8
  | tooManyLabels
  | zeroLabels
  | duplicateLabel
  | invalidRecordLength
  | crcFailure
  | io (kind : IoErrorKind)
  deriving DecidableEq, Repr

/-! ## Label set entries -/

/-- The shape of a `LabelSetEntry`'s bytes: a label length `n`, then `n` bytes of UTF-8 label
and twenty bytes of layer. -/
def entryWellFormed : List UInt8 → Bool
  | [] => false
  | n :: rest => rest.length == n.toNat + 20 && utf8Valid (rest.take n.toNat)

/-- `LabelSetEntry`, with the shape every constructor of the source checks. -/
structure LabelSetEntry where
  data : List UInt8
  wellFormed : entryWellFormed data = true

namespace LabelSetEntry

/-- `LabelSetEntry::new`; `none` is its panic on a label of 256 bytes or more. -/
def new (label : Str) (layer : Layer) : Option LabelSetEntry :=
  if h : label.bytes.length < 256 then
    some ⟨label.bytes.length.toUInt8 :: (label.bytes ++ layerBytes layer), by
      simp [entryWellFormed, toNat_toUInt8, Nat.mod_eq_of_lt h, label.valid]⟩
  else none

theorem label_valid (d : List UInt8) (h : entryWellFormed d = true) :
    utf8Valid ((d.drop 1).take (d.headD 0).toNat) = true := by
  cases d with
  | nil => cases h
  | cons n rest => simp_all [entryWellFormed]

/-- `LabelSetEntry::label`: `String::from_utf8(..).unwrap()` never panics on a well-formed
entry. -/
def label (e : LabelSetEntry) : Str :=
  ⟨(e.data.drop 1).take (e.data.headD 0).toNat, label_valid e.data e.wellFormed⟩

/-- `LabelSetEntry::layer`. -/
def layer (e : LabelSetEntry) : Layer :=
  readLayer (e.data.drop ((e.data.headD 0).toNat + 1))

/-- `LabelSetEntry::try_split_from_bytes`, with the `from_bytes` it calls: the result and what
is left of the buffer. `split_to` removes the entry's bytes before `from_bytes` checks the
label, so a label that is not UTF-8 is consumed; `from_bytes`'s size panic cannot fire, as it
receives exactly `len + 21` bytes. -/
def trySplitFromBytes : List UInt8 → Except WalError LabelSetEntry × List UInt8
  | [] => (.error .incompleteRecord, [])
  | n :: rest =>
    if hlen : rest.length < n.toNat + 20 then (.error .incompleteRecord, n :: rest)
    else
      (if h : utf8Valid (rest.take n.toNat) then
        .ok ⟨n :: rest.take (n.toNat + 20), by
          simp [entryWellFormed, List.take_take, h]; omega⟩
      else .error .labelNotUtf8, rest.drop (n.toNat + 20))

/-- Splitting a well-formed entry off the front of a buffer gives it back. -/
@[simp] theorem trySplitFromBytes_append (e : LabelSetEntry) (rest : List UInt8) :
    trySplitFromBytes (e.data ++ rest) = (.ok e, rest) := by
  obtain ⟨d, h⟩ := e
  cases d with
  | nil => cases h
  | cons n body =>
    simp only [entryWellFormed, Bool.and_eq_true, beq_iff_eq] at h
    have hv : utf8Valid ((body ++ rest).take n.toNat) = true := by
      rw [List.take_append_of_le_length (by omega)]; exact h.2
    simp only [List.cons_append, trySplitFromBytes, List.length_append, hv]
    rw [dif_neg (by omega), dif_pos trivial]
    simp [← h.1, List.drop_left']

/-- A split that is not cut short by the end of the buffer does not look past the entry. -/
theorem trySplitFromBytes_append_of_ne {b : List UInt8}
    (h : (trySplitFromBytes b).1 ≠ .error .incompleteRecord) (c : List UInt8) :
    trySplitFromBytes (b ++ c) = ((trySplitFromBytes b).1, (trySplitFromBytes b).2 ++ c) := by
  match b with
  | [] => exact absurd rfl h
  | n :: rest =>
    by_cases hlen : rest.length < n.toNat + 20
    · simp [trySplitFromBytes, hlen] at h
    · have hlen' : ¬ (rest ++ c).length < n.toNat + 20 := by simp; omega
      have ht : (rest ++ c).take n.toNat = rest.take n.toNat :=
        List.take_append_of_le_length (by omega)
      simp only [List.cons_append, trySplitFromBytes, dif_neg hlen, dif_neg hlen', ht,
        List.take_append_of_le_length (by omega : n.toNat + 20 ≤ rest.length),
        List.drop_append_of_le_length (by omega : n.toNat + 20 ≤ rest.length)]

/-- A split that succeeds or fails on the label consumes the whole entry, at least 21 bytes. -/
theorem trySplitFromBytes_length {b : List UInt8}
    (h : (trySplitFromBytes b).1 ≠ .error .incompleteRecord) :
    (trySplitFromBytes b).2.length + 21 ≤ b.length := by
  match b with
  | [] => exact absurd rfl h
  | n :: rest =>
    by_cases hlen : rest.length < n.toNat + 20
    · simp [trySplitFromBytes, hlen] at h
    · simp only [trySplitFromBytes, dif_neg hlen, List.length_drop, List.length_cons]
      omega

/-- A well-formed entry cut short leaves the split waiting for more input, with the bytes kept. -/
theorem trySplitFromBytes_take (e : LabelSetEntry) {m : ℕ} (hm : m < e.data.length) :
    trySplitFromBytes (e.data.take m) = (.error .incompleteRecord, e.data.take m) := by
  obtain ⟨d, h⟩ := e
  cases d with
  | nil => cases h
  | cons n body =>
    simp only [entryWellFormed, Bool.and_eq_true, beq_iff_eq] at h
    cases m with
    | zero => rfl
    | succ m =>
      simp only [List.length_cons] at hm
      simp only [List.take_succ_cons, trySplitFromBytes, List.length_take]
      rw [dif_pos (by omega)]

end LabelSetEntry

/-! ## Label set and checkpoint records -/

/-- `LabelSetRecord`: a count, that many entries, and a big-endian id. -/
structure LabelSetRecord where
  data : List UInt8
  deriving DecidableEq, Repr

namespace LabelSetRecord

/-- `LabelSetRecord::new` (with the `new_bytes` it calls); `none` is its panic on more than
100 entries. -/
def new (index : UInt32) (entries : List LabelSetEntry) : Option LabelSetRecord :=
  if 100 < entries.length then none
  else some ⟨entries.length.toUInt8 :: ((entries.map (·.data)).flatten ++ writeU32 index)⟩

/-- The `for _i in 0..len` loop of `try_split_from_bytes`: split `k` entries off the buffer. -/
def splitEntries : ℕ → List UInt8 → Except WalError Unit × List UInt8
  | 0, d => (.ok (), d)
  | k + 1, d =>
    match LabelSetEntry.trySplitFromBytes d with
    | (.ok _, d') => splitEntries k d'
    | (.error e, d') => (.error e, d')

/-- `LabelSetRecord::try_split_from_bytes`: the record and what is left of the buffer. The
record's bytes are the prefix the call consumed (`clone.split_to(clone.len() - data.len())`). -/
def trySplitFromBytes : List UInt8 → Except WalError LabelSetRecord × List UInt8
  | [] => (.error .incompleteRecord, [])
  | n :: rest =>
    if 100 < n then (.error .tooManyLabels, n :: rest)
    else
      match splitEntries n.toNat rest with
      | (.error e, d) => (.error e, d)
      | (.ok (), d) =>
        if d.length < 4 then (.error .incompleteRecord, d)
        else (.ok ⟨(n :: rest).take (rest.length + 1 - (d.length - 4))⟩, d.drop 4)

/-- `LabelSetRecord::from_bytes`; `none` is a panic: an error of `try_split_from_bytes`
unwrapped, or bytes left over. -/
def fromBytes (data : List UInt8) : Option LabelSetRecord :=
  match trySplitFromBytes data with
  | (.ok r, []) => some r
  | _ => none

/-- `LabelSetRecord::len`. -/
def len (r : LabelSetRecord) : ℕ := (r.data.headD 0).toNat

/-- The `scan` of `LabelSetRecord::entries`, each step `try_split_from_bytes(..).unwrap()`;
`none` is a panic. -/
def entriesFrom : ℕ → List UInt8 → Option (List LabelSetEntry)
  | 0, _ => some []
  | k + 1, d =>
    match LabelSetEntry.trySplitFromBytes d with
    | (.ok e, d') => (entriesFrom k d').map (e :: ·)
    | (.error _, _) => none

/-- `LabelSetRecord::entries`. -/
def entries (r : LabelSetRecord) : Option (List LabelSetEntry) :=
  entriesFrom r.len (r.data.drop 1)

/-- `LabelSetRecord::identifier`: the last four bytes. -/
def identifier (r : LabelSetRecord) : UInt32 := readU32 (r.data.drop (r.data.length - 4))

end LabelSetRecord

/-- `CheckpointRecord`: a big-endian id. -/
structure CheckpointRecord where
  data : List UInt8
  deriving DecidableEq, Repr

namespace CheckpointRecord

/-- `CheckpointRecord::new`. -/
def new (index : UInt32) : CheckpointRecord := ⟨writeU32 index⟩

/-- `CheckpointRecord::from_bytes`; `none` is its panic on a buffer of other than four bytes. -/
def fromBytes (data : List UInt8) : Option CheckpointRecord :=
  if data.length = 4 then some ⟨data⟩ else none

/-- `CheckpointRecord::identifier`. -/
def identifier (r : CheckpointRecord) : UInt32 := readU32 r.data

end CheckpointRecord

/-- `WalRecord`. -/
inductive WalRecord where
  | labelSet (r : LabelSetRecord)
  | checkpoint (r : CheckpointRecord)
  deriving DecidableEq, Repr

namespace WalRecord

/-- `WalRecord::data`: the record's body. -/
def data : WalRecord → List UInt8
  | labelSet r => r.data
  | checkpoint r => r.data

/-- `WalRecord::type_num`. -/
def typeNum : WalRecord → UInt8
  | labelSet _ => 0
  | checkpoint _ => 1

/-- `WalRecord::checksum`: the CRC of the body alone. -/
def checksum (r : WalRecord) : UInt32 := checksumIeee r.data

end WalRecord

/-! ## Annotated records: the frames -/

/-- `AnnotatedWalRecord`: a frame, `type || body || length || crc`. -/
structure AnnotatedWalRecord where
  data : List UInt8
  deriving DecidableEq, Repr

namespace AnnotatedWalRecord

/-- `AnnotatedWalRecord::new` (with the `new_bytes` it calls, whose checks it passes): the
length field is the length of the body alone, the checksum the CRC of the body alone. -/
def new (record : WalRecord) : AnnotatedWalRecord :=
  ⟨record.typeNum :: (record.data ++ writeU32 record.data.length.toUInt32 ++
    writeU32 record.checksum)⟩

/-- `AnnotatedWalRecord::record_bytes`: drop the type byte and the eight trailing bytes. The
source is built in release mode, where `record_bytes.len() - 8` wraps below zero and the
`truncate` to that huge length keeps every byte. -/
def recordBytes (a : AnnotatedWalRecord) : List UInt8 :=
  let rb := a.data.drop 1
  if 8 ≤ rb.length then rb.take (rb.length - 8) else rb

/-- `AnnotatedWalRecord::record_len`: the four bytes before the last four, as a length; `none`
is the slice's panic on a frame of fewer than eight bytes. -/
def recordLen (a : AnnotatedWalRecord) : Option ℕ :=
  if a.data.length < 8 then none
  else some (readU32 ((a.data.drop (a.data.length - 8)).take 4)).toNat

/-- `AnnotatedWalRecord::checksum`: the last four bytes; `none` is the slice's panic on a frame
of fewer than four bytes. -/
def checksum (a : AnnotatedWalRecord) : Option UInt32 :=
  if a.data.length < 4 then none else some (readU32 (a.data.drop (a.data.length - 4)))

/-- `AnnotatedWalRecord::record`; `none` is a panic. -/
def record (a : AnnotatedWalRecord) : Option WalRecord :=
  match a.data with
  | [] => none
  | tp :: _ =>
    if tp = 0 then (LabelSetRecord.fromBytes a.recordBytes).map .labelSet
    else if tp = 1 then (CheckpointRecord.fromBytes a.recordBytes).map .checkpoint
    else none

end AnnotatedWalRecord

/-! ## What a record says -/

/-- What a WAL record says: label-to-layer bindings under an id, or a checkpoint id. -/
inductive LogRecord where
  | labelSet (id : UInt32) (bindings : List (Str × Layer))
  | checkpoint (id : UInt32)
  deriving DecidableEq

namespace LogRecord

/-- The record the writer builds: `append_labelset` maps every binding through
`LabelSetEntry::new` and hands the entries to `LabelSetRecord::new`; `append_checkpoint` calls
`CheckpointRecord::new`. `none` is a panic (a label of 256 bytes or more, or more than 100
bindings). -/
def toWalRecord : LogRecord → Option WalRecord
  | labelSet id bs => do
    let entries ← bs.mapM fun b => LabelSetEntry.new b.1 b.2
    let r ← LabelSetRecord.new id entries
    pure (.labelSet r)
  | checkpoint id => some (.checkpoint (CheckpointRecord.new id))

/-- The limits within which the writer builds a record without panicking. -/
def Valid : LogRecord → Prop
  | labelSet _ bs => bs.length ≤ 100 ∧ ∀ b ∈ bs, b.1.bytes.length < 256
  | checkpoint _ => True

/-- One binding in the spec's layout: `label_len || label || layer`. -/
def entryBytes (b : Str × Layer) : List UInt8 :=
  b.1.bytes.length.toUInt8 :: (b.1.bytes ++ layerBytes b.2)

/-- A record's body in the spec's layout. -/
def body : LogRecord → List UInt8
  | labelSet id bs => bs.length.toUInt8 :: ((bs.map entryBytes).flatten ++ writeU32 id)
  | checkpoint id => writeU32 id

/-- The type byte of a record's frame. -/
def typeNum : LogRecord → UInt8
  | labelSet .. => 0
  | checkpoint _ => 1

end LogRecord

namespace LabelSetEntry

theorem new_data {label : Str} {layer : Layer} {e : LabelSetEntry}
    (h : new label layer = some e) : e.data = LogRecord.entryBytes (label, layer) := by
  unfold new at h
  split at h
  · cases h; rfl
  · cases h

@[simp] theorem label_new {label : Str} {layer : Layer} {e : LabelSetEntry}
    (h : new label layer = some e) : e.label = label := by
  have hlt : label.bytes.length < 256 := by
    by_contra hc; simp [new, hc] at h
  obtain ⟨bs, hbs⟩ := label
  simp only [label, new_data h, LogRecord.entryBytes, List.drop_one, List.tail_cons,
    List.headD_cons, toNat_toUInt8, Nat.mod_eq_of_lt hlt, List.take_left']

@[simp] theorem layer_new {label : Str} {layer : Layer} {e : LabelSetEntry}
    (h : new label layer = some e) : e.layer = layer := by
  have hlt : label.bytes.length < 256 := by
    by_contra hc; simp [new, hc] at h
  simp [LabelSetEntry.layer, new_data h, LogRecord.entryBytes, toNat_toUInt8,
    Nat.mod_eq_of_lt hlt, List.drop_left']

/-- An entry is its length byte, at most 255 label bytes, and 20 layer bytes. -/
theorem data_length_le (e : LabelSetEntry) : e.data.length ≤ 276 := by
  obtain ⟨d, h⟩ := e
  cases d with
  | nil => cases h
  | cons n rest =>
    simp only [entryWellFormed, Bool.and_eq_true, beq_iff_eq] at h
    have : n.toNat < 256 := n.toBitVec.isLt
    simp only [List.length_cons]
    omega

/-- An entry is at least its length byte and 20 layer bytes. -/
theorem data_length_ge (e : LabelSetEntry) : 21 ≤ e.data.length := by
  obtain ⟨d, h⟩ := e
  cases d with
  | nil => cases h
  | cons n rest =>
    simp only [entryWellFormed, Bool.and_eq_true, beq_iff_eq] at h
    simp only [List.length_cons]
    omega

/-- `k` entries take at most `276 * k` bytes. -/
theorem flatten_length_le (es : List LabelSetEntry) :
    ((es.map (·.data)).flatten).length ≤ es.length * 276 := by
  induction es with
  | nil => simp
  | cons e es ih =>
    have := e.data_length_le
    simp only [List.map_cons, List.flatten_cons, List.length_append, List.length_cons]
    omega

/-- A split that succeeds takes the entry's bytes off the front of the buffer. -/
theorem eq_append_of_trySplitFromBytes {b r : List UInt8} {e : LabelSetEntry}
    (h : trySplitFromBytes b = (.ok e, r)) : b = e.data ++ r := by
  match b with
  | [] => cases h
  | n :: rest =>
    simp only [trySplitFromBytes] at h
    split_ifs at h <;> simp only [Prod.mk.injEq, Except.ok.injEq, reduceCtorEq, false_and] at h
    obtain ⟨rfl, rfl⟩ := h
    simp

end LabelSetEntry

namespace LabelSetRecord

theorem splitEntries_flatten (es : List LabelSetEntry) (rest : List UInt8) :
    splitEntries es.length ((es.map (·.data)).flatten ++ rest) = (.ok (), rest) := by
  induction es with
  | nil => rfl
  | cons e es ih => simp [splitEntries, List.append_assoc, ih]

theorem entriesFrom_flatten (es : List LabelSetEntry) (rest : List UInt8) :
    entriesFrom es.length ((es.map (·.data)).flatten ++ rest) = some es := by
  induction es with
  | nil => rfl
  | cons e es ih => simp [entriesFrom, List.append_assoc, ih]

theorem drop_length_sub_four (l : List UInt8) (x : UInt32) :
    (l ++ writeU32 x).drop ((l ++ writeU32 x).length - 4) = writeU32 x := by
  simp [List.drop_left']

variable {id : UInt32} {es : List LabelSetEntry} {r : LabelSetRecord}

theorem new_data (h : new id es = some r) :
    r.data = es.length.toUInt8 :: ((es.map (·.data)).flatten ++ writeU32 id) := by
  unfold new at h
  split at h
  · cases h
  · cases h; rfl

theorem new_length (h : new id es = some r) : es.length ≤ 100 := by
  unfold new at h
  split at h
  · cases h
  · omega

/-- A label set record is at most a count, 100 entries, and an id. -/
theorem new_data_length (h : new id es = some r) : r.data.length ≤ 1 + 100 * 276 + 4 := by
  have := LabelSetEntry.flatten_length_le es
  have := new_length h
  rw [new_data h]
  simp only [List.length_cons, List.length_append, length_writeU32]
  omega

@[simp] theorem identifier_new (h : new id es = some r) : r.identifier = id := by
  rw [identifier, new_data h, ← List.cons_append, drop_length_sub_four, readU32_writeU32]

@[simp] theorem entries_new (h : new id es = some r) : r.entries = some es := by
  have hlen := new_length h
  simp [entries, len, new_data h, toNat_toUInt8, Nat.mod_eq_of_lt (by omega : es.length < 256),
    entriesFrom_flatten]

@[simp] theorem len_new (h : new id es = some r) : r.len = es.length := by
  have hlen := new_length h
  simp [len, new_data h, toNat_toUInt8, Nat.mod_eq_of_lt (by omega : es.length < 256)]

/-- No buffer shorter than a count and an identifier holds a label set. -/
theorem fromBytes_of_length_lt {d : List UInt8} (h : d.length < 5) : fromBytes d = none := by
  match d with
  | [] => rfl
  | n :: rest =>
    simp only [fromBytes, trySplitFromBytes]
    split_ifs
    · rfl
    · cases n.toNat with
      | zero => simp [splitEntries, show rest.length < 4 by simp at h; omega]
      | succ k =>
        match rest with
        | [] => rfl
        | m :: rest' =>
          have : rest'.length < m.toNat + 20 := by simp at h; omega
          simp [splitEntries, LabelSetEntry.trySplitFromBytes, this]

@[simp] theorem fromBytes_new (h : new id es = some r) : fromBytes r.data = some r := by
  have hlen := new_length h
  have hn : ¬ 100 < es.length.toUInt8 := by
    rw [uint8_lt_iff, toNat_toUInt8, Nat.mod_eq_of_lt (by omega : es.length < 256)]
    simpa using hlen
  have hk : es.length.toUInt8.toNat = es.length := by
    rw [toNat_toUInt8, Nat.mod_eq_of_lt (by omega)]
  have hd := new_data h
  cases r
  simp only at hd
  subst hd
  simp only [fromBytes, trySplitFromBytes, if_neg hn, hk, splitEntries_flatten]
  rw [if_neg (by simp), List.take_of_length_le (by simp), List.drop_eq_nil_of_le (by simp)]

end LabelSetRecord

namespace LogRecord

/-- The entries the writer builds are the bindings in the spec's layout. -/
theorem mapM_new_data {bs : List (Str × Layer)} {es : List LabelSetEntry}
    (h : bs.mapM (fun b => LabelSetEntry.new b.1 b.2) = some es) :
    es.map (·.data) = bs.map entryBytes := by
  induction bs generalizing es with
  | nil => simp only [List.mapM_nil, Option.pure_def, Option.some.injEq] at h; simp [← h]
  | cons b bs ih =>
    simp only [List.mapM_cons, Option.bind_eq_bind, Option.bind_eq_some, Option.pure_def,
      Option.some.injEq] at h
    obtain ⟨e, he, es', hes', rfl⟩ := h
    simp [ih hes', LabelSetEntry.new_data he]

/-- The entries the writer builds give back the labels and layers they were built from. -/
theorem mapM_new_label_layer {bs : List (Str × Layer)} {es : List LabelSetEntry}
    (h : bs.mapM (fun b => LabelSetEntry.new b.1 b.2) = some es) :
    es.map (fun e => (e.label, e.layer)) = bs := by
  induction bs generalizing es with
  | nil => simp only [List.mapM_nil, Option.pure_def, Option.some.injEq] at h; simp [← h]
  | cons b bs ih =>
    simp only [List.mapM_cons, Option.bind_eq_bind, Option.bind_eq_some, Option.pure_def,
      Option.some.injEq] at h
    obtain ⟨e, he, es', hes', rfl⟩ := h
    simp [ih hes', LabelSetEntry.label_new he, LabelSetEntry.layer_new he]

/-- Every binding with a label under 256 bytes gives an entry. -/
theorem mapM_new_isSome {bs : List (Str × Layer)} (h : ∀ b ∈ bs, b.1.bytes.length < 256) :
    ∃ es, bs.mapM (fun b => LabelSetEntry.new b.1 b.2) = some es := by
  induction bs with
  | nil => exact ⟨[], rfl⟩
  | cons b bs ih =>
    obtain ⟨hb, hbs⟩ := List.forall_mem_cons.1 h
    obtain ⟨es, hes⟩ := ih hbs
    obtain ⟨e, he⟩ : ∃ e, LabelSetEntry.new b.1 b.2 = some e := ⟨_, dif_pos hb⟩
    exact ⟨e :: es, by simp only [List.mapM_cons, he, hes]; rfl⟩

theorem mapM_new_length {bs : List (Str × Layer)} {es : List LabelSetEntry}
    (h : bs.mapM (fun b => LabelSetEntry.new b.1 b.2) = some es) : es.length = bs.length := by
  simpa using congrArg List.length (mapM_new_data h)

/-- The label set record the writer builds from `bs`: one entry per binding. -/
theorem toWalRecord_labelSet {id : UInt32} {bs : List (Str × Layer)} {w : WalRecord}
    (h : (labelSet id bs).toWalRecord = some w) :
    ∃ es ls, bs.mapM (fun b => LabelSetEntry.new b.1 b.2) = some es ∧
      LabelSetRecord.new id es = some ls ∧ w = .labelSet ls := by
  simp only [toWalRecord, Option.bind_eq_bind, Option.bind_eq_some] at h
  obtain ⟨es, hes, ls, hls, hw⟩ := h
  exact ⟨es, ls, hes, hls, (Option.some.inj hw).symm⟩

/-- The writer lays a record's body out as the spec does. -/
theorem toWalRecord_data {r : LogRecord} {w : WalRecord} (h : r.toWalRecord = some w) :
    w.data = r.body := by
  cases r with
  | labelSet id bs =>
    obtain ⟨es, ls, hes, hls, rfl⟩ := toWalRecord_labelSet h
    rw [WalRecord.data, LabelSetRecord.new_data hls, body, mapM_new_data hes, mapM_new_length hes]
  | checkpoint id => cases h; rfl

/-- Every record the writer builds is short enough for its length field. -/
theorem toWalRecord_data_length {r : LogRecord} {w : WalRecord} (h : r.toWalRecord = some w) :
    w.data.length < 2 ^ 32 := by
  cases r with
  | labelSet id bs =>
    obtain ⟨es, ls, -, hls, rfl⟩ := toWalRecord_labelSet h
    have := LabelSetRecord.new_data_length hls
    simp only [WalRecord.data]
    omega
  | checkpoint id =>
    cases h
    simp [WalRecord.data, CheckpointRecord.new]

end LogRecord

namespace AnnotatedWalRecord

@[simp] theorem length_new (w : WalRecord) : (new w).data.length = w.data.length + 9 := by
  simp [new]

/-- The length field and the checksum follow the type byte and the body. -/
theorem drop_new (w : WalRecord) :
    (new w).data.drop (w.data.length + 1) =
      writeU32 w.data.length.toUInt32 ++ writeU32 w.checksum := by
  simp [new, List.drop_left']

@[simp] theorem recordBytes_new (w : WalRecord) : (new w).recordBytes = w.data := by
  simp [new, recordBytes, List.take_left']

theorem record_new_eq (w : WalRecord) : (new w).record =
    if w.typeNum = 0 then (LabelSetRecord.fromBytes w.data).map .labelSet
    else if w.typeNum = 1 then (CheckpointRecord.fromBytes w.data).map .checkpoint
    else none := by
  rw [record, ← recordBytes_new w]
  rfl

/-- `record` reads back the record of every frame `new` makes from a record the writer built
(`AnnotatedWalRecord::record` after `AnnotatedWalRecord::new`). -/
theorem record_new {r : LogRecord} {w : WalRecord} (h : r.toWalRecord = some w) :
    (new w).record = some w := by
  cases r with
  | labelSet id bs =>
    simp only [LogRecord.toWalRecord, Option.bind_eq_bind, Option.bind_eq_some] at h
    obtain ⟨es, -, ls, hls, hw⟩ := h
    cases hw
    simp [record_new_eq, WalRecord.typeNum, WalRecord.data, LabelSetRecord.fromBytes_new hls]
  | checkpoint id =>
    cases h
    simp [record_new_eq, WalRecord.typeNum, CheckpointRecord.fromBytes, CheckpointRecord.new,
      WalRecord.data]

/-- The length field of a frame `new` makes is the body's length, for a body under `2^32` bytes. -/
theorem recordLen_new {w : WalRecord} (h : w.data.length < 2 ^ 32) :
    (new w).recordLen = some w.data.length := by
  have hd : (new w).data.drop ((new w).data.length - 8) =
      writeU32 w.data.length.toUInt32 ++ writeU32 w.checksum := by
    rw [length_new, show w.data.length + 9 - 8 = w.data.length + 1 by omega, drop_new]
  rw [recordLen, if_neg (by simp), hd, List.take_left' (length_writeU32 _), readU32_writeU32,
    toNat_toUInt32, Nat.mod_eq_of_lt h]

/-- The checksum of a frame `new` makes is the CRC-32 of the body. -/
theorem checksum_new (w : WalRecord) : (new w).checksum = some (checksumIeee w.data) := by
  have hd : (new w).data.drop ((new w).data.length - 4) = writeU32 w.checksum := by
    rw [length_new, show w.data.length + 9 - 4 = w.data.length + 1 + 4 by omega,
      ← List.drop_drop, drop_new, List.drop_left' (length_writeU32 _)]
  rw [checksum, if_neg (by simp), hd, readU32_writeU32]
  rfl

/-- The records the writer builds read back in memory. For every id and every at most 100
bindings of labels under 256 bytes, the frame `AnnotatedWalRecord::new` makes of
`LabelSetRecord::new` over the entries `LabelSetEntry::new` builds gives back, through
`record()`, a label set with that id, that many entries, and the same entries in order, with the
labels and layers they were built from; its `record_len()` and `checksum()` are the body's length
and CRC-32. Every checkpoint reads back with its id. -/
theorem record_roundTrip (id : UInt32) (bs : List (Str × Layer))
    (hvalid : (LogRecord.labelSet id bs).Valid) (c : UInt32) :
    (∃ es ls r, bs.mapM (fun b => LabelSetEntry.new b.1 b.2) = some es ∧
      LabelSetRecord.new id es = some ls ∧
      (new (.labelSet ls)).record = some (.labelSet r) ∧ r.identifier = id ∧ r.len = es.length ∧
      r.entries = some es ∧ es.map (fun e => (e.label, e.layer)) = bs ∧
      (new (.labelSet ls)).recordLen = some ls.data.length ∧
      (new (.labelSet ls)).checksum = some (checksumIeee ls.data)) ∧
    ∃ r, (new (.checkpoint (CheckpointRecord.new c))).record = some (.checkpoint r) ∧
      r.identifier = c := by
  obtain ⟨hlen, hlabels⟩ := hvalid
  obtain ⟨es, hes⟩ := LogRecord.mapM_new_isSome hlabels
  have hles : es.length ≤ 100 := LogRecord.mapM_new_length hes ▸ hlen
  obtain ⟨ls, hls⟩ : ∃ ls, LabelSetRecord.new id es = some ls := ⟨_, if_neg (by omega)⟩
  have hw : (LogRecord.labelSet id bs).toWalRecord = some (.labelSet ls) := by
    simp only [LogRecord.toWalRecord, hes, hls, Option.bind_eq_bind, Option.some_bind]
    rfl
  exact ⟨⟨es, ls, ls, hes, hls, record_new hw, LabelSetRecord.identifier_new hls,
    LabelSetRecord.len_new hls, LabelSetRecord.entries_new hls,
    LogRecord.mapM_new_label_layer hes, recordLen_new (LogRecord.toWalRecord_data_length hw),
    checksum_new _⟩, _, record_new (r := .checkpoint c) rfl, readU32_writeU32 c⟩

/-- The label set of id 1 binding the label `x` to the layer `[0, 0, 0, 0, 7]`, and the
checkpoint 0. -/
theorem record_roundTrip_one_label :
    (LogRecord.labelSet 1 [(⟨[120], rfl⟩, (0, 0, 0, 0, 7))]).Valid ∧
    (∃ es ls r, [((⟨[120], rfl⟩ : Str), ((0, 0, 0, 0, 7) : Layer))].mapM
        (fun b => LabelSetEntry.new b.1 b.2) = some es ∧
      LabelSetRecord.new 1 es = some ls ∧
      (new (.labelSet ls)).record = some (.labelSet r) ∧ r.identifier = 1 ∧ r.len = es.length ∧
      r.entries = some es ∧ es.map (fun e => (e.label, e.layer)) = [(⟨[120], rfl⟩, (0, 0, 0, 0, 7))] ∧
      (new (.labelSet ls)).recordLen = some ls.data.length ∧
      (new (.labelSet ls)).checksum = some (checksumIeee ls.data)) ∧
    ∃ r, (new (.checkpoint (CheckpointRecord.new 0))).record = some (.checkpoint r) ∧
      r.identifier = 0 :=
  have hvalid : (LogRecord.labelSet 1 [(⟨[120], rfl⟩, (0, 0, 0, 0, 7))]).Valid :=
    ⟨by decide, by simp⟩
  ⟨hvalid, record_roundTrip 1 _ hvalid 0⟩

end AnnotatedWalRecord

end TerminusStore.Wal
