import TerminusStore.Wal.Backward

/-!
# Recovery scans

Reference: `src/storage/directory/wal.rs`, `ReadableWalFile::{get_labels_since_last_checkpoint,
get_all_labels_since_last_checkpoint, get_last_checkpoint, get_last_id}`.

The two label scans run one visitor and differ only in the body of the loop over a label set's
entries, so both are `scanSinceLastCheckpoint` with their own loop body: `collectWanted` removes
a wanted label from the set and records it, `collectNew` records a label not seen yet. Both
return `cloned.into_inner()`, where `cloned` is `discovered.clone()` taken when the closure is
built; `AtomicRefCell::clone` copies the map it holds, so the map returned is the empty one the
scan started from, whatever the visitor collects.

`labels_since_last_checkpoint_agree` compares the two scans over the file, for every content,
cursor and read schedule. It rests on `collect_rel`: the wanted set of the one scan is the
wanted labels the other has not discovered, and the one's map is the other's restricted to the
wanted labels, so the two visitors stop alike (`walkBackwards_sim`). `discovered_agree` states that
correspondence of the maps the visitors build over every handle. Over the log view the visitors
read the records, so the loop bodies run there.

`get_last_id` falls back to `get_last_checkpoint` on the handle its own walk returns.
-/

namespace TerminusStore.Wal

/-- A `HashMap<String, (u32, [u32;5])>`: each label's id and layer. -/
abbrev LabelMap := Str → Option (UInt32 × Layer)

/-- The map restricted to the labels in `W`. -/
def LabelMap.restrict (W : Str → Bool) (m : LabelMap) : LabelMap := fun x => if W x then m x else none

/-- What a recovery visitor's closure holds: the checkpoint seen, the labels discovered, and
what else its loop body reads (the wanted labels of `get_labels_since_last_checkpoint`). -/
structure ScanState (W : Type) where
  checkpoint : Option UInt32
  discovered : LabelMap
  labels : W

section Scan

variable {W : Type}

/-- The closure of the two label scans, with the body `collect` of the loop over a label set's
entries. -/
def recoveryVisitor (collect : UInt32 → ScanState W → LabelSetEntry → ScanState W) :
    Visitor (ScanState W) UInt32
  | s, none => some (s, some (s.checkpoint.getD 0))
  | s, some a =>
    match a.record with
    | none => none
    | some (.checkpoint record) =>
      some ({ s with checkpoint := match s.checkpoint with
        | none => some record.identifier
        | some c => some c }, none)
    | some (.labelSet record) =>
      let id := record.identifier
      if some id = s.checkpoint then some (s, some id)
      else record.entries.map fun es => (es.foldl (collect id) s, none)

/-- The loop body of `get_labels_since_last_checkpoint`:
`if labels.remove(&label) { discovered.insert(label, (id, entry.layer())) }`. -/
def collectWanted (id : UInt32) (s : ScanState (Str → Bool)) (e : LabelSetEntry) :
    ScanState (Str → Bool) :=
  if s.labels e.label then
    { s with labels := Function.update s.labels e.label false,
             discovered := Function.update s.discovered e.label (some (id, e.layer)) }
  else s

/-- The loop body of `get_all_labels_since_last_checkpoint`:
`if !discovered.contains_key(&label) { discovered.insert(label, (id, entry.layer())) }`. -/
def collectNew (id : UInt32) (s : ScanState Unit) (e : LabelSetEntry) : ScanState Unit :=
  if s.discovered e.label = none then
    { s with discovered := Function.update s.discovered e.label (some (id, e.layer)) }
  else s

variable {F : Type} (B : Backward F)

/-- The two label scans: walk back with the recovery visitor, then return the clone of the map
taken before the walk and the checkpoint id, or 0. -/
def scanSinceLastCheckpoint (collect : UInt32 → ScanState W → LabelSetEntry → ScanState W)
    (labels : W) (f : F) : Outcome F (LabelMap × UInt32) :=
  let discovered : LabelMap := fun _ => none
  let cloned := discovered
  (walkBackwards B (recoveryVisitor collect) ⟨none, discovered, labels⟩ f).map
    fun (_, checkpointId) => (cloned, checkpointId.getD 0)

/-- `ReadableWalFile::get_labels_since_last_checkpoint`. -/
def getLabelsSinceLastCheckpoint (labels : Str → Bool) (f : F) : Outcome F (LabelMap × UInt32) :=
  scanSinceLastCheckpoint B collectWanted labels f

/-- `ReadableWalFile::get_all_labels_since_last_checkpoint`. -/
def getAllLabelsSinceLastCheckpoint (f : F) : Outcome F (LabelMap × UInt32) :=
  scanSinceLastCheckpoint B collectNew () f

end Scan

/-! ## The last checkpoint and the last id -/

section Last

variable {F : Type} (B : Backward F)

/-- The closure of `get_last_checkpoint`. -/
def lastCheckpointVisitor : Visitor Unit UInt32
  | _, none => some ((), some 0)
  | _, some a =>
    a.record.map fun
      | .checkpoint record => ((), some record.identifier)
      | .labelSet _ => ((), none)

/-- `ReadableWalFile::get_last_checkpoint`; `id.unwrap()` panics on `none`. -/
def getLastCheckpoint (f : F) : Outcome F UInt32 :=
  (walkBackwards B lastCheckpointVisitor () f).bind fun (_, id) wal =>
    match id with
    | some id => .ok id wal
    | none => .panic

/-- The closure of `get_last_id`. -/
def lastIdVisitor : Visitor Unit UInt32
  | _, none => some ((), none)
  | _, some a =>
    a.record.map fun
      | .labelSet record => ((), some record.identifier)
      | .checkpoint _ => ((), none)

/-- `ReadableWalFile::get_last_id`: the last label set's id, or else `get_last_checkpoint` on
the handle the walk returned. -/
def getLastId (f : F) : Outcome F UInt32 :=
  (walkBackwards B lastIdVisitor () f).bind fun (_, id) wal =>
    match id with
    | none => getLastCheckpoint B wal
    | some id => .ok id wal

end Last

/-! ## The two label scans agree -/

section Agree

variable (W : Str → Bool)

/-- How the states of the two label scans correspond: the same checkpoint; the labels still
wanted are the wanted labels not yet discovered; the map is the other's restricted to `W`. -/
def ScanRel (s : ScanState (Str → Bool)) (t : ScanState Unit) : Prop :=
  s.checkpoint = t.checkpoint ∧ s.discovered = t.discovered.restrict W ∧
    ∀ x, s.labels x = (W x && (t.discovered x).isNone)

theorem collect_rel {s : ScanState (Str → Bool)} {t : ScanState Unit} (h : ScanRel W s t)
    (id : UInt32) (e : LabelSetEntry) : ScanRel W (collectWanted id s e) (collectNew id t e) := by
  obtain ⟨hc, hd, hl⟩ := h
  unfold collectWanted collectNew
  by_cases ht : t.discovered e.label = none
  · have hs : s.labels e.label = W e.label := by simp [hl, ht]
    rw [if_pos ht, hs]
    refine ⟨by split_ifs <;> exact hc, funext fun x => ?_, fun x => ?_⟩ <;>
      by_cases hx : x = e.label
    · subst hx; split_ifs with hw <;> simp [LabelMap.restrict, hw, hd]
    · split_ifs <;> simp [LabelMap.restrict, Function.update_noteq hx, hd]
    · subst hx; split_ifs with hw <;> simp [hw, hs]
    · split_ifs <;> simp [Function.update_noteq hx, hl]
  · have hs : s.labels e.label = false := by simp [hl, Option.ne_none_iff_isSome.1 ht]
    rw [if_neg (by simp [hs]), if_neg ht]
    exact ⟨hc, hd, hl⟩

theorem foldl_collect_rel {s : ScanState (Str → Bool)} {t : ScanState Unit} (h : ScanRel W s t)
    (id : UInt32) (es : List LabelSetEntry) :
    ScanRel W (es.foldl (collectWanted id) s) (es.foldl (collectNew id) t) := by
  induction es generalizing s t with
  | nil => exact h
  | cons e es ih => exact ih (collect_rel W h id e)

/-- The two visitors panic, stop and return alike from corresponding states. -/
theorem recoveryVisitor_rel (s : ScanState (Str → Bool)) (t : ScanState Unit)
    (r : Option AnnotatedWalRecord) (h : ScanRel W s t) :
    Option.Rel (fun p q => ScanRel W p.1 q.1 ∧ p.2 = q.2) (recoveryVisitor collectWanted s r)
      (recoveryVisitor collectNew t r) := by
  obtain ⟨hc, hd, hl⟩ := h
  cases r with
  | none => exact .some ⟨⟨hc, hd, hl⟩, by simp [recoveryVisitor, hc]⟩
  | some a =>
    simp only [recoveryVisitor]
    rcases a.record with _ | record | record
    · exact .none
    · simp only [hc]
      split_ifs
      · exact .some ⟨⟨hc, hd, hl⟩, rfl⟩
      · rcases record.entries with _ | es
        · exact .none
        · exact .some ⟨foldl_collect_rel W ⟨hc, hd, hl⟩ _ es, rfl⟩
    · exact .some ⟨⟨by simp [hc], hd, hl⟩, rfl⟩

/-- The two scans start from corresponding states: nothing discovered, every wanted label still
wanted. -/
theorem scanRel_init : ScanRel W ⟨none, fun _ => none, W⟩ ⟨none, fun _ => none, ()⟩ :=
  ⟨rfl, by funext x; simp [LabelMap.restrict], fun x => by simp⟩

/-- Over any handle, the wanted-label scan returns what the all-label scan returns, with the map
restricted to the wanted labels. -/
theorem getLabels_eq_restrict {F : Type} (B : Backward F) (f : F) :
    getLabelsSinceLastCheckpoint B W f =
      (getAllLabelsSinceLastCheckpoint B f).map fun (m, c) => (m.restrict W, c) := by
  simp only [getLabelsSinceLastCheckpoint, getAllLabelsSinceLastCheckpoint,
    scanSinceLastCheckpoint, Outcome.map_map]
  refine (walkBackwards_sim B (ScanRel W) (recoveryVisitor_rel W) (scanRel_init W) f).map_eq
    fun p q ⟨_, ho⟩ => ?_
  simp only [Function.comp, ho]
  congr
  funext x
  simp [LabelMap.restrict]

/-- The two label scans over the WAL file agree, for every content, cursor, read schedule and
set `W` of wanted labels: both panic or fail alike, and otherwise return the same checkpoint id
and handle, and the wanted-label scan's map is the all-label scan's restricted to `W`. -/
theorem labels_since_last_checkpoint_agree (chunk : ℕ → ℕ) (f : LockedFile) :
    getLabelsSinceLastCheckpoint (fileBackward chunk) W f =
      (getAllLabelsSinceLastCheckpoint (fileBackward chunk) f).map
        fun (m, c) => (m.restrict W, c) :=
  getLabels_eq_restrict W (fileBackward chunk) f

/-- The maps the two scans' visitors build correspond over every handle that walks backwards,
the WAL file and the log view among them: both walks panic or fail alike, and otherwise, at the
end of the walk, the wanted-label scan's map is the all-label scan's restricted to `W`, the labels
it still wants are the wanted labels the other never met, and both stop with the same value. -/
theorem discovered_agree {F : Type} (B : Backward F) (f : F) :
    Outcome.Rel (fun p q => ScanRel W p.1 q.1 ∧ p.2 = q.2)
      (walkBackwards B (recoveryVisitor collectWanted) ⟨none, fun _ => none, W⟩ f)
      (walkBackwards B (recoveryVisitor collectNew) ⟨none, fun _ => none, ()⟩ f) :=
  walkBackwards_sim B (ScanRel W) (recoveryVisitor_rel W) (scanRel_init W) f

end Agree

end TerminusStore.Wal
