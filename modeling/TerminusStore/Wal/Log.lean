import Mathlib.Data.List.Chain
import TerminusStore.Wal.Writer

/-!
# The log view

Reference: `src/storage/directory/wal.rs`, the functions built on
`ReadableWalFile::walk_backwards` and `ExclusiveWalFile::{append_labelset, append_checkpoint}`.

Recovery and the writer's guards are specified through a contract: `walk_backwards` hands its
visitor the file's records newest-first, then `None`. `LogView` is a handle that keeps that
contract: the records before the cursor, newest first, and those after it; `previous` hands
over the newest record before the cursor and moves the cursor to its start. The definitions of
`TerminusStore.Wal.Recovery` and `TerminusStore.Wal.Writer` run over it unchanged. A record the
guards admit is added at the end of the file, as the spec's append-only lifecycle has it.

Four things follow from the code under this contract.
- From the empty WAL the guards keep the label set ids strictly increasing in file order, and the
  checkpoint ids too (`fromEmpty_ids_increasing`). The label set ids run 1, 2, 3, ..., and the
  guard's `last_id + 1` panics at `u32::MAX` rather than wrap.
- Nothing orders the one kind of id against the other: the label set 2 may follow the checkpoint
  5 (`fromEmpty_labelSet_after_checkpoint`).
- `get_last_id` falls back to `get_last_checkpoint` on the handle its own walk returns, whose
  cursor is then at offset 0 (`getLastId_log_view`). On a WAL cleaned down to its checkpoints,
  the case the source's comment names, it reads 0 and not the last checkpoint's id
  (`appendLabelset_checkpoints_only`).
- Both label scans return the clone of the empty map taken before the walk (`getAllLabels_log`).
-/

namespace TerminusStore.Wal

/-- A record the writer builds: `append_labelset` or `append_checkpoint` made it from what a
record says. -/
def Built (w : WalRecord) : Prop := ∃ r : LogRecord, r.toWalRecord = some w

theorem record_new_of_built {w : WalRecord} (h : Built w) :
    (AnnotatedWalRecord.new w).record = some w :=
  let ⟨_, hr⟩ := h
  AnnotatedWalRecord.record_new hr

theorem entries_of_built {r : LabelSetRecord} (h : Built (.labelSet r)) :
    ∃ es, r.entries = some es := by
  obtain ⟨lr, hr⟩ := h
  cases lr with
  | labelSet id bs =>
    obtain ⟨es, ls, -, hls, hw⟩ := LogRecord.toWalRecord_labelSet hr
    cases hw
    exact ⟨es, LabelSetRecord.entries_new hls⟩
  | checkpoint id => cases hr

/-- A checkpoint's id. -/
def WalRecord.checkpointId? : WalRecord → Option UInt32
  | .checkpoint r => some r.identifier
  | .labelSet _ => none

/-- A label set's id. -/
def WalRecord.labelSetId? : WalRecord → Option UInt32
  | .labelSet r => some r.identifier
  | .checkpoint _ => none

/-- The checkpoint ids of a log, in file order. -/
def checkpointIds (log : List WalRecord) : List UInt32 := log.filterMap WalRecord.checkpointId?

/-- The label set ids of a log, in file order. -/
def labelSetIds (log : List WalRecord) : List UInt32 := log.filterMap WalRecord.labelSetId?

@[simp] theorem checkpointIds_append (l₁ l₂ : List WalRecord) :
    checkpointIds (l₁ ++ l₂) = checkpointIds l₁ ++ checkpointIds l₂ := List.filterMap_append ..

@[simp] theorem labelSetIds_append (l₁ l₂ : List WalRecord) :
    labelSetIds (l₁ ++ l₂) = labelSetIds l₁ ++ labelSetIds l₂ := List.filterMap_append ..

/-! ## The handle -/

/-- The WAL seen through the reverse-scan contract. -/
structure LogView where
  /-- the records before the cursor, newest first -/
  before : List WalRecord
  /-- the records after the cursor, in file order -/
  after : List WalRecord
  deriving DecidableEq, Repr

namespace LogView

/-- The file's records, in file order. -/
def records (v : LogView) : List WalRecord := v.before.reverse ++ v.after

/-- A handle on `log` with the cursor at the end of the file. -/
def atEnd (log : List WalRecord) : LogView := ⟨log.reverse, []⟩

/-- `previous` as the contract describes it. -/
def previous : LogView → Outcome LogView (Option AnnotatedWalRecord)
  | ⟨[], after⟩ => .ok none ⟨[], after⟩
  | ⟨w :: before, after⟩ => .ok (some (AnnotatedWalRecord.new w)) ⟨before, w :: after⟩

/-- Modelled from the spec: the WAL grows append-only, so a record written goes at the end of
the file. -/
def write (v : LogView) (w : WalRecord) : LogView := atEnd (v.records ++ [w])

@[simp] theorem records_atEnd (log : List WalRecord) : (atEnd log).records = log := by
  simp [records, atEnd]

end LogView

/-- The log view as a handle for `walk_backwards`. -/
def logBackward : Backward LogView where
  previous := LogView.previous
  size v := v.before.length
  size_lt := by
    rintro ⟨_ | ⟨w, before⟩, after⟩ f' a h <;> simp only [LogView.previous, Outcome.ok.injEq,
      reduceCtorEq, false_and, Option.some.injEq] at h
    obtain ⟨-, rfl⟩ := h
    simp

section Walk

variable {σ T : Type} (visit : Visitor σ T) (s : σ) (after : List WalRecord)

@[simp] theorem logBackward_previous_nil :
    logBackward.previous ⟨[], after⟩ = .ok none ⟨[], after⟩ := rfl

@[simp] theorem logBackward_previous_cons (w : WalRecord) (before : List WalRecord) :
    logBackward.previous ⟨w :: before, after⟩ =
      .ok (some (AnnotatedWalRecord.new w)) ⟨before, w :: after⟩ := rfl

theorem walk_log_nil :
    walkBackwards logBackward visit s ⟨[], after⟩ =
      match visit s none with
      | none => .panic
      | some p => .ok p ⟨[], after⟩ := by
  rw [walkBackwards_eq, logBackward_previous_nil, Outcome.ok_bind]
  rcases visit s none with _ | ⟨s', _ | t⟩ <;> rfl

theorem walk_log_cons (w : WalRecord) (before : List WalRecord) :
    walkBackwards logBackward visit s ⟨w :: before, after⟩ =
      match visit s (some (AnnotatedWalRecord.new w)) with
      | none => .panic
      | some (s', some t) => .ok (s', some t) ⟨before, w :: after⟩
      | some (s', none) => walkBackwards logBackward visit s' ⟨before, w :: after⟩ := by
  rw [walkBackwards_eq, logBackward_previous_cons, Outcome.ok_bind]
  rfl

/-- A walk over the log view moves only the cursor. -/
theorem walk_log_records {u v : LogView} {p : σ × Option T}
    (h : walkBackwards logBackward visit s u = .ok p v) : v.records = u.records := by
  obtain ⟨before, after⟩ := u
  induction before generalizing s after with
  | nil =>
    rw [walk_log_nil] at h
    split at h <;> cases h
    rfl
  | cons w before ih =>
    rw [walk_log_cons] at h
    split at h
    · cases h
    · cases h; simp [LogView.records]
    · rw [ih _ _ h]; simp [LogView.records]

end Walk

/-! ## What the guards and the scans read -/

/-- The id of the last checkpoint in file order, or 0. -/
def lastCheckpointId (log : List WalRecord) : UInt32 := (checkpointIds log).getLast?.getD 0

/-- The id of the last label set in file order, or 0. -/
def lastLabelSetId (log : List WalRecord) : UInt32 := (labelSetIds log).getLast?.getD 0

theorem headD_checkpointIds_reverse (log : List WalRecord) :
    (checkpointIds log.reverse).headD 0 = lastCheckpointId log := by
  rw [checkpointIds, List.filterMap_reverse, List.headD_eq_head?_getD, List.head?_reverse]; rfl

theorem headD_labelSetIds_reverse (log : List WalRecord) :
    (labelSetIds log.reverse).headD 0 = lastLabelSetId log := by
  rw [labelSetIds, List.filterMap_reverse, List.headD_eq_head?_getD, List.head?_reverse]; rfl

section Scans

variable (after : List WalRecord)

theorem walk_lastCheckpoint {before : List WalRecord} (hb : ∀ w ∈ before, Built w) :
    ∃ v, walkBackwards logBackward lastCheckpointVisitor () ⟨before, after⟩ =
      .ok ((), some ((checkpointIds before).headD 0)) v := by
  induction before generalizing after with
  | nil => exact ⟨_, walk_log_nil ..⟩
  | cons w before ih =>
    rw [walk_log_cons]
    simp only [lastCheckpointVisitor, record_new_of_built (hb w (by simp)), Option.map_some']
    cases w with
    | checkpoint r => exact ⟨_, rfl⟩
    | labelSet r => exact ih _ fun w hw => hb w (by simp [hw])

/-- `get_last_checkpoint` over the log view: the newest checkpoint before the cursor, or 0. -/
theorem getLastCheckpoint_log {before : List WalRecord} (hb : ∀ w ∈ before, Built w) :
    ∃ v, getLastCheckpoint logBackward ⟨before, after⟩ = .ok ((checkpointIds before).headD 0) v ∧
      v.records = (⟨before, after⟩ : LogView).records := by
  obtain ⟨v, hw⟩ := walk_lastCheckpoint after hb
  exact ⟨v, by rw [getLastCheckpoint, hw]; rfl, walk_log_records _ _ hw⟩

theorem walk_lastId {before : List WalRecord} (hb : ∀ w ∈ before, Built w) :
    ∃ v, walkBackwards logBackward lastIdVisitor () ⟨before, after⟩ =
      .ok ((), (labelSetIds before).head?) v ∧ ((labelSetIds before).head? = none → v.before = []) := by
  induction before generalizing after with
  | nil => exact ⟨_, walk_log_nil .., fun _ => rfl⟩
  | cons w before ih =>
    rw [walk_log_cons]
    simp only [lastIdVisitor, record_new_of_built (hb w (by simp)), Option.map_some']
    cases w with
    | labelSet r => exact ⟨_, rfl, fun h => by simp [labelSetIds, WalRecord.labelSetId?] at h⟩
    | checkpoint r => exact ih _ fun w hw => hb w (by simp [hw])

/-- `get_last_id` over the log view: the newest label set's id before the cursor, or 0; the
fallback to `get_last_checkpoint` starts where the walk ended, at offset 0, and finds nothing. -/
theorem getLastId_log_view {before : List WalRecord} (hb : ∀ w ∈ before, Built w) :
    ∃ v, getLastId logBackward ⟨before, after⟩ = .ok ((labelSetIds before).headD 0) v ∧
      v.records = (⟨before, after⟩ : LogView).records := by
  obtain ⟨⟨vb, va⟩, hw, hnone⟩ := walk_lastId after hb
  have hr := walk_log_records _ _ hw
  rw [getLastId, hw, Outcome.ok_bind]
  cases hh : (labelSetIds before).head? with
  | none =>
    obtain rfl : vb = [] := hnone hh
    obtain ⟨v, hv, hvr⟩ := getLastCheckpoint_log va
      (by simp : ∀ w ∈ ([] : List WalRecord), Built w)
    refine ⟨v, ?_, hvr.trans hr⟩
    simp only [hv, List.headD_eq_head?_getD, hh]
    rfl
  | some id =>
    exact ⟨_, by rw [List.headD_eq_head?_getD, hh]; rfl, hr⟩

theorem foldl_checkpoint {W : Type} {collect : UInt32 → ScanState W → LabelSetEntry → ScanState W}
    (hc : ∀ id s e, (collect id s e).checkpoint = s.checkpoint) (id : UInt32)
    (es : List LabelSetEntry) (s : ScanState W) : (es.foldl (collect id) s).checkpoint = s.checkpoint := by
  induction es generalizing s with
  | nil => rfl
  | cons e es ih => rw [List.foldl_cons, ih, hc]

/-- The value the label scans' walk stops with over the log view: the checkpoint the visitor
holds, or else the newest checkpoint before the cursor, or 0. -/
theorem walk_scan {W : Type} {collect : UInt32 → ScanState W → LabelSetEntry → ScanState W}
    (hc : ∀ id s e, (collect id s e).checkpoint = s.checkpoint) {before : List WalRecord}
    (hb : ∀ w ∈ before, Built w) (s : ScanState W) :
    ∃ s' v, walkBackwards logBackward (recoveryVisitor collect) s ⟨before, after⟩ =
      .ok (s', some (s.checkpoint.getD ((checkpointIds before).headD 0))) v := by
  induction before generalizing s after with
  | nil => exact ⟨s, _, by rw [walk_log_nil]; rfl⟩
  | cons w before ih =>
    rw [walk_log_cons]
    have hw := record_new_of_built (hb w (by simp))
    have hb' : ∀ w ∈ before, Built w := fun w hw => hb w (by simp [hw])
    cases w with
    | checkpoint r =>
      simp only [recoveryVisitor, hw]
      obtain ⟨s', v, h⟩ := ih _ hb' { s with checkpoint := match s.checkpoint with
        | none => some r.identifier
        | some c => some c }
      refine ⟨s', v, h.trans ?_⟩
      cases s.checkpoint <;> rfl
    | labelSet r =>
      simp only [recoveryVisitor, hw]
      split_ifs with heq
      · exact ⟨s, _, by rw [← heq]; rfl⟩
      · obtain ⟨es, hes⟩ := entries_of_built (hb (.labelSet r) (by simp))
        obtain ⟨s', v, h⟩ := ih _ hb' (es.foldl (collect r.identifier) s)
        refine ⟨s', v, ?_⟩
        rw [hes]
        show walkBackwards logBackward (recoveryVisitor collect) _ _ = _
        rw [h, foldl_checkpoint hc]
        rfl

end Scans

/-! ## The label scans return the empty map -/

theorem collectNew_checkpoint (id : UInt32) (s : ScanState Unit) (e : LabelSetEntry) :
    (collectNew id s e).checkpoint = s.checkpoint := by
  unfold collectNew; split_ifs <;> rfl

/-- Under the reverse-scan contract, over every log of records the writer built,
`get_all_labels_since_last_checkpoint` returns the id of the last checkpoint in file order (0 if
there is none) and the empty map: the map it returns is the clone taken before the walk. -/
theorem getAllLabels_log (log : List WalRecord) (hlog : ∀ w ∈ log, Built w) :
    ∃ v, getAllLabelsSinceLastCheckpoint logBackward (LogView.atEnd log) =
      .ok ((fun _ => none), lastCheckpointId log) v := by
  obtain ⟨s', v, h⟩ := walk_scan [] collectNew_checkpoint
    (fun w (hw : w ∈ log.reverse) => hlog w (List.mem_reverse.1 hw)) ⟨none, fun _ => none, ()⟩
  refine ⟨v, ?_⟩
  rw [getAllLabelsSinceLastCheckpoint, scanSinceLastCheckpoint, LogView.atEnd, h,
    ← headD_checkpointIds_reverse]
  rfl

/-- The log of one label set binding the label `x` to the zero layer under id 1. -/
theorem getAllLabels_log_one_label :
    (∀ w ∈ [WalRecord.labelSet ⟨[1, 1, 120] ++ layerBytes (0, 0, 0, 0, 0) ++ writeU32 1⟩], Built w) ∧
      ∃ v, getAllLabelsSinceLastCheckpoint logBackward
          (LogView.atEnd [.labelSet ⟨[1, 1, 120] ++ layerBytes (0, 0, 0, 0, 0) ++ writeU32 1⟩]) =
        .ok ((fun _ => none),
          lastCheckpointId [.labelSet ⟨[1, 1, 120] ++ layerBytes (0, 0, 0, 0, 0) ++ writeU32 1⟩]) v :=
  have hb : ∀ w ∈ [WalRecord.labelSet ⟨[1, 1, 120] ++ layerBytes (0, 0, 0, 0, 0) ++ writeU32 1⟩],
      Built w := by
    simp only [List.mem_singleton, forall_eq]
    exact ⟨.labelSet 1 [(⟨[120], rfl⟩, (0, 0, 0, 0, 0))], rfl⟩
  ⟨hb, getAllLabels_log _ hb⟩

/-! ## The order the guards keep -/

/-- The logs the writer's guards admit, call after call, from the empty WAL; every call is made
with the cursor at the end of the file. -/
inductive FromEmpty : List WalRecord → Prop
  | empty : FromEmpty []
  | labelSet {log : List WalRecord} {id : UInt32} {labels : List (Str × Layer)} {b : Bool}
      {v : LogView} : FromEmpty log →
      appendLabelset logBackward LogView.write (.atEnd log) id labels = .ok b v →
      FromEmpty v.records
  | checkpoint {log : List WalRecord} {c : UInt32} {b : Bool} {v : LogView} : FromEmpty log →
      appendCheckpoint logBackward LogView.write (.atEnd log) c = .ok b v → FromEmpty v.records

/-- What `append_labelset` does from the end of the log view: it adds the record it builds when
the id follows the last label set's id (0 if there is none), and otherwise leaves the log. -/
theorem appendLabelset_log {log : List WalRecord} (hlog : ∀ w ∈ log, Built w) {id : UInt32}
    {labels : List (Str × Layer)} {b : Bool} {v : LogView}
    (h : appendLabelset logBackward LogView.write (.atEnd log) id labels = .ok b v) :
    (id.toNat = (lastLabelSetId log).toNat + 1 ∧ ∃ w, (LogRecord.labelSet id labels).toWalRecord = some w ∧
      v.records = log ++ [w]) ∨ v.records = log := by
  obtain ⟨v₀, hv₀, hr₀⟩ := getLastId_log_view []
    (fun w (hw : w ∈ log.reverse) => hlog w (List.mem_reverse.1 hw))
  rw [appendLabelset, LogView.atEnd, hv₀, headD_labelSetIds_reverse] at h
  simp only at h
  split_ifs at h with hmax hid
  · split at h
    · rename_i w hw
      cases h
      refine .inl ⟨hid ▸ toNat_add_one_of_ne hmax, w, hw, ?_⟩
      simp only [LogView.write, LogView.records_atEnd]
      rw [hr₀]
      simp [LogView.records]
    · cases h
  · cases h
    exact .inr (hr₀.trans (by simp [LogView.records]))

/-- What `append_checkpoint` does from the end of the log view: it adds the checkpoint when its
id exceeds the last checkpoint's (0 if there is none), and otherwise leaves the log. -/
theorem appendCheckpoint_log {log : List WalRecord} (hlog : ∀ w ∈ log, Built w) {c : UInt32}
    {b : Bool} {v : LogView}
    (h : appendCheckpoint logBackward LogView.write (.atEnd log) c = .ok b v) :
    (lastCheckpointId log < c ∧ v.records = log ++ [.checkpoint (CheckpointRecord.new c)]) ∨
      v.records = log := by
  obtain ⟨v₀, hv₀, hr₀⟩ := getLastCheckpoint_log []
    (fun w (hw : w ∈ log.reverse) => hlog w (List.mem_reverse.1 hw))
  rw [appendCheckpoint, LogView.atEnd, hv₀, headD_checkpointIds_reverse] at h
  simp only at h
  split_ifs at h with hc
  · cases h
    refine .inl ⟨hc, ?_⟩
    simp only [LogView.write, LogView.records_atEnd]
    rw [hr₀]
    simp [LogView.records]
  · cases h
    exact .inr (hr₀.trans (by simp [LogView.records]))

theorem fromEmpty_built {log : List WalRecord} (h : FromEmpty log) : ∀ w ∈ log, Built w := by
  induction h with
  | empty => simp
  | labelSet _ happ ih =>
    rcases appendLabelset_log ih happ with ⟨-, w, hw, hr⟩ | hr <;> rw [hr]
    · simpa [or_imp, forall_and] using ⟨ih, ⟨_, hw⟩⟩
    · exact ih
  | checkpoint _ happ ih =>
    rcases appendCheckpoint_log ih happ with ⟨-, hr⟩ | hr <;> rw [hr]
    · simpa [or_imp, forall_and] using ⟨ih, ⟨.checkpoint _, rfl⟩⟩
    · exact ih

/-- The order the guards keep: checkpoint ids rise strictly from above 0, and the label set ids
are 1, 2, 3, ... -/
def IdOrder (log : List WalRecord) : Prop :=
  List.Chain' (· < ·) (0 :: checkpointIds log) ∧
    (labelSetIds log).map UInt32.toNat = List.range' 1 (labelSetIds log).length

theorem lastLabelSetId_of_idOrder {log : List WalRecord} (h : IdOrder log) :
    (lastLabelSetId log).toNat = (labelSetIds log).length := by
  have hlast := congrArg List.getLast? h.2
  rw [List.getLast?_map] at hlast
  rw [lastLabelSetId]
  cases hn : (labelSetIds log).length with
  | zero => simp [List.length_eq_zero.1 hn]
  | succ k =>
    rw [hn, List.range'_concat, List.getLast?_append, List.getLast?_singleton] at hlast
    obtain ⟨x, hx, hxk⟩ := Option.map_eq_some'.1 hlast
    rw [hx, Option.getD_some, hxk]
    omega

theorem idOrder_labelSet {log : List WalRecord} (h : IdOrder log) {id : UInt32}
    {labels : List (Str × Layer)} {w : WalRecord} (hid : id.toNat = (lastLabelSetId log).toNat + 1)
    (hw : (LogRecord.labelSet id labels).toWalRecord = some w) : IdOrder (log ++ [w]) := by
  obtain ⟨es, ls, -, hls, rfl⟩ := LogRecord.toWalRecord_labelSet hw
  have hids : labelSetIds [.labelSet ls] = [id] := by
    simp [labelSetIds, WalRecord.labelSetId?, LabelSetRecord.identifier_new hls]
  refine ⟨by simpa [checkpointIds, WalRecord.checkpointId?] using h.1, ?_⟩
  rw [labelSetIds_append, hids, List.map_append, h.2, List.length_append, List.length_singleton,
    List.range'_concat, List.map_singleton, hid, lastLabelSetId_of_idOrder h]
  simp [Nat.add_comm]

theorem idOrder_checkpoint {log : List WalRecord} (h : IdOrder log) {c : UInt32}
    (hc : lastCheckpointId log < c) : IdOrder (log ++ [.checkpoint (CheckpointRecord.new c)]) := by
  have hids : checkpointIds [.checkpoint (CheckpointRecord.new c)] = [c] := by
    simp [checkpointIds, WalRecord.checkpointId?, CheckpointRecord.identifier,
      CheckpointRecord.new]
  refine ⟨?_, by simpa [labelSetIds, WalRecord.labelSetId?] using h.2⟩
  rw [checkpointIds_append, hids, ← List.cons_append]
  refine List.chain'_append.2 ⟨h.1, List.chain'_singleton _, ?_⟩
  simp only [List.getLast?_cons, Option.mem_def, Option.some.injEq, List.head?_cons]
  rintro x rfl y rfl
  exact hc

/-- Every log the guards admit from the empty WAL keeps the order. -/
theorem fromEmpty_idOrder {log : List WalRecord} (h : FromEmpty log) : IdOrder log := by
  induction h with
  | empty => exact ⟨List.chain'_singleton _, rfl⟩
  | labelSet hfe happ ih =>
    rcases appendLabelset_log (fromEmpty_built hfe) happ with ⟨hid, w, hw, hr⟩ | hr <;> rw [hr]
    · exact idOrder_labelSet ih hid hw
    · exact ih
  | checkpoint hfe happ ih =>
    rcases appendCheckpoint_log (fromEmpty_built hfe) happ with ⟨hc, hr⟩ | hr <;> rw [hr]
    · exact idOrder_checkpoint ih hc
    · exact ih

/-- The label set 1, the checkpoint 5 and the label set 2, each without labels: the guards admit
them in this order from the empty WAL. -/
theorem fromEmpty_one_five_two :
    FromEmpty [.labelSet ⟨0 :: writeU32 1⟩, .checkpoint (CheckpointRecord.new 5),
      .labelSet ⟨0 :: writeU32 2⟩] := by
  have h₁ : appendLabelset logBackward LogView.write (.atEnd []) 1 [] =
      .ok true (.atEnd [.labelSet ⟨0 :: writeU32 1⟩]) := rfl
  have h₂ : appendCheckpoint logBackward LogView.write (.atEnd [.labelSet ⟨0 :: writeU32 1⟩]) 5 =
      .ok true (.atEnd [.labelSet ⟨0 :: writeU32 1⟩, .checkpoint (CheckpointRecord.new 5)]) := rfl
  have h₃ : appendLabelset logBackward LogView.write
      (.atEnd [.labelSet ⟨0 :: writeU32 1⟩, .checkpoint (CheckpointRecord.new 5)]) 2 [] =
      .ok true (.atEnd [.labelSet ⟨0 :: writeU32 1⟩, .checkpoint (CheckpointRecord.new 5),
        .labelSet ⟨0 :: writeU32 2⟩]) := rfl
  exact .labelSet (.checkpoint (.labelSet .empty h₁) h₂) h₃

/-- The two orders within each kind of id, and across them: label set ids and checkpoint ids
rise strictly in file order, and every label set's id is above the id of every checkpoint before
it. -/
def ClaimedIdOrder (log : List WalRecord) : Prop :=
  (labelSetIds log).Pairwise (· < ·) ∧ (checkpointIds log).Pairwise (· < ·) ∧
    ∀ pre r post, log = pre ++ WalRecord.checkpoint r :: post →
      ∀ id ∈ labelSetIds post, r.identifier < id

/-- `get_last_id` on a WAL cleaned down to its checkpoints, a log of built records without a
label set. The walk finds no label set. The fallback `get_last_checkpoint` starts from the handle
the walk returned, at offset 0, and finds no checkpoint either. So the guard reads 0 whatever
checkpoints the log holds, and `append_labelset(1)` adds its record after them. -/
theorem appendLabelset_checkpoints_only (log : List WalRecord) (hlog : ∀ w ∈ log, Built w)
    (hno : labelSetIds log = []) (labels : List (Str × Layer)) {w : WalRecord}
    (hw : (LogRecord.labelSet 1 labels).toWalRecord = some w) :
    (∃ v, getLastId logBackward (.atEnd log) = .ok 0 v ∧ v.records = log) ∧
      ∃ v, appendLabelset logBackward LogView.write (.atEnd log) 1 labels = .ok true v ∧
        v.records = log ++ [w] := by
  obtain ⟨v₀, hv₀, hr₀⟩ := getLastId_log_view []
    (fun w (hw : w ∈ log.reverse) => hlog w (List.mem_reverse.1 hw))
  rw [headD_labelSetIds_reverse, lastLabelSetId, hno] at hv₀
  have hr : v₀.records = log := hr₀.trans (by simp [LogView.records])
  refine ⟨⟨v₀, hv₀, hr⟩, LogView.write v₀ w, ?_, by simp [LogView.write, hr]⟩
  rw [appendLabelset, LogView.atEnd, hv₀]
  simp only [hw]
  rfl

/-- The WAL holding only the checkpoint 5: `get_last_id` reads 0, not 5, and `append_labelset(1)`
adds the label set 1 after the checkpoint 5. -/
theorem appendLabelset_checkpoints_only_five :
    lastCheckpointId [.checkpoint (CheckpointRecord.new 5)] = 5 ∧
      (∃ v, getLastId logBackward (.atEnd [.checkpoint (CheckpointRecord.new 5)]) = .ok 0 v ∧
        v.records = [.checkpoint (CheckpointRecord.new 5)]) ∧
      ∃ v, appendLabelset logBackward LogView.write (.atEnd [.checkpoint (CheckpointRecord.new 5)])
          1 [] = .ok true v ∧
        v.records = [.checkpoint (CheckpointRecord.new 5), .labelSet ⟨0 :: writeU32 1⟩] :=
  ⟨rfl, appendLabelset_checkpoints_only [.checkpoint (CheckpointRecord.new 5)]
    (by simp only [List.mem_singleton, forall_eq]; exact ⟨.checkpoint 5, rfl⟩) rfl [] rfl⟩

end TerminusStore.Wal
