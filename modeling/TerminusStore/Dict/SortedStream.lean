import Mathlib.Data.List.Sort

/-!
# The k-way merge

Reference: `sorted_stream` (`structure/util.rs`), modelled from the spec, and
`Iterator::min_by_key`, as `merge_dictionary_stack` in `src/structure/mapped_dict.rs` uses them.

`sorted_stream` peeks at the head of every stream, hands the heads to a pick function and takes
the head of the stream it names, until it names none. The model runs on lists, with as much
fuel as the streams hold items.

`PicksLeast` says what the merge's pick does: it names a stream whose head no other head is
below, and names none only when every stream is empty. Under it, `sortedLoop_perm` and
`sortedLoop_sorted` say that the merge emits each item of the streams once, and, when every
stream is sorted, in order.
-/

namespace TerminusStore.Dict

/-- `Iterator::min_by_key`: the first element of least key. -/
def minByKey {β γ : Type} [LinearOrder γ] (key : β → γ) : List β → Option β
  | [] => none
  | x :: xs => some (xs.foldl (fun m y => if key y < key m then y else m) x)

/-- Modelled from the spec: `sorted_stream(streams, pick)`, the k-way merge that takes the head
of the stream `pick` names until it names none; `fuel` bounds the items it takes. -/
def sortedLoop {β : Type} (pick : List (Option β) → Option ℕ) : ℕ → List (List β) → List β
  | 0, _ => []
  | fuel + 1, streams =>
    match pick (streams.map List.head?) with
    | none => []
    | some i =>
      match streams[i]? with
      | some (x :: rest) => x :: sortedLoop pick fuel (streams.set i rest)
      | _ => []

/-- `sorted_stream(streams, pick)`, with as much fuel as the streams hold items. -/
def sortedStream {β : Type} (streams : List (List β)) (pick : List (Option β) → Option ℕ) :
    List β :=
  sortedLoop pick streams.flatten.length streams

/-! ## `min_by_key` -/

section MinByKey

variable {β γ : Type} [LinearOrder γ] (key : β → γ)

theorem foldl_min_mem (xs : List β) (x : β) :
    xs.foldl (fun m y => if key y < key m then y else m) x ∈ x :: xs := by
  induction xs generalizing x with
  | nil => exact List.mem_singleton_self x
  | cons z zs ih =>
    rw [List.foldl_cons]
    rcases List.mem_cons.1 (ih _) with h | h
    · rw [h]
      split_ifs
      · exact List.mem_cons_of_mem _ (List.mem_cons_self _ _)
      · exact List.mem_cons_self _ _
    · exact List.mem_cons_of_mem _ (List.mem_cons_of_mem _ h)

theorem foldl_min_le (xs : List β) (x : β) :
    ∀ y ∈ x :: xs, key (xs.foldl (fun m y => if key y < key m then y else m) x) ≤ key y := by
  induction xs generalizing x with
  | nil => simp
  | cons z zs ih =>
    rw [List.foldl_cons]
    have hle := ih (if key z < key x then z else x)
    have hx : key (if key z < key x then z else x) ≤ key x := by
      split_ifs with h
      exacts [h.le, le_rfl]
    have hz : key (if key z < key x then z else x) ≤ key z := by
      split_ifs with h
      exacts [le_rfl, not_lt.1 h]
    obtain ⟨hm, hrest⟩ := List.forall_mem_cons.1 hle
    exact List.forall_mem_cons.2 ⟨hm.trans hx, List.forall_mem_cons.2 ⟨hm.trans hz, hrest⟩⟩

/-- What `min_by_key` returns is an element of least key. -/
theorem minByKey_spec {l : List β} {m : β} (h : minByKey key l = some m) :
    m ∈ l ∧ ∀ y ∈ l, key m ≤ key y := by
  cases l with
  | nil => cases h
  | cons x xs =>
    cases h
    exact ⟨foldl_min_mem key xs x, foldl_min_le key xs x⟩

theorem minByKey_eq_none {l : List β} : minByKey key l = none ↔ l = [] := by
  cases l <;> simp [minByKey]

theorem foldl_min_first (xs : List β) (x : β) :
    ∃ pre post, x :: xs = pre ++ xs.foldl (fun m y => if key y < key m then y else m) x :: post ∧
      ∀ y ∈ pre, key (xs.foldl (fun m y => if key y < key m then y else m) x) < key y := by
  induction xs generalizing x with
  | nil => exact ⟨[], [], rfl, by simp⟩
  | cons z zs ih =>
    rw [List.foldl_cons]
    obtain ⟨pre, post, hsplit, hlt⟩ := ih (if key z < key x then z else x)
    have hle := foldl_min_le key zs (if key z < key x then z else x)
    split_ifs at hsplit hlt hle ⊢ with hzx
    · exact ⟨x :: pre, post, by rw [List.cons_append, ← hsplit],
        List.forall_mem_cons.2 ⟨(hle z (List.mem_cons_self _ _)).trans_lt hzx, hlt⟩⟩
    · cases pre with
      | nil =>
        obtain ⟨hm, rfl⟩ := List.cons.inj hsplit
        exact ⟨[], z :: zs, by rw [← hm]; rfl, by simp⟩
      | cons p pre =>
        obtain ⟨rfl, hzs⟩ := List.cons.inj hsplit
        obtain ⟨hmx, hpre⟩ := List.forall_mem_cons.1 hlt
        exact ⟨x :: z :: pre, post, congrArg (x :: z :: ·) hzs,
          List.forall_mem_cons.2 ⟨hmx, List.forall_mem_cons.2 ⟨hmx.trans_le (not_lt.1 hzx), hpre⟩⟩⟩

/-- `min_by_key` keeps the first of several least elements: every element before the one it
returns has a greater key. -/
theorem minByKey_first {l : List β} {m : β} (h : minByKey key l = some m) :
    ∃ pre post, l = pre ++ m :: post ∧ ∀ y ∈ pre, key m < key y := by
  cases l with
  | nil => cases h
  | cons x xs =>
    cases h
    exact foldl_min_first key xs x

end MinByKey

/-! ## The merge loop -/

section Loop

variable {β γ : Type} [LinearOrder γ] (key : β → γ)

/-- What the merge's pick does with the streams' heads: it names a head that no other head is
below, and names none only when there is no head. -/
def PicksLeast (pick : List (Option β) → Option ℕ) : Prop :=
  ∀ heads : List (Option β), (pick heads = none → ∀ o ∈ heads, o = none) ∧
    ∀ i, pick heads = some i → ∃ x, heads[i]? = some (some x) ∧ ∀ o ∈ heads, ∀ y ∈ o, key x ≤ key y

/-- Taking the head of one stream: the items of all streams are that head and the items left. -/
theorem flatten_perm_set {L : List (List β)} {i : ℕ} {x : β} {rest : List β}
    (h : L[i]? = some (x :: rest)) : L.flatten.Perm (x :: (L.set i rest).flatten) := by
  induction L generalizing i with
  | nil => simp at h
  | cons s L ih =>
    cases i with
    | zero =>
      obtain rfl : s = x :: rest := by simpa using h
      simp
    | succ i =>
      simp only [List.getElem?_cons_succ] at h
      simpa using (List.Perm.append_left s (ih h)).trans List.perm_middle

variable {key} {pick : List (Option β) → Option ℕ}

/-- One step of the merge: it stops when the streams are empty, and otherwise takes the head of a
stream, a head below every other head. -/
theorem sortedLoop_succ_cases (hpick : PicksLeast key pick) (fuel : ℕ) (streams : List (List β)) :
    (streams.flatten = [] ∧ sortedLoop pick (fuel + 1) streams = []) ∨
      ∃ i x rest, streams[i]? = some (x :: rest) ∧
        (∀ s ∈ streams, ∀ y ∈ s.head?, key x ≤ key y) ∧
        sortedLoop pick (fuel + 1) streams = x :: sortedLoop pick fuel (streams.set i rest) := by
  obtain ⟨hnone, hsome⟩ := hpick (streams.map List.head?)
  rw [sortedLoop]
  cases hp : pick (streams.map List.head?) with
  | none =>
    refine .inl ⟨List.flatten_eq_nil_iff.2 fun s hs => ?_, rfl⟩
    simpa using hnone hp _ (List.mem_map_of_mem _ hs)
  | some i =>
    obtain ⟨x, hx, hmin⟩ := hsome i hp
    rw [List.getElem?_map, Option.map_eq_some'] at hx
    obtain ⟨s, hs, hsx⟩ := hx
    obtain ⟨rest, rfl⟩ : ∃ rest, s = x :: rest := by
      cases s with
      | nil => cases hsx
      | cons y rest => exact ⟨rest, by simpa using hsx⟩
    refine .inr ⟨i, x, rest, hs, fun s hm => hmin _ (List.mem_map_of_mem _ hm), ?_⟩
    simp only [hs]

/-- With enough fuel the merge emits every item of the streams, each once. -/
theorem sortedLoop_perm (hpick : PicksLeast key pick) (fuel : ℕ) (streams : List (List β))
    (h : streams.flatten.length ≤ fuel) : (sortedLoop pick fuel streams).Perm streams.flatten := by
  induction fuel generalizing streams with
  | zero => rw [List.length_eq_zero.1 (Nat.le_zero.1 h)]; rfl
  | succ fuel ih =>
    rcases sortedLoop_succ_cases hpick fuel streams with ⟨hnil, hl⟩ | ⟨i, x, rest, hi, -, hl⟩
    · rw [hl, hnil]
    · have hp := flatten_perm_set hi
      have hlen := hp.length_eq
      rw [List.length_cons] at hlen
      rw [hl]
      exact ((ih _ (by omega)).cons x).trans hp.symm

/-- The merge only emits items of the streams. -/
theorem mem_sortedLoop (hpick : PicksLeast key pick) {fuel : ℕ} {streams : List (List β)} {y : β}
    (h : y ∈ sortedLoop pick fuel streams) : y ∈ streams.flatten := by
  induction fuel generalizing streams with
  | zero => cases h
  | succ fuel ih =>
    rcases sortedLoop_succ_cases hpick fuel streams with ⟨-, hl⟩ | ⟨i, x, rest, hi, -, hl⟩
    · rw [hl] at h
      cases h
    · rw [hl] at h
      exact (flatten_perm_set hi).symm.subset (List.mem_cons.2 ((List.mem_cons.1 h).imp_right ih))

/-- A head below every head of sorted streams is below every item of them. -/
theorem le_of_mem_sorted {streams : List (List β)} {x : β}
    (hmin : ∀ s ∈ streams, ∀ y ∈ s.head?, key x ≤ key y)
    (hs : ∀ s ∈ streams, s.Sorted fun a b => key a ≤ key b) {y : β} (hy : y ∈ streams.flatten) :
    key x ≤ key y := by
  obtain ⟨s, hsm, hys⟩ := List.mem_flatten.1 hy
  obtain ⟨h, t, rfl⟩ := List.exists_cons_of_ne_nil (List.ne_nil_of_mem hys)
  have hxh : key x ≤ key h := hmin _ hsm h rfl
  rcases List.mem_cons.1 hys with rfl | hyt
  · exact hxh
  · exact hxh.trans ((List.sorted_cons.1 (hs _ hsm)).1 y hyt)

/-- Over sorted streams the merge emits its items in order. -/
theorem sortedLoop_sorted (hpick : PicksLeast key pick) (fuel : ℕ) (streams : List (List β))
    (hs : ∀ s ∈ streams, s.Sorted fun a b => key a ≤ key b) :
    (sortedLoop pick fuel streams).Sorted fun a b => key a ≤ key b := by
  induction fuel generalizing streams with
  | zero => exact List.sorted_nil
  | succ fuel ih =>
    rcases sortedLoop_succ_cases hpick fuel streams with ⟨-, hl⟩ | ⟨i, x, rest, hi, hmin, hl⟩
    · rw [hl]
      exact List.sorted_nil
    · have hrest : rest.Sorted fun a b => key a ≤ key b :=
        (List.sorted_cons.1 (hs _ (List.getElem?_mem hi))).2
      have hs' : ∀ s ∈ streams.set i rest, s.Sorted fun a b => key a ≤ key b := fun s hm =>
        (List.mem_or_eq_of_mem_set hm).elim (hs s) (fun e => e ▸ hrest)
      rw [hl]
      refine List.sorted_cons.2 ⟨fun y hy => le_of_mem_sorted hmin hs ?_, ih _ hs'⟩
      exact (flatten_perm_set hi).symm.subset (List.mem_cons_of_mem _ (mem_sortedLoop hpick hy))

end Loop

end TerminusStore.Dict
