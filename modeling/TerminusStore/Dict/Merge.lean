import TerminusStore.Dict.Mapped
import TerminusStore.Dict.SortedStream
import TerminusStore.Dict.Width
import Mathlib.Algebra.Order.Ring.Nat

/-!
# Merging a stack of dictionaries

Reference: `src/structure/mapped_dict.rs`, `merge_dictionary_stack`.

The merge numbers each input's strings in the external id space of the result: an input
without a wavelet tree gives its strings consecutive ids from the sum of the counts before it,
and an input with one gives them the ids its tree decodes to, not shifted. A k-way merge on the
strings, `sorted_stream` with a pick that takes the first least head, gives the result's local
order; the strings go to the dictionary builder in that order, and their ids, in the same order,
into a new wavelet tree. The builders are outside the source and are modelled from the spec.

Both widths are `(n as f32).log2().ceil() as u8` (`log2Ceil`, in `TerminusStore.Dict.Width`). The
merge builds its tree with the width of the largest id plus one; over a stack whose ids are a
permutation of `0, ..., n - 1` that is the width of `n` (`log2Ceil_max_succ`).

Take a stack whose inputs hold sorted, pairwise disjoint strings and in which only the first
input carries a tree, one that decodes to a permutation. The merge adds the strings to the
builder in strictly increasing order, and writes their ids, each kept to the width, into the new
tree (`mergeDictionaryStack_items`). The outcome turns on whether that width holds the ids.
- When the total count `n` is at most `2 ^ log2Ceil n`, as every count up to `2 ^ 21` is, the
  new tree reads back with width `log2Ceil len` to a permutation of `0, ..., len - 1`. So the
  result is again a first input of a later merge, and the mapped dictionary finds every string
  at the external id it had before (`mergeDictionaryStack_preserves_ids`).
- When `2 ^ log2Ceil n < n`, as at `2 ^ 24 + 1`, the id `2 ^ w` of width `w` is stored as 0. The
  mapped dictionary then panics on `get(2 ^ w)` and gives the string at `2 ^ w` the id 0
  (`mergeDictionaryStack_wraps_ids`).

Two more facts of the code. The pick breaks ties by stream order (`pickLeast_first`), as the
spec says. And the merge drops no equal strings: the builder receives every input string,
duplicates included (`mergeDictionaryStack_keeps_duplicates`), where the spec says duplicates
collapse to one entry.
-/

namespace TerminusStore.Dict

section Streams

variable {α : Type}

/-- Modelled from the spec: a dictionary builder as the strings added so far. -/
structure PfcDictFileBuilder (α : Type) where
  added : List α

/-- Modelled from the spec: `PfcDictFileBuilder::add`. -/
def PfcDictFileBuilder.add (builder : PfcDictFileBuilder α) (s : α) : PfcDictFileBuilder α :=
  ⟨builder.added ++ [s]⟩

/-- Modelled from the spec: `PfcDictFileBuilder::finalize`, the dictionary of the strings added. -/
def PfcDictFileBuilder.finalize (builder : PfcDictFileBuilder α) : PfcDict α := ⟨builder.added⟩

/-- One step of the merge's fold: `indexes.push(ix)` and `builder.add(&s)`. -/
def addItem (acc : PfcDictFileBuilder α × List ℕ) (item : ℕ × α) :
    PfcDictFileBuilder α × List ℕ :=
  (acc.1.add item.2, acc.2 ++ [item.1])

/-- The external ids of an input's strings in local order: `offset, offset + 1, ...` without a
wavelet tree; with one, the tree's `decode()`, read with the width the input's count gives. -/
def idStream (offset : ℕ) (dict : PfcDict α) : Option WaveletFiles → Option (List ℕ)
  | none => some (List.range' offset dict.len)
  | some remap => (WaveletTree.fromParts remap (log2Ceil dict.len)).map WaveletTree.decode

/-- One input's stream of (external id, string) pairs: `count_stream.zip(dict_stream)`. -/
def inputStream (offset : ℕ) (dict : PfcDict α) (remap : Option WaveletFiles) :
    Option (List (ℕ × α)) :=
  (idStream offset dict remap).map (·.zip dict.strings)

/-- The external order of a stack in the words of the spec: the first input's strings ordered by
their external ids `ids`, then the strings of the other inputs in order. -/
def externalOrder (ids : List ℕ) (dict : PfcDict α)
    (rest : List (PfcDict α × Option WaveletFiles)) : List α :=
  ((ids.zip dict.strings).mergeSort fun a b => a.1 ≤ b.1).map Prod.snd ++
    (rest.map fun input => input.1.strings).flatten

end Streams

section Merge

variable {α : Type} [LinearOrder α]

/-- The merge's pick over the heads of its streams: `enumerate`, keep the heads that are there,
`min_by_key` on the string, and its index. -/
def pickLeast (heads : List (Option (ℕ × α))) : Option ℕ :=
  (minByKey (fun p : ℕ × ℕ × α => p.2.2)
    (heads.enum.filterMap fun p => p.2.map (p.1, ·))).map Prod.fst

/-- `merge_dictionary_stack`: the merged dictionary and the files of its wavelet tree. The
offsets are the running sums of the counts (`scan`); `none` is an input's tree read with another
width than it was built with. -/
def mergeDictionaryStack (stack : List (PfcDict α × Option WaveletFiles)) :
    Option (PfcDict α × WaveletFiles) := do
  let counts := stack.map fun input => input.1.len
  let offsets := counts.scanl (· + ·) 0
  let streams ← (offsets.zip stack).mapM fun p => inputStream p.1 p.2.1 p.2.2
  let folded := (sortedStream streams pickLeast).foldl addItem (⟨[]⟩, [])
  let indexes := folded.2
  let max := indexes.max?.getD 0 + 1
  pure (folded.1.finalize, buildWaveletTree (log2Ceil max) indexes)

end Merge

/-! ## Lists -/

section Lists

variable {α : Type}

theorem foldl_addItem (items : List (ℕ × α)) (acc : PfcDictFileBuilder α × List ℕ) :
    items.foldl addItem acc = (⟨acc.1.added ++ items.map Prod.snd⟩, acc.2 ++ items.map Prod.fst) := by
  induction items generalizing acc with
  | nil => simp
  | cons item items ih => simp [ih, addItem, PfcDictFileBuilder.add]

/-- The present heads of a list of heads, with their indices. -/
theorem mem_present_heads {heads : List (Option α)} {i : ℕ} {x : α} :
    (i, x) ∈ heads.enum.filterMap (fun p => p.2.map (p.1, ·)) ↔ heads[i]? = some (some x) := by
  simp only [List.mem_filterMap, List.mem_enum_iff_getElem?, Option.map_eq_some']
  constructor
  · rintro ⟨⟨j, o⟩, hj, y, rfl, ⟨⟩⟩
    exact hj
  · exact fun h => ⟨(i, some x), h, x, rfl, rfl⟩

/-- The present heads come in the order of their streams. -/
theorem present_heads_ordered (heads : List (Option α)) :
    (heads.enum.filterMap fun p => p.2.map (p.1, ·)).Pairwise fun a b => a.1 < b.1 := by
  have henum : heads.enum.Pairwise fun a b => a.1 < b.1 :=
    List.pairwise_map.1 (by rw [List.enum_map_fst]; exact List.sorted_lt_range _)
  refine henum.filterMap _ fun a a' h b hb b' hb' => ?_
  obtain ⟨_, _, rfl⟩ := Option.map_eq_some'.1 hb
  obtain ⟨_, _, rfl⟩ := Option.map_eq_some'.1 hb'
  exact h

/-- The first input's strings in external order are the strings its ids place there. -/
theorem mem_of_first_external {ids : List ℕ} {dict : PfcDict α}
    (hperm : ids.Perm (List.range dict.len)) {ix : ℕ} {s : α}
    (h : (((ids.zip dict.strings).mergeSort fun a b => a.1 ≤ b.1).map Prod.snd)[ix]? = some s) :
    (ix, s) ∈ ids.zip dict.strings := by
  set sorted := (ids.zip dict.strings).mergeSort fun a b => a.1 ≤ b.1
  have hlen : ids.length = dict.strings.length := hperm.length_eq.trans (List.length_range _)
  have hsorted : (sorted.map Prod.fst).Sorted (· ≤ ·) := List.pairwise_map.2 <|
    (@List.sorted_mergeSort _ (fun a b : ℕ × α => decide (a.1 ≤ b.1))
      (fun a b c hab hbc => by simp only [decide_eq_true_eq] at *; omega)
      (fun a b => by simpa using le_total a.1 b.1) _).imp fun hab => of_decide_eq_true hab
  have hids : sorted.map Prod.fst = List.range dict.len :=
    List.eq_of_perm_of_sorted
      ((((List.mergeSort_perm _ _).map Prod.fst).trans (by rw [List.map_fst_zip _ _ hlen.le])).trans
        hperm)
      hsorted (List.sorted_lt_range _).le_of_lt
  rw [List.getElem?_map, Option.map_eq_some'] at h
  obtain ⟨⟨i, s'⟩, hq, rfl⟩ := h
  have hi : (sorted.map Prod.fst)[ix]? = some i := by simp [hq]
  rw [hids, List.getElem?_eq_some_iff] at hi
  obtain ⟨_, hget⟩ := hi
  rw [List.getElem_range] at hget
  subst hget
  exact (List.mergeSort_perm _ _).subset (List.getElem?_mem hq)

/-- Every string of the external order, with its position, is an item of the merge's streams. -/
theorem mem_streams_of_external {ids : List ℕ} {dict : PfcDict α}
    {rest : List (PfcDict α × Option WaveletFiles)} (hperm : ids.Perm (List.range dict.len))
    {ix : ℕ} {s : α} (h : (externalOrder ids dict rest)[ix]? = some s) :
    (ix, s) ∈ ids.zip dict.strings ++
      (List.range' dict.len (rest.map fun input => input.1.strings).flatten.length).zip
        (rest.map fun input => input.1.strings).flatten := by
  have hlen : ids.length = dict.strings.length := hperm.length_eq.trans (List.length_range _)
  have hfirst : (((ids.zip dict.strings).mergeSort fun a b => a.1 ≤ b.1).map Prod.snd).length =
      dict.len := by
    simp [PfcDict.len, hlen]
  rw [externalOrder] at h
  by_cases hix : ix < dict.len
  · rw [List.getElem?_append_left (hfirst ▸ hix)] at h
    exact List.mem_append_left _ (mem_of_first_external hperm h)
  · rw [List.getElem?_append_right (by omega), hfirst] at h
    refine List.mem_append_right _ (List.getElem?_mem (n := ix - dict.len) ?_)
    rw [List.getElem?_zip_eq_some, List.getElem?_range' _ _ (List.getElem?_eq_some_iff.1 h).1]
    exact ⟨by simp only [Nat.one_mul]; congr 1; omega, h⟩

end Lists

section Ordered

variable {α : Type} [LinearOrder α]

/-! ## The pick -/

/-- The merge's pick names a least head, and none only when no stream has a head. -/
theorem picksLeast_pickLeast : PicksLeast (fun p : ℕ × α => p.2) pickLeast := by
  intro heads
  constructor
  · intro h o ho
    cases o with
    | none => rfl
    | some x =>
      obtain ⟨i, hi⟩ := List.mem_iff_getElem?.1 ho
      have hmem := mem_present_heads.2 hi
      rw [(minByKey_eq_none _).1 (Option.map_eq_none'.1 h)] at hmem
      cases hmem
  · intro i h
    obtain ⟨⟨j, x⟩, hm, rfl⟩ := Option.map_eq_some'.1 h
    obtain ⟨hmem, hle⟩ := minByKey_spec _ hm
    refine ⟨x, mem_present_heads.1 hmem, fun o ho y hy => ?_⟩
    obtain ⟨k, hk⟩ := List.mem_iff_getElem?.1 ho
    rw [Option.mem_def] at hy
    subst hy
    exact hle (k, y) (mem_present_heads.2 hk)

/-- Of several least heads the pick names the first: every head before it is greater. -/
theorem pickLeast_first {heads : List (Option (ℕ × α))} {i j : ℕ} {x y : ℕ × α}
    (h : pickLeast heads = some i) (hx : heads[i]? = some (some x)) (hj : j < i)
    (hy : heads[j]? = some (some y)) : x.2 < y.2 := by
  obtain ⟨⟨i', x'⟩, hm, rfl⟩ := Option.map_eq_some'.1 h
  obtain ⟨pre, post, hl, hlt⟩ := minByKey_first _ hm
  obtain rfl : x' = x := Option.some.inj (Option.some.inj
    ((mem_present_heads.1 (minByKey_spec _ hm).1).symm.trans hx))
  have hord := present_heads_ordered heads
  have hjm := mem_present_heads.2 hy
  rw [hl] at hord hjm
  rcases List.mem_append.1 hjm with hpre | hpost
  · exact hlt _ hpre
  · have hafter := (List.pairwise_cons.1 (List.pairwise_append.1 hord).2.1).1
    rcases List.mem_cons.1 hpost with heq | hpost
    · exact absurd (congrArg Prod.fst heq) (by simp only; omega)
    · exact absurd (hafter _ hpost) (by simp only; omega)

/-- Of the heads `7`, none, `3` and `3`, the pick names the first `3`; the head before it is
greater. -/
theorem pickLeast_first_three_heads :
    pickLeast [some (0, 7), none, some (5, 3), some (1, 3)] = some 2 ∧ (5, 3).2 < (0, 7).2 :=
  ⟨by decide, pickLeast_first (x := (5, 3)) (y := (0, 7))
    (show pickLeast [some (0, 7), none, some (5, 3), some (1, 3)] = some 2 by decide) rfl
    (show 0 < 2 by decide) rfl⟩

/-! ## The streams -/

/-- One input's stream is sorted by string when its strings are. -/
theorem sorted_zip (ids : List ℕ) {l : List α} (hl : l.Sorted (· ≤ ·)) :
    (ids.zip l).Sorted fun a b => a.2 ≤ b.2 := by
  induction ids generalizing l with
  | nil => exact List.sorted_nil
  | cons i ids ih =>
    cases l with
    | nil => exact List.sorted_nil
    | cons s l =>
      obtain ⟨hlt, hl'⟩ := List.sorted_cons.1 hl
      rw [List.zip_cons_cons]
      exact List.sorted_cons.2 ⟨fun p hp => hlt _ (List.of_mem_zip hp).2, ih hl'⟩

/-- The streams of inputs without a tree: their items are the strings in order, numbered on from
the offset; each stream is sorted when its input is. -/
theorem mapM_inputStream_rest (offset : ℕ) (rest : List (PfcDict α × Option WaveletFiles))
    (hrest : ∀ input ∈ rest, input.2 = none) :
    ∃ streams, (((rest.map fun input => input.1.len).scanl (· + ·) offset).zip rest).mapM
        (fun p => inputStream p.1 p.2.1 p.2.2) = some streams ∧
      streams.flatten = (List.range' offset (rest.map fun input => input.1.strings).flatten.length).zip
        (rest.map fun input => input.1.strings).flatten ∧
      ((∀ input ∈ rest, input.1.strings.Sorted (· ≤ ·)) → ∀ s ∈ streams, s.Sorted fun a b => a.2 ≤ b.2) := by
  induction rest generalizing offset with
  | nil => exact ⟨[], rfl, rfl, by simp⟩
  | cons input rest ih =>
    obtain ⟨dict, remap⟩ := input
    obtain ⟨hnone, hnones⟩ := List.forall_mem_cons.1 hrest
    obtain rfl : remap = none := hnone
    obtain ⟨streams, hm, hflat, hs⟩ := ih (offset + dict.len) hnones
    refine ⟨(List.range' offset dict.len).zip dict.strings :: streams, ?_, ?_, fun hsorted =>
      List.forall_mem_cons.2 ⟨sorted_zip _ (List.forall_mem_cons.1 hsorted).1,
        hs (List.forall_mem_cons.1 hsorted).2⟩⟩
    · simp only [List.map_cons, List.scanl_cons, List.singleton_append, List.zip_cons_cons,
        List.mapM_cons, hm]
      rfl
    · have hlen : (List.range' offset dict.len).length = dict.strings.length := by
        simp [PfcDict.len]
      rw [List.flatten_cons, hflat, ← List.zip_append hlen]
      simp only [List.map_cons, List.flatten_cons, List.length_append, PfcDict.len]
      rw [Nat.add_comm dict.strings.length, ← List.range'_append, Nat.one_mul]

/-- The streams of a stack whose first input's ids are `ids` and whose other inputs carry no tree;
each stream is sorted when its input is. -/
theorem mapM_inputStream (dict : PfcDict α) (remap : Option WaveletFiles)
    (rest : List (PfcDict α × Option WaveletFiles)) {ids : List ℕ}
    (hids : idStream 0 dict remap = some ids) (hrest : ∀ input ∈ rest, input.2 = none) :
    ∃ streams, (((((dict, remap) :: rest).map fun input => input.1.len).scanl (· + ·) 0).zip
        ((dict, remap) :: rest)).mapM (fun p => inputStream p.1 p.2.1 p.2.2) = some streams ∧
      streams.flatten = ids.zip dict.strings ++
        (List.range' dict.len (rest.map fun input => input.1.strings).flatten.length).zip
          (rest.map fun input => input.1.strings).flatten ∧
      ((∀ input ∈ (dict, remap) :: rest, input.1.strings.Sorted (· ≤ ·)) →
        ∀ s ∈ streams, s.Sorted fun a b => a.2 ≤ b.2) := by
  obtain ⟨streams, hm, hflat, hs⟩ := mapM_inputStream_rest dict.len rest hrest
  refine ⟨ids.zip dict.strings :: streams, ?_, by rw [List.flatten_cons, hflat], fun hsorted =>
    List.forall_mem_cons.2 ⟨sorted_zip _ (List.forall_mem_cons.1 hsorted).1,
      hs (List.forall_mem_cons.1 hsorted).2⟩⟩
  simp only [List.map_cons, List.scanl_cons, List.singleton_append, List.zip_cons_cons,
    List.mapM_cons, Nat.zero_add, hm]
  simp [inputStream, hids]

/-! ## The result -/

/-- Once the streams are read, the merge is the dictionary of the merged strings and the tree of
their ids. -/
theorem mergeDictionaryStack_of_streams {stack : List (PfcDict α × Option WaveletFiles)}
    {streams : List (List (ℕ × α))}
    (h : (((stack.map fun input => input.1.len).scanl (· + ·) 0).zip stack).mapM
      (fun p => inputStream p.1 p.2.1 p.2.2) = some streams) :
    mergeDictionaryStack stack = some (⟨(sortedStream streams pickLeast).map Prod.snd⟩,
      buildWaveletTree (log2Ceil (((sortedStream streams pickLeast).map Prod.fst).max?.getD 0 + 1))
        ((sortedStream streams pickLeast).map Prod.fst)) := by
  simp only [mergeDictionaryStack, h, foldl_addItem]
  rfl

/-- The width the merge builds with, from the largest id plus one, is the width of `n` when the
ids are a permutation of `0, ..., n - 1`. -/
theorem log2Ceil_max_succ {indexes : List ℕ} {n : ℕ} (h : indexes.Perm (List.range n)) :
    log2Ceil (indexes.max?.getD 0 + 1) = log2Ceil n := by
  cases n with
  | zero =>
    rw [List.range_zero, List.perm_nil] at h
    simp [h]
  | succ n =>
    have hmax : indexes.max? = some n := List.max?_eq_some_iff'.2
      ⟨h.mem_iff.2 (List.mem_range.2 n.lt_succ_self),
        fun b hb => Nat.lt_succ_iff.1 (List.mem_range.1 (h.subset hb))⟩
    rw [hmax]
    rfl

/-- What the merge writes for a stack of sorted, pairwise disjoint dictionaries in which only the
first carries a tree, one that decodes to a permutation `ids`: the items `out`, each an external
id and a string, with strictly increasing strings and ids a permutation of `0, ..., n - 1`, where
`n` is the total count. The merged dictionary holds their strings; the new tree holds their ids,
built with the width of `n`. Every entry of the external order is an item, at its position. -/
theorem mergeDictionaryStack_items (dict : PfcDict α) (remap : Option WaveletFiles)
    (rest : List (PfcDict α × Option WaveletFiles)) {ids : List ℕ}
    (hsorted : ∀ input ∈ (dict, remap) :: rest, input.1.strings.Sorted (· < ·))
    (hdisjoint : (((dict, remap) :: rest).map fun input => input.1.strings).Pairwise List.Disjoint)
    (hrest : ∀ input ∈ rest, input.2 = none)
    (hids : idStream 0 dict remap = some ids) (hperm : ids.Perm (List.range dict.len)) :
    ∃ out : List (ℕ × α), mergeDictionaryStack ((dict, remap) :: rest) =
        some (⟨out.map Prod.snd⟩, buildWaveletTree (log2Ceil out.length) (out.map Prod.fst)) ∧
      (out.map Prod.snd).Sorted (· < ·) ∧ (out.map Prod.fst).Perm (List.range out.length) ∧
      out.length = (((dict, remap) :: rest).map fun input => input.1.len).sum ∧
      (externalOrder ids dict rest).length = out.length ∧
      ∀ {ix s}, (externalOrder ids dict rest)[ix]? = some s → (ix, s) ∈ out := by
  obtain ⟨streams, hm, hflat, hs⟩ := mapM_inputStream dict remap rest hids hrest
  set others := (rest.map fun input => input.1.strings).flatten
  set out := sortedStream streams pickLeast
  have hlen : ids.length = dict.strings.length := hperm.length_eq.trans (List.length_range _)
  have hout : out.Perm streams.flatten := sortedLoop_perm picksLeast_pickLeast _ _ le_rfl
  have hsnd : streams.flatten.map Prod.snd = dict.strings ++ others := by
    rw [hflat, List.map_append, List.map_snd_zip _ _ hlen.ge, List.map_snd_zip _ _ (by simp)]
  have hfst : (streams.flatten.map Prod.fst).Perm (List.range (others.length + dict.len)) := by
    rw [hflat, List.map_append, List.map_fst_zip _ _ hlen.le, List.map_fst_zip _ _ (by simp),
      List.range_eq_range', ← List.range'_append, Nat.zero_add, Nat.one_mul]
    exact (List.range_eq_range' _ ▸ hperm).append_right _
  have hcount : out.length = others.length + dict.len := by
    rw [hout.length_eq, hflat, List.length_append, List.length_zip, List.length_zip,
      List.length_range', hlen, min_self, min_self, PfcDict.len, Nat.add_comm]
  have hnodup : (out.map Prod.snd).Nodup := by
    rw [(hout.map Prod.snd).nodup_iff, hsnd]
    have := List.nodup_flatten.2 ⟨fun l hl => ?_, hdisjoint⟩
    · simpa [others] using this
    obtain ⟨input, hin, rfl⟩ := List.mem_map.1 hl
    exact (hsorted input hin).nodup
  have hids' : (out.map Prod.fst).Perm (List.range out.length) :=
    hcount ▸ (hout.map Prod.fst).trans hfst
  refine ⟨out, ?_, List.Sorted.lt_of_le
    (List.pairwise_map.2 (sortedLoop_sorted picksLeast_pickLeast _ _
      (hs fun input hin => (hsorted input hin).le_of_lt))) hnodup, hids', ?_, ?_,
    fun h => hout.symm.subset (hflat ▸ mem_streams_of_external hperm h)⟩
  · rw [mergeDictionaryStack_of_streams hm, log2Ceil_max_succ hids']
  · simp [hout.length_eq, hflat, hlen, others, PfcDict.len, List.length_flatten, Function.comp_def]
  · simp [externalOrder, PfcDict.len, hout.length_eq, hflat, hlen, others]

/-- Merging preserves external ids while the width holds them: over every stack of sorted,
pairwise disjoint dictionaries in which only the first carries a wavelet tree, one that decodes to
a permutation `ids`, and whose total count `n` is at most `2 ^ log2Ceil n`, the merged strings are
strictly increasing and `n` many; the new tree reads back with width `log2Ceil len` to a
permutation of `0, ..., len - 1`; and the mapped dictionary of the two finds the `ix`-th string of
the external order at `ix`, and `ix` from it. -/
theorem mergeDictionaryStack_preserves_ids (dict : PfcDict α) (remap : Option WaveletFiles)
    (rest : List (PfcDict α × Option WaveletFiles)) (ids : List ℕ)
    (hsorted : ∀ input ∈ (dict, remap) :: rest, input.1.strings.Sorted (· < ·))
    (hdisjoint : (((dict, remap) :: rest).map fun input => input.1.strings).Pairwise List.Disjoint)
    (hrest : ∀ input ∈ rest, input.2 = none)
    (hids : idStream 0 dict remap = some ids) (hperm : ids.Perm (List.range dict.len))
    (hfits : (((dict, remap) :: rest).map fun input => input.1.len).sum ≤
      2 ^ log2Ceil (((dict, remap) :: rest).map fun input => input.1.len).sum) :
    ∃ merged files t, mergeDictionaryStack ((dict, remap) :: rest) = some (merged, files) ∧
      merged.strings.Sorted (· < ·) ∧
      merged.len = (((dict, remap) :: rest).map fun input => input.1.len).sum ∧
      WaveletTree.fromParts files (log2Ceil merged.len) = some t ∧
      t.decode.Perm (List.range merged.len) ∧
      (externalOrder ids dict rest).length = merged.len ∧
      ∀ ix s, (externalOrder ids dict rest)[ix]? = some s →
        (MappedPfcDict.fromParts merged t).get ix = some s ∧
          (MappedPfcDict.fromParts merged t).id s = some (some ix) := by
  obtain ⟨out, hm, hsorted', hperm', hcount, hlenE, hmem⟩ :=
    mergeDictionaryStack_items dict remap rest hsorted hdisjoint hrest hids hperm
  have hlen : (⟨out.map Prod.snd⟩ : PfcDict α).len = out.length := List.length_map _ _
  have hbuild : WaveletTree.fromParts (buildWaveletTree (log2Ceil out.length) (out.map Prod.fst))
      (log2Ceil out.length) = some ⟨out.map Prod.fst⟩ :=
    WaveletTree.fromParts_build fun v hv =>
      (List.mem_range.1 (hperm'.subset hv)).trans_le (hcount ▸ hfits)
  refine ⟨_, _, _, hm, hsorted', hlen.trans hcount, by rwa [hlen], by rwa [hlen],
    hlenE.trans hlen.symm, fun ix s h => MappedPfcDict.get_id_of_pairs hsorted'.nodup hperm' (hmem h)⟩

/-- Past the width, the merge loses an id: over every stack as in
`mergeDictionaryStack_preserves_ids` whose total count `n` exceeds `2 ^ log2Ceil n`, as
`2 ^ 24 + 1` does, the merge returns and its tree reads back with the width `w = log2Ceil len`, but
holds the id `2 ^ w` as 0. The mapped dictionary of the two panics on `get (2 ^ w)`, and gives the
string the external order places at `2 ^ w` the id 0. -/
theorem mergeDictionaryStack_wraps_ids (dict : PfcDict α) (remap : Option WaveletFiles)
    (rest : List (PfcDict α × Option WaveletFiles)) (ids : List ℕ)
    (hsorted : ∀ input ∈ (dict, remap) :: rest, input.1.strings.Sorted (· < ·))
    (hdisjoint : (((dict, remap) :: rest).map fun input => input.1.strings).Pairwise List.Disjoint)
    (hrest : ∀ input ∈ rest, input.2 = none)
    (hids : idStream 0 dict remap = some ids) (hperm : ids.Perm (List.range dict.len))
    (hwide : 2 ^ log2Ceil (((dict, remap) :: rest).map fun input => input.1.len).sum <
      (((dict, remap) :: rest).map fun input => input.1.len).sum) :
    ∃ merged files t, mergeDictionaryStack ((dict, remap) :: rest) = some (merged, files) ∧
      merged.len = (((dict, remap) :: rest).map fun input => input.1.len).sum ∧
      WaveletTree.fromParts files (log2Ceil merged.len) = some t ∧
      (MappedPfcDict.fromParts merged t).get (2 ^ log2Ceil merged.len) = none ∧
      ∃ s, (externalOrder ids dict rest)[2 ^ log2Ceil merged.len]? = some s ∧
        (MappedPfcDict.fromParts merged t).id s = some (some 0) := by
  obtain ⟨out, hm, hsorted', -, hcount, hlenE, hmem⟩ :=
    mergeDictionaryStack_items dict remap rest hsorted hdisjoint hrest hids hperm
  have hlen : (⟨out.map Prod.snd⟩ : PfcDict α).len = out.length := List.length_map _ _
  rw [← hcount] at hwide
  obtain ⟨s, hs⟩ : ∃ s, (externalOrder ids dict rest)[2 ^ log2Ceil out.length]? = some s :=
    ⟨_, List.getElem?_eq_getElem (hwide.trans_eq hlenE.symm)⟩
  obtain ⟨hget, hid⟩ := MappedPfcDict.get_id_of_wrapped_pairs hsorted'.nodup (hmem hs) hwide
  refine ⟨_, _, _, hm, hlen.trans hcount, ?_, ?_, s, ?_, hid⟩ <;> rw [hlen]
  exacts [WaveletTree.fromParts_buildWaveletTree _ _, hget, hs]

/-- A stack of one dictionary of the `2 ^ 24 + 1` strings `0, ..., 2 ^ 24`: the width is 24, so
the merged tree holds the id `2 ^ 24` as 0. -/
theorem mergeDictionaryStack_wraps_ids_two_pow_24 :
    ∃ merged files t, mergeDictionaryStack [(⟨List.range (2 ^ 24 + 1)⟩, none)] = some (merged, files) ∧
      merged.len = ([((⟨List.range (2 ^ 24 + 1)⟩ : PfcDict ℕ), (none : Option WaveletFiles))].map
        fun input => input.1.len).sum ∧
      WaveletTree.fromParts files (log2Ceil merged.len) = some t ∧
      (MappedPfcDict.fromParts merged t).get (2 ^ log2Ceil merged.len) = none ∧
      ∃ s, (externalOrder (List.range' 0 (⟨List.range (2 ^ 24 + 1)⟩ : PfcDict ℕ).len)
          ⟨List.range (2 ^ 24 + 1)⟩ [])[2 ^ log2Ceil merged.len]? = some s ∧
        (MappedPfcDict.fromParts merged t).id s = some (some 0) := by
  have hsum : ([((⟨List.range (2 ^ 24 + 1)⟩ : PfcDict ℕ), (none : Option WaveletFiles))].map
      fun input => input.1.len).sum = 2 ^ 24 + 1 := by
    simp only [List.map_cons, List.map_nil, List.sum_cons, List.sum_nil, PfcDict.len,
      List.length_range, Nat.add_zero]
  exact mergeDictionaryStack_wraps_ids ⟨List.range (2 ^ 24 + 1)⟩ none []
    (List.range' 0 (⟨List.range (2 ^ 24 + 1)⟩ : PfcDict ℕ).len)
    (fun input hin => by rw [List.mem_singleton.1 hin]; dsimp only; exact List.sorted_lt_range _)
    (List.pairwise_singleton _ _) (fun _ h => absurd h (List.not_mem_nil _)) rfl
    (by rw [← List.range_eq_range'])
    (by rw [hsum, log2Ceil_two_pow_24_add_one]; exact Nat.lt_succ_self _)

/-- The merge does not merge equal strings: over every stack of sorted dictionaries without trees
it adds every input string to the builder, duplicates included, in non-decreasing order. -/
theorem mergeDictionaryStack_keeps_duplicates (stack : List (PfcDict α × Option WaveletFiles))
    (hnone : ∀ input ∈ stack, input.2 = none)
    (hsorted : ∀ input ∈ stack, input.1.strings.Sorted (· ≤ ·)) :
    ∃ merged files, mergeDictionaryStack stack = some (merged, files) ∧
      merged.strings.Perm (stack.map fun input => input.1.strings).flatten ∧
      merged.strings.Sorted (· ≤ ·) := by
  obtain ⟨streams, hm, hflat, hs⟩ := mapM_inputStream_rest 0 stack hnone
  refine ⟨_, _, mergeDictionaryStack_of_streams hm, ?_,
    List.pairwise_map.2 (sortedLoop_sorted picksLeast_pickLeast _ _ (hs hsorted))⟩
  refine ((sortedLoop_perm picksLeast_pickLeast _ streams le_rfl).map Prod.snd).trans
    (List.Perm.of_eq ?_)
  rw [hflat, List.map_snd_zip _ _ (by simp)]

/-- The stack of `[1, 2]` and `[2, 3]`: both `2`s reach the builder. -/
theorem mergeDictionaryStack_keeps_duplicates_two :
    ∃ merged files,
      mergeDictionaryStack [((⟨[1, 2]⟩ : PfcDict ℕ), none), (⟨[2, 3]⟩, none)] =
        some (merged, files) ∧
      merged.strings.Perm ([((⟨[1, 2]⟩ : PfcDict ℕ), none),
        (⟨[2, 3]⟩, (none : Option WaveletFiles))].map fun input => input.1.strings).flatten ∧
      merged.strings.Sorted (· ≤ ·) :=
  mergeDictionaryStack_keeps_duplicates _ (by decide) (by decide)

/-- The stack of `[1, 3]` and `[2]`, neither with a tree. -/
theorem mergeDictionaryStack_preserves_ids_one_three_two :
    ∃ merged files t,
      mergeDictionaryStack [((⟨[1, 3]⟩ : PfcDict ℕ), none), (⟨[2]⟩, none)] = some (merged, files) ∧
      merged.strings.Sorted (· < ·) ∧
      merged.len = ([((⟨[1, 3]⟩ : PfcDict ℕ), none), (⟨[2]⟩, (none : Option WaveletFiles))].map
        fun input => input.1.len).sum ∧
      WaveletTree.fromParts files (log2Ceil merged.len) = some t ∧
      t.decode.Perm (List.range merged.len) ∧
      (externalOrder [0, 1] ⟨[1, 3]⟩ [(⟨[2]⟩, none)]).length = merged.len ∧
      ∀ ix s, (externalOrder [0, 1] ⟨[1, 3]⟩ [(⟨[2]⟩, none)])[ix]? = some s →
        (MappedPfcDict.fromParts merged t).get ix = some s ∧
          (MappedPfcDict.fromParts merged t).id s = some (some ix) :=
  mergeDictionaryStack_preserves_ids _ _ _ _ (by decide) (by simp) (by decide) rfl (by decide)
    (le_two_pow_log2Ceil (by decide))

end Ordered

end TerminusStore.Dict
