import TerminusStore.Dict.Merge

/-!
# Merging round after round

Reference: `src/structure/mapped_dict.rs`, `merge_dictionary_stack` and `MappedPfcDict`.

What a merge writes, a dictionary and the files of a wavelet tree, is what the next merge takes
as its first input. The first input's offset is 0, so the ids its tree decodes to are taken as
they are. `MergeRounds` is the runs of such merges. A run starts from one dictionary without a
tree, whose external ids are its local ones. Each round merges what the run holds, with its
tree, and a batch of dictionaries without trees whose strings are sorted and new. `E` is every
string the rounds took, in the order they took them: the first dictionary's strings, then each
batch's, input by input.

`mergeRounds_get_id` is what the tree is for. After every run that takes at most `2 ^ 21`
strings, the tree the last round wrote reads back with the width the dictionary's length gives.
The mapped dictionary of the two finds `E[ix]` at the external id `ix`, gives `ix` back from it,
and has no id for a string the rounds never took. No round moves a string to another id. Past
`2 ^ 21` the width can be too narrow for the ids (`mergeDictionaryStack_wraps_ids`). Even then no
round fails (`mergeRounds_merge_some`): the width a merge computes for its first input's tree
from the dictionary's length is the width the round before built the tree with.

The tree has to go first. The merge shifts by its offset only the ids of an input without a
tree. On any later input, a tree's ids are the ids the first input already has: the merge then
writes the id 0 for two strings (`mergeDictionaryStack_tree_not_first`).

## Shape of the proof

`Numbering E dict ids` says that the ids `ids` number the strings of `dict` as `E` lists them.
One round keeps it (`Numbering.merge`). The round's items are the first input's (id, string)
pairs and the batch's strings numbered on from the first input's length, which is `E`'s length
(`mem_merge_items`). Their ids are a permutation (`perm_merge_items`) and their strings distinct
(`nodup_merge_items`). The new dictionary and tree lay those items out in merged order. The run
lemma `mergeRounds_numbering` follows by induction on the run. That no round fails rests on a
weaker invariant, `WidthKept`, which holds at every size.
-/

namespace TerminusStore.Dict

section Lists

variable {α : Type}

/-- An entry of `l₁ ++ l₂` is an entry of `l₁`, or one of `l₂` past `l₁`'s length. -/
theorem getElem?_append_eq_some {l₁ l₂ : List α} {ix : ℕ} {s : α} :
    (l₁ ++ l₂)[ix]? = some s ↔ l₁[ix]? = some s ∨ l₁.length ≤ ix ∧ l₂[ix - l₁.length]? = some s := by
  by_cases h : ix < l₁.length
  · rw [List.getElem?_append_left h]
    exact ⟨.inl, fun h' => h'.elim id fun ⟨hle, _⟩ => absurd h (by omega)⟩
  · rw [List.getElem?_append_right (by omega), List.getElem?_eq_none_iff.2 (by omega : l₁.length ≤ ix)]
    exact ⟨fun h' => .inr ⟨by omega, h'⟩, fun h' => h'.elim (fun e => by cases e) And.right⟩

/-- A list numbered on from `o`: `(ix, s)` is an item iff `s` is the list's `ix - o`-th entry. -/
theorem mem_zip_range' {l : List α} {o ix : ℕ} {s : α} :
    (ix, s) ∈ (List.range' o l.length).zip l ↔ o ≤ ix ∧ l[ix - o]? = some s := by
  simp only [List.mem_iff_getElem?, List.getElem?_zip_eq_some]
  constructor
  · rintro ⟨n, hr, hl⟩
    rw [List.getElem?_range' _ _ (List.getElem?_eq_some_iff.1 hl).1, Option.some.injEq] at hr
    subst hr
    exact ⟨by omega, by simpa using hl⟩
  · rintro ⟨ho, hl⟩
    refine ⟨ix - o, ?_, hl⟩
    rw [List.getElem?_range' _ _ (List.getElem?_eq_some_iff.1 hl).1, Nat.one_mul,
      Nat.add_sub_cancel' ho]

end Lists

variable {α : Type} [LinearOrder α]

/-- The ids `ids` number the strings of `dict` as `E` lists them: the strings are sorted, the
ids are a permutation of `0, ..., len - 1`, and the string with id `ix` is `E[ix]`. -/
structure Numbering (E : List α) (dict : PfcDict α) (ids : List ℕ) : Prop where
  sorted : dict.strings.Sorted (· < ·)
  perm : ids.Perm (List.range dict.len)
  length : E.length = dict.len
  lists : ∀ {ix s}, E[ix]? = some s ↔ (ix, s) ∈ ids.zip dict.strings

/-- Runs of merges, round after round. A run starts from one dictionary with sorted strings and
no tree. Each round merges what the run holds, with its tree, first, and a batch of dictionaries
without trees, whose strings are sorted and new: disjoint from the strings taken before and from
each other. `MergeRounds E dict remap` is a run that ends holding `dict` and the files `remap`
of its tree, and took the strings `E` in this order. -/
inductive MergeRounds : List α → PfcDict α → Option WaveletFiles → Prop
  | start {dict : PfcDict α} : dict.strings.Sorted (· < ·) → MergeRounds dict.strings dict none
  | merge {E : List α} {dict : PfcDict α} {remap : Option WaveletFiles} {batch : List (PfcDict α)}
      {merged : PfcDict α} {files : WaveletFiles} :
      MergeRounds E dict remap → (∀ d ∈ batch, d.strings.Sorted (· < ·)) →
      (E :: batch.map PfcDict.strings).Pairwise List.Disjoint →
      mergeDictionaryStack ((dict, remap) :: batch.map fun d => (d, none)) = some (merged, files) →
      MergeRounds (E ++ (batch.map PfcDict.strings).flatten) merged (some files)

/-- A batch of sorted, new strings brings distinct strings, none of them in `E`. -/
theorem nodup_disjoint_of_batch {E : List α} {batch : List (PfcDict α)}
    (hsorted : ∀ d ∈ batch, d.strings.Sorted (· < ·))
    (hdisjoint : (E :: batch.map PfcDict.strings).Pairwise List.Disjoint) :
    (batch.map PfcDict.strings).flatten.Nodup ∧ E.Disjoint (batch.map PfcDict.strings).flatten := by
  obtain ⟨hnew, hpair⟩ := List.pairwise_cons.1 hdisjoint
  refine ⟨List.nodup_flatten.2 ⟨fun l hl => ?_, hpair⟩, fun s hs ho => ?_⟩
  · obtain ⟨d, hd, rfl⟩ := List.mem_map.1 hl
    exact (hsorted d hd).nodup
  · obtain ⟨l, hl, hsl⟩ := List.mem_flatten.1 ho
    exact hnew l hl hs hsl

namespace Numbering

variable {E : List α} {dict : PfcDict α} {ids : List ℕ}

/-- A dictionary without a tree numbers its strings by their positions. -/
theorem start (hs : dict.strings.Sorted (· < ·)) : Numbering dict.strings dict (List.range dict.len) where
  sorted := hs
  perm := List.Perm.refl _
  length := rfl
  lists := fun {_ _} => by
    rw [List.range_eq_range', PfcDict.len, mem_zip_range', Nat.sub_zero]
    exact ⟨fun h => ⟨Nat.zero_le _, h⟩, And.right⟩

theorem length_ids (hE : Numbering E dict ids) : ids.length = dict.strings.length :=
  hE.perm.length_eq.trans (List.length_range _)

/-- Every string of the dictionary is one `E` lists. -/
theorem mem_of_mem (hE : Numbering E dict ids) {s : α} (hs : s ∈ dict.strings) : s ∈ E := by
  obtain ⟨j, hj⟩ := List.mem_iff_getElem?.1 hs
  have hj' : j < ids.length := hE.length_ids ▸ (List.getElem?_eq_some_iff.1 hj).1
  exact List.getElem?_mem
    (hE.lists.2 (List.getElem?_mem (List.getElem?_zip_eq_some.2 ⟨List.getElem?_eq_getElem hj', hj⟩)))

/-- The items a round merges are the first input's (id, string) pairs and the batch's strings
numbered on from the first input's length: under a numbering, the entries of `E` followed by the
batch's strings. -/
theorem mem_merge_items (hE : Numbering E dict ids) {others : List α} {ix : ℕ} {s : α} :
    (ix, s) ∈ ids.zip dict.strings ++ (List.range' dict.len others.length).zip others ↔
      (E ++ others)[ix]? = some s := by
  rw [List.mem_append, ← hE.lists, mem_zip_range', getElem?_append_eq_some, hE.length]

/-- The ids of a round's items are a permutation of `0, ..., n - 1`, where `n` counts the first
input's strings and the batch's. -/
theorem perm_merge_items (hE : Numbering E dict ids) (others : List α) :
    ((ids.zip dict.strings ++ (List.range' dict.len others.length).zip others).map Prod.fst).Perm
      (List.range (others.length + dict.len)) := by
  rw [List.map_append, List.map_fst_zip _ _ hE.length_ids.le, List.map_fst_zip _ _ (by simp),
    List.range_eq_range', ← List.range'_append, Nat.zero_add, Nat.one_mul]
  exact (List.range_eq_range' _ ▸ hE.perm).append_right _

/-- The strings of a round's items are distinct when the batch's strings are distinct and new. -/
theorem nodup_merge_items (hE : Numbering E dict ids) {others : List α} (hothers : others.Nodup)
    (hnew : E.Disjoint others) :
    ((ids.zip dict.strings ++ (List.range' dict.len others.length).zip others).map
      Prod.snd).Nodup := by
  rw [List.map_append, List.map_snd_zip _ _ hE.length_ids.ge, List.map_snd_zip _ _ (by simp)]
  exact List.nodup_append.2 ⟨hE.sorted.nodup, hothers, fun s hs => hnew (hE.mem_of_mem hs)⟩

/-- One round from a numbered input returns a result and keeps the numbering while the width
holds the ids. Merge `(dict, remap)`, whose ids number its strings as `E` lists them, with a batch
of dictionaries of sorted, new strings, at most `2 ^ 21` strings in all: the dictionary and the
tree the merge writes number the merged strings as `E` followed by the batch's strings. -/
theorem merge (hE : Numbering E dict ids) {remap : Option WaveletFiles}
    (hids : idStream 0 dict remap = some ids) (batch : List (PfcDict α))
    (hsorted : ∀ d ∈ batch, d.strings.Sorted (· < ·))
    (hdisjoint : (E :: batch.map PfcDict.strings).Pairwise List.Disjoint)
    (hsize : (E ++ (batch.map PfcDict.strings).flatten).length ≤ 2 ^ 21) :
    ∃ merged files ids',
      mergeDictionaryStack ((dict, remap) :: batch.map fun d => (d, none)) = some (merged, files) ∧
      idStream 0 merged (some files) = some ids' ∧
      Numbering (E ++ (batch.map PfcDict.strings).flatten) merged ids' := by
  have hrest : ((batch.map fun d => (d, (none : Option WaveletFiles))).map
      fun input => input.1.strings) = batch.map PfcDict.strings := by
    simp [Function.comp_def]
  obtain ⟨streams, hm, hflat, hs⟩ := mapM_inputStream dict remap (batch.map fun d => (d, none)) hids
    (by simp)
  have hs' := hs <| List.forall_mem_cons.2 ⟨hE.sorted.le_of_lt, fun input hin => by
    obtain ⟨d, hd, rfl⟩ := List.mem_map.1 hin
    exact (hsorted d hd).le_of_lt⟩
  rw [hrest] at hflat
  obtain ⟨hothers, hnew⟩ := nodup_disjoint_of_batch hsorted hdisjoint
  set others := (batch.map PfcDict.strings).flatten
  set out := sortedStream streams pickLeast
  have hout : out.Perm streams.flatten := sortedLoop_perm picksLeast_pickLeast _ _ le_rfl
  have hitems : ∀ {ix s}, (ix, s) ∈ out ↔ (E ++ others)[ix]? = some s := fun {_ _} => by
    rw [hout.mem_iff, hflat, hE.mem_merge_items]
  have hlen : out.length = others.length + dict.len := by
    simp [hout.length_eq, hflat, hE.length_ids, PfcDict.len, Nat.add_comm]
  have hnodup : (out.map Prod.snd).Nodup := by
    rw [(hout.map Prod.snd).nodup_iff, hflat]
    exact hE.nodup_merge_items hothers hnew
  have hperm : (out.map Prod.fst).Perm (List.range out.length) :=
    hlen ▸ (hout.map Prod.fst).trans (hflat ▸ hE.perm_merge_items others)
  have hzip : (out.map Prod.fst).zip (out.map Prod.snd) = out := by
    simpa using List.zip_unzip out
  refine ⟨_, _, out.map Prod.fst, mergeDictionaryStack_of_streams hm, ?_,
    ⟨?_, ?_, ?_, fun {_ _} => by rw [hzip, hitems]⟩⟩
  · have hfits : out.length ≤ 2 ^ log2Ceil out.length :=
      le_two_pow_log2Ceil (by simpa [hlen, hE.length, Nat.add_comm] using hsize)
    simp only [idStream, PfcDict.len, List.length_map, log2Ceil_max_succ hperm,
      WaveletTree.fromParts_build fun v hv => (List.mem_range.1 (hperm.subset hv)).trans_le hfits,
      Option.map_some']
  · exact List.Sorted.lt_of_le (List.pairwise_map.2 (sortedLoop_sorted picksLeast_pickLeast _ _ hs'))
      hnodup
  · simpa [PfcDict.len] using hperm
  · simp [PfcDict.len, hlen, hE.length, Nat.add_comm]

end Numbering

/-! ## Runs -/

variable {E : List α} {dict : PfcDict α} {remap : Option WaveletFiles}

/-- Every run that takes at most `2 ^ 21` strings numbers what it holds: the ids of its last input
number the dictionary's strings as `E` lists them. -/
theorem mergeRounds_numbering (h : MergeRounds E dict remap) (hsize : E.length ≤ 2 ^ 21) :
    ∃ ids, idStream 0 dict remap = some ids ∧ Numbering E dict ids := by
  induction h with
  | start hs => exact ⟨_, by simp [idStream, List.range_eq_range'], Numbering.start hs⟩
  | merge _ hsorted hdisjoint hm ih =>
    obtain ⟨ids, hids, hE⟩ := ih ((List.length_append _ _ ▸ hsize).trans' (Nat.le_add_right _ _))
    obtain ⟨_, _, ids', hm', hids', hE'⟩ := hE.merge hids _ hsorted hdisjoint hsize
    rw [hm, Option.some.injEq, Prod.mk.injEq] at hm'
    obtain ⟨rfl, rfl⟩ := hm'
    exact ⟨ids', hids', hE'⟩

/-- A numbering read through the mapped dictionary: it finds `E[ix]` at `ix` and gives `ix` back
from it, and has no id for a string `E` does not list. -/
theorem Numbering.get_id {t : WaveletTree} (hE : Numbering E dict t.decode) :
    (∀ ix s, E[ix]? = some s →
      (MappedPfcDict.fromParts dict t).get ix = some s ∧
        (MappedPfcDict.fromParts dict t).id s = some (some ix)) ∧
      ∀ s, s ∉ E → (MappedPfcDict.fromParts dict t).id s = some none := by
  have hlen := hE.length_ids
  refine ⟨fun ix s h => ?_, fun s hs => ?_⟩
  · have := MappedPfcDict.get_id_of_pairs
      (by rw [List.map_snd_zip _ _ hlen.ge]; exact hE.sorted.nodup)
      (by rw [List.map_fst_zip _ _ hlen.le, List.length_zip, hlen, min_self]; exact hE.perm)
      (hE.lists.1 h)
    rwa [List.map_snd_zip _ _ hlen.ge, List.map_fst_zip _ _ hlen.le] at this
  · have hnot : s ∉ dict.strings := fun hm => hs (hE.mem_of_mem hm)
    have hnone : dict.strings.indexOf? s = none :=
      List.indexOf?_eq_none_iff.2 fun x hx hxs => hnot (by rwa [← beq_iff_eq.1 hxs])
    simp only [MappedPfcDict.id, MappedPfcDict.fromParts, PfcDict.id, hnone]

/-- Merging keeps every external id, round after round, while the rounds take at most `2 ^ 21`
strings. After every such run of merges, the tree the last round wrote reads back with the width
`log2Ceil len` the dictionary's length gives, and the mapped dictionary of the two holds as many
strings as the rounds took. It finds each string the rounds took at the position at which it was
taken: `E[ix]` at `ix`, and `ix` from `E[ix]`. It has no id for a string the rounds never took. -/
theorem mergeRounds_get_id {files : WaveletFiles} (h : MergeRounds E dict (some files))
    (hsize : E.length ≤ 2 ^ 21) :
    dict.len = E.length ∧ ∃ t, WaveletTree.fromParts files (log2Ceil dict.len) = some t ∧
      (∀ ix s, E[ix]? = some s →
        (MappedPfcDict.fromParts dict t).get ix = some s ∧
          (MappedPfcDict.fromParts dict t).id s = some (some ix)) ∧
      ∀ s, s ∉ E → (MappedPfcDict.fromParts dict t).id s = some none := by
  obtain ⟨ids, hids, hE⟩ := mergeRounds_numbering h hsize
  obtain ⟨t, ht, rfl⟩ := Option.map_eq_some'.1 hids
  exact ⟨hE.length.symm, t, ht, hE.get_id⟩

/-- The run of one round from `[1, 4]`, merging the batch `[2, 5]`. -/
theorem mergeRounds_one_round :
    ∃ (dict : PfcDict ℕ) (files : WaveletFiles), MergeRounds [1, 4, 2, 5] dict (some files) := by
  have h0 : MergeRounds [1, 4] (⟨[1, 4]⟩ : PfcDict ℕ) none := .start (by decide)
  obtain ⟨ids, hids, hE⟩ := mergeRounds_numbering h0 (by decide)
  obtain ⟨m1, f1, -, hm1, -⟩ := hE.merge hids [⟨[2, 5]⟩] (by decide) (by simp) (by decide)
  exact ⟨m1, f1, .merge h0 (by decide) (by simp) hm1⟩

/-- Two rounds from `[1, 4]`: the batch `[2, 5]`, then the batch `[3]`. -/
theorem mergeRounds_get_id_two_rounds :
    ∃ (dict : PfcDict ℕ) (files : WaveletFiles), MergeRounds [1, 4, 2, 5, 3] dict (some files) ∧
      dict.len = [1, 4, 2, 5, 3].length ∧
      ∃ t, WaveletTree.fromParts files (log2Ceil dict.len) = some t ∧
        (∀ ix s, [1, 4, 2, 5, 3][ix]? = some s →
          (MappedPfcDict.fromParts dict t).get ix = some s ∧
            (MappedPfcDict.fromParts dict t).id s = some (some ix)) ∧
        ∀ s, s ∉ [1, 4, 2, 5, 3] → (MappedPfcDict.fromParts dict t).id s = some none := by
  obtain ⟨m1, f1, h1⟩ := mergeRounds_one_round
  obtain ⟨ids1, hids1, hE1⟩ := mergeRounds_numbering h1 (by decide)
  obtain ⟨m2, f2, -, hm2, -⟩ := hE1.merge hids1 [⟨[3]⟩] (by decide) (by simp) (by decide)
  have h2 : MergeRounds [1, 4, 2, 5, 3] m2 (some f2) := .merge h1 (by decide) (by simp) hm2
  exact ⟨m2, f2, h2, mergeRounds_get_id h2 (by decide)⟩

/-! ## The width along a run

Whatever its size, a run never fails: the width the merge computes for its first input's tree,
from the dictionary's length, is the width the round before built the tree with, from its
largest id plus one. Past `2 ^ 21` the ids a tree reads back to are no longer a permutation, and
may repeat, so what a run keeps of them is weaker than a numbering. `WidthKept ids n` is that:
one id per string, each below `n`, and one id `v` that the width of `n` keeps whole and whose
successor has that width. Such an id pins the width of the largest id plus one
(`WidthKept.log2Ceil_max_succ`). A round's ids are the last ids and the batch's new ones
(`WidthKept.append`), and keeping them to the width loses none that matters (`WidthKept.mod`).
-/

/-- What every run keeps of the ids of its last input: one id for each of `n` strings, each below
`n`, and, unless there are none, an id `v` that the width of `n` keeps whole, with
`log2Ceil (v + 1) = log2Ceil n`. -/
structure WidthKept (ids : List ℕ) (n : ℕ) : Prop where
  length : ids.length = n
  lt : ∀ v ∈ ids, v < n
  top : 0 < n → ∃ v ∈ ids, v < 2 ^ log2Ceil n ∧ log2Ceil (v + 1) = log2Ceil n

namespace WidthKept

variable {ids : List ℕ} {n : ℕ}

/-- The positions of `n` strings: the id below `n` and `2 ^ log2Ceil n` both. -/
theorem range (n : ℕ) : WidthKept (List.range n) n where
  length := List.length_range n
  lt := fun _ hv => List.mem_range.1 hv
  top := fun hn => by
    have hpos := Nat.two_pow_pos (log2Ceil n)
    by_cases hfit : n ≤ 2 ^ log2Ceil n
    · exact ⟨n - 1, List.mem_range.2 (by omega), by omega, by rw [Nat.sub_add_cancel hn]⟩
    · exact ⟨2 ^ log2Ceil n - 1, List.mem_range.2 (by omega), by omega,
        by rw [Nat.sub_add_cancel hpos, log2Ceil_two_pow]⟩

theorem perm (h : WidthKept ids n) {ids' : List ℕ} (hp : ids'.Perm ids) : WidthKept ids' n where
  length := hp.length_eq.trans h.length
  lt := fun v hv => h.lt v (hp.subset hv)
  top := fun hn =>
    let ⟨v, hv, hw⟩ := h.top hn
    ⟨v, hp.symm.subset hv, hw⟩

/-- The width the merge builds with, from the largest id plus one, is the width of `n`. -/
theorem log2Ceil_max_succ (h : WidthKept ids n) : log2Ceil (ids.max?.getD 0 + 1) = log2Ceil n := by
  rcases Nat.eq_zero_or_pos n with rfl | hn
  · rw [List.length_eq_zero.1 h.length]
    simp
  obtain ⟨v, hv, -, hvw⟩ := h.top hn
  obtain ⟨m, hm⟩ : ∃ m, ids.max? = some m := Option.ne_none_iff_exists'.1 fun hnone => by
    rw [List.max?_eq_none_iff.1 hnone] at hv
    cases hv
  obtain ⟨hmem, hle⟩ := List.max?_eq_some_iff'.1 hm
  rw [hm, Option.getD_some]
  exact le_antisymm (log2Ceil_mono (h.lt m hmem)) (hvw ▸ log2Ceil_mono (by simpa using hle v hv))

/-- A round's ids: the ids of the last input, then the batch's strings numbered on from `n`. -/
theorem append (h : WidthKept ids n) (b : ℕ) : WidthKept (ids ++ List.range' n b) (n + b) where
  length := by simp [h.length]
  lt := fun v hv => (List.mem_append.1 hv).elim (fun hv => (h.lt v hv).trans_le (Nat.le_add_right n b))
    fun hv => (List.mem_range'_1.1 hv).2
  top := fun hN => by
    set w := log2Ceil (n + b)
    have hpos := Nat.two_pow_pos w
    by_cases hnew : n < n + b ∧ n < 2 ^ w
    · -- a new id: the last one, or the last one the width keeps whole
      refine ⟨min (n + b) (2 ^ w) - 1, List.mem_append_right _ (List.mem_range'_1.2 ⟨by omega, by omega⟩),
        by omega, ?_⟩
      rw [Nat.sub_add_cancel (by omega)]
      rcases le_total (n + b) (2 ^ w) with hle | hle
      · rw [Nat.min_eq_left hle]
      · rw [Nat.min_eq_right hle, log2Ceil_two_pow]
    · -- no new id below the width: the width is the old one
      have hw : log2Ceil n = w := by
        rcases Nat.eq_zero_or_pos b with rfl | hb
        · rfl
        · exact le_antisymm (log2Ceil_mono (Nat.le_add_right n b))
            (log2Ceil_two_pow w ▸ log2Ceil_mono (by omega))
      obtain ⟨v, hv, hlt, hvw⟩ := h.top (by omega)
      exact ⟨v, List.mem_append_left _ hv, hw ▸ hlt, hvw.trans hw⟩

/-- Keeping the ids to the width of `n`, as the tree does, keeps what the width needs. -/
theorem mod (h : WidthKept ids n) : WidthKept (ids.map (· % 2 ^ log2Ceil n)) n where
  length := by simp [h.length]
  lt := fun v hv => by
    obtain ⟨u, hu, rfl⟩ := List.mem_map.1 hv
    exact (Nat.mod_le u _).trans_lt (h.lt u hu)
  top := fun hn => by
    obtain ⟨v, hv, hlt, hvw⟩ := h.top hn
    exact ⟨v, List.mem_map.2 ⟨v, hv, Nat.mod_eq_of_lt hlt⟩, hlt, hvw⟩

/-- One round from ids that keep the width: the merge returns, whatever the batch, and its tree
reads back with the width of the new length, to ids that keep it. -/
theorem merge {dict : PfcDict α} {remap : Option WaveletFiles}
    (hids : idStream 0 dict remap = some ids) (h : WidthKept ids dict.len) (batch : List (PfcDict α)) :
    ∃ merged files ids',
      mergeDictionaryStack ((dict, remap) :: batch.map fun d => (d, none)) = some (merged, files) ∧
      idStream 0 merged (some files) = some ids' ∧ WidthKept ids' merged.len := by
  obtain ⟨streams, hm, hflat, -⟩ := mapM_inputStream dict remap (batch.map fun d => (d, none)) hids
    (by simp)
  set others := ((batch.map fun d => (d, (none : Option WaveletFiles))).map
    fun input => input.1.strings).flatten
  set out := sortedStream streams pickLeast
  have hout : (out.map Prod.fst).Perm (ids ++ List.range' dict.len others.length) := by
    have hperm : out.Perm streams.flatten := sortedLoop_perm picksLeast_pickLeast _ _ le_rfl
    have := hperm.map Prod.fst
    rwa [hflat, List.map_append, List.map_fst_zip _ _ h.length.le,
      List.map_fst_zip _ _ (List.length_range' ..).le] at this
  have hk := (h.append others.length).perm hout
  have hI : WidthKept (out.map Prod.fst) out.length := by
    simpa only [← hk.length, List.length_map] using hk
  refine ⟨_, _, (out.map Prod.fst).map (· % 2 ^ log2Ceil out.length),
    mergeDictionaryStack_of_streams hm, ?_, by rw [PfcDict.len, List.length_map]; exact hI.mod⟩
  simp only [idStream, PfcDict.len, List.length_map, hI.log2Ceil_max_succ,
    WaveletTree.fromParts_buildWaveletTree, Option.map_some']

end WidthKept

/-- Every run keeps the width: the ids of its last input keep it for the dictionary's length. -/
theorem mergeRounds_widthKept (h : MergeRounds E dict remap) :
    ∃ ids, idStream 0 dict remap = some ids ∧ WidthKept ids dict.len := by
  induction h with
  | start => exact ⟨_, by simp [idStream, List.range_eq_range'], WidthKept.range _⟩
  | merge _ _ _ hm ih =>
    obtain ⟨ids, hids, hk⟩ := ih
    obtain ⟨_, _, ids', hm', hids', hk'⟩ := hk.merge hids _
    rw [hm, Option.some.injEq, Prod.mk.injEq] at hm'
    obtain ⟨rfl, rfl⟩ := hm'
    exact ⟨ids', hids', hk'⟩

/-- No round of a run fails, whatever the run's size. From every state a run reaches, merging
with any batch of dictionaries of sorted, new strings returns a result: the tree the last round
wrote reads back with the width the merge computes from the dictionary's length, which is the
width that round built it with. The proof needs neither the order nor the newness of the batch's
strings (`WidthKept.merge`). -/
theorem mergeRounds_merge_some (h : MergeRounds E dict remap) (batch : List (PfcDict α))
    (hsorted : ∀ d ∈ batch, d.strings.Sorted (· < ·))
    (hdisjoint : (E :: batch.map PfcDict.strings).Pairwise List.Disjoint) :
    ∃ merged files,
      mergeDictionaryStack ((dict, remap) :: batch.map fun d => (d, none)) = some (merged, files) := by
  obtain ⟨ids, hids, hk⟩ := mergeRounds_widthKept h
  obtain ⟨merged, files, -, hm, -⟩ := hk.merge hids batch
  exact ⟨merged, files, hm⟩

/-- The second round from `[1, 4]`, whose first input carries the tree of the first round. -/
theorem mergeRounds_merge_some_second_round :
    ∃ (dict : PfcDict ℕ) (files : WaveletFiles), MergeRounds [1, 4, 2, 5] dict (some files) ∧
      ∃ merged files', mergeDictionaryStack ((dict, some files) :: [(⟨[3]⟩, none)]) =
        some (merged, files') := by
  obtain ⟨m1, f1, h1⟩ := mergeRounds_one_round
  exact ⟨m1, f1, h1, mergeRounds_merge_some h1 [⟨[3]⟩] (by decide) (by simp)⟩

/-! ## A tree on a later input

The rounds put the tree on the first input, as the merge needs. The merge shifts by its offset
only the ids of an input without a tree. An input with a tree gets the ids its tree decodes to,
unshifted, and on any input but the first those are ids the first input already has.
-/

section LaterTree

/-- Every element of a list that `mapM` maps without failure is mapped to an element of the
result. -/
theorem exists_mem_of_mapM {β γ : Type} {g : β → Option γ} {l : List β} {l' : List γ}
    (h : l.mapM g = some l') {x : β} (hx : x ∈ l) : ∃ y ∈ l', g x = some y := by
  induction l generalizing l' with
  | nil => cases hx
  | cons b l ih =>
    simp only [List.mapM_cons, Option.bind_eq_bind, Option.bind_eq_some, Option.pure_def,
      Option.some.injEq] at h
    obtain ⟨y, hy, ys, hys, rfl⟩ := h
    rcases List.mem_cons.1 hx with rfl | hx
    · exact ⟨y, List.mem_cons_self _ _, hy⟩
    · obtain ⟨z, hz, hgz⟩ := ih hys hx
      exact ⟨z, List.mem_cons_of_mem _ hz, hgz⟩

/-- The zip form: every element of the second list, when the first is as long, is mapped with
some element of the first to an element of the result. -/
theorem exists_mem_of_mapM_zip {β γ δ : Type} {g : β × γ → Option δ} {l₁ : List β} {l₂ : List γ}
    {l' : List δ} (h : (l₁.zip l₂).mapM g = some l') (hlen : l₂.length ≤ l₁.length) {x : γ}
    (hx : x ∈ l₂) : ∃ a, ∃ y ∈ l', g (a, x) = some y := by
  obtain ⟨j, hj⟩ := List.mem_iff_getElem?.1 hx
  have hlt : j < l₁.length := (List.getElem?_eq_some_iff.1 hj).1.trans_le hlen
  exact ⟨_, exists_mem_of_mapM h
    (List.getElem?_mem (List.getElem?_zip_eq_some.2 ⟨List.getElem?_eq_getElem hlt, hj⟩))⟩

/-- A tree on an input other than the first collides with the first input's ids. Take a stack
whose first input holds a string and has no tree, and a later input whose tree decodes to a
permutation of `0, ..., len - 1`, as a merge writes it. If the merge returns, the ids it writes
into the new tree hold `0` at least twice: two strings of the merged dictionary get the external
id `0`. -/
theorem mergeDictionaryStack_tree_not_first {d₀ d : PfcDict α} {remap : WaveletFiles}
    {rest : List (PfcDict α × Option WaveletFiles)} (hd₀ : 0 < d₀.len)
    (htree : (d, some remap) ∈ rest) {ids : List ℕ} (hids : idStream 0 d (some remap) = some ids)
    (hperm : ids.Perm (List.range d.len)) (hd : 0 < d.len) {merged : PfcDict α}
    {files : WaveletFiles} (h : mergeDictionaryStack ((d₀, none) :: rest) = some (merged, files)) :
    2 ≤ files.values.count 0 := by
  obtain ⟨streams, hm⟩ : ∃ streams, (((((d₀, none) :: rest).map fun input => input.1.len).scanl
      (· + ·) 0).zip ((d₀, none) :: rest)).mapM (fun p => inputStream p.1 p.2.1 p.2.2) =
      some streams :=
    Option.ne_none_iff_exists'.1 fun hn => by
      simp only [mergeDictionaryStack, hn] at h
      exact Option.noConfusion h
  rw [mergeDictionaryStack_of_streams hm, Option.some.injEq, Prod.mk.injEq] at h
  obtain ⟨-, rfl⟩ := h
  simp only [List.map_cons, List.scanl_cons, List.singleton_append, List.zip_cons_cons,
    List.mapM_cons, Option.bind_eq_bind, Option.bind_eq_some, Option.pure_def,
    Option.some.injEq] at hm
  obtain ⟨s₀, hs₀, ss, hss, rfl⟩ := hm
  -- the first input's stream numbers its strings from 0
  have h₀ : 0 ∈ s₀.map Prod.fst := by
    obtain rfl : (List.range' 0 d₀.len).zip d₀.strings = s₀ := by
      simpa [inputStream, idStream] using hs₀
    rw [List.map_fst_zip _ _ (by simp [PfcDict.len])]
    exact List.mem_range'_1.2 ⟨le_rfl, by omega⟩
  -- the later input's stream numbers its strings with its tree's ids, 0 among them
  have h₁ : 0 ∈ ss.flatten.map Prod.fst := by
    obtain ⟨o, s, hs, hgs⟩ := exists_mem_of_mapM_zip hss (by simp [List.length_scanl]) htree
    obtain rfl : ids.zip d.strings = s := by
      simpa [inputStream, show idStream o d (some remap) = some ids from hids] using hgs
    have h0 : 0 ∈ (ids.zip d.strings).map Prod.fst := by
      rw [List.map_fst_zip _ _ (hperm.length_eq.trans (List.length_range _)).le]
      exact hperm.mem_iff.2 (List.mem_range.2 hd)
    obtain ⟨p, hp, hp0⟩ := List.mem_map.1 h0
    exact List.mem_map.2 ⟨p, List.mem_flatten.2 ⟨_, hs, hp⟩, hp0⟩
  set out := sortedStream (s₀ :: ss) pickLeast
  have hout : out.Perm (s₀ :: ss).flatten := sortedLoop_perm picksLeast_pickLeast _ _ le_rfl
  have hmod := List.count_le_count_map (out.map Prod.fst)
    (· % 2 ^ log2Ceil ((out.map Prod.fst).max?.getD 0 + 1)) 0
  rw [Nat.zero_mod] at hmod
  calc 2 = 1 + 1 := rfl
    _ ≤ (s₀.map Prod.fst).count 0 + (ss.flatten.map Prod.fst).count 0 :=
      Nat.add_le_add (List.count_pos_iff.2 h₀) (List.count_pos_iff.2 h₁)
    _ = (out.map Prod.fst).count 0 := by
      rw [(hout.map Prod.fst).count_eq, List.flatten_cons, List.map_append, List.count_append]
    _ ≤ _ := hmod

/-- The stack of `[1]` and of `[2]` with the tree `[0]`: both strings get the id 0. -/
theorem mergeDictionaryStack_tree_not_first_second :
    ∃ (merged : PfcDict ℕ) (files : WaveletFiles),
      mergeDictionaryStack [(⟨[1]⟩, none), (⟨[2]⟩, some ⟨0, [0]⟩)] = some (merged, files) ∧
        2 ≤ files.values.count 0 := by
  have hids : ∀ o, idStream o (⟨[2]⟩ : PfcDict ℕ) (some ⟨0, [0]⟩) = some [0] := fun _ => by
    simp [idStream, WaveletTree.fromParts, PfcDict.len]
  have hm := @mergeDictionaryStack_of_streams ℕ _ [(⟨[1]⟩, none), (⟨[2]⟩, some ⟨0, [0]⟩)]
    [[(0, 1)], [(0, 2)]] (by
      simp only [List.map_cons, List.map_nil, List.scanl_cons, List.scanl_nil, List.singleton_append,
        List.zip_cons_cons, List.zip_nil_right, List.mapM_cons, List.mapM_nil, inputStream, hids]
      rfl)
  exact ⟨_, _, hm, mergeDictionaryStack_tree_not_first (by decide) (List.mem_singleton_self _)
    (hids 0) (by decide) (by decide) hm⟩

end LaterTree

end TerminusStore.Dict
