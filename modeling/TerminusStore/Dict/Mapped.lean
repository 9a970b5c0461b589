import Mathlib.Algebra.Group.Nat.Basic
import Mathlib.Data.List.Range

/-!
# The mapped dictionary

Reference: `src/structure/mapped_dict.rs`, `MappedPfcDict`.

A mapped dictionary pairs a front-coded dictionary, whose local ids are the positions of its
strings, with a wavelet tree that maps external ids to local ones and back. Both parts are
outside the source and are modelled from the spec: the dictionary as its strings in local
order, a wavelet tree as the sequence it encodes (`decode()`), and the files a tree is built
into as the width it was built with and the values, each kept to that many bits.

Strings are any type with decidable equality here, and any linear order in the merge, which
only compares them.

`get_id_of_pairs` is what the merge relies on: laying out a list of (external id, string)
pairs, with distinct strings and the ids a permutation of `0, ..., n - 1`, as the dictionary's
local order and the tree's sequence gives a mapped dictionary that finds each pair's string at
its id, and its id from its string.
-/

namespace TerminusStore.Dict

/-- Modelled from the spec: a front-coded dictionary as its strings in local order. -/
structure PfcDict (α : Type) where
  strings : List α
  deriving DecidableEq, Repr

namespace PfcDict

variable {α : Type} [DecidableEq α]

/-- `PfcDict::len`. -/
def len (d : PfcDict α) : ℕ := d.strings.length

/-- Modelled from the spec: `get(local_id)`; `none` is a panic past the end. -/
def get (d : PfcDict α) (ix : ℕ) : Option α := d.strings[ix]?

/-- Modelled from the spec: `id(string)`, the local id of a string the dictionary holds. -/
def id (d : PfcDict α) (s : α) : Option ℕ := d.strings.indexOf? s

end PfcDict

/-- Modelled from the spec: the files `build_wavelet_tree_from_stream` writes, as the width it
was given and the values, each kept to its low `width` bits. -/
structure WaveletFiles where
  width : ℕ
  values : List ℕ
  deriving DecidableEq, Repr

/-- Modelled from the spec: `build_wavelet_tree_from_stream(width, values, ..)`. -/
def buildWaveletTree (width : ℕ) (values : List ℕ) : WaveletFiles :=
  ⟨width, values.map (· % 2 ^ width)⟩

/-- Modelled from the spec: a wavelet tree as the sequence it encodes, `decode()`. -/
structure WaveletTree where
  decode : List ℕ
  deriving DecidableEq, Repr

namespace WaveletTree

/-- Modelled from the spec: `WaveletTree::from_parts(bitindex, width)`. Read with the width it
was built with, a tree gives back the stored values; the spec says nothing of another width, and
the model has no tree for it. -/
def fromParts (files : WaveletFiles) (width : ℕ) : Option WaveletTree :=
  if width = files.width then some ⟨files.values⟩ else none

/-- Modelled from the spec: `decode_one(ix)`, the value at a position; `none` is a panic past
the end. -/
def decodeOne (t : WaveletTree) (ix : ℕ) : Option ℕ := t.decode[ix]?

/-- Modelled from the spec: `lookup_one(value)`, the position of a value the tree holds. -/
def lookupOne (t : WaveletTree) (v : ℕ) : Option ℕ := t.decode.indexOf? v

/-- Read with the width it was built with, a tree gives back the values kept to that width. -/
@[simp] theorem fromParts_buildWaveletTree (width : ℕ) (values : List ℕ) :
    fromParts (buildWaveletTree width values) width = some ⟨values.map (· % 2 ^ width)⟩ := by
  simp [fromParts, buildWaveletTree]

theorem fromParts_build {width : ℕ} {values : List ℕ} (h : ∀ v ∈ values, v < 2 ^ width) :
    fromParts (buildWaveletTree width values) width = some ⟨values⟩ := by
  rw [fromParts_buildWaveletTree, (List.map_congr_left fun v hv => Nat.mod_eq_of_lt (h v hv)).trans
    (List.map_id' values)]

end WaveletTree

/-- `MappedPfcDict`: a dictionary and the wavelet tree of its ids. -/
structure MappedPfcDict (α : Type) where
  inner : PfcDict α
  idWtree : WaveletTree
  deriving DecidableEq, Repr

namespace MappedPfcDict

variable {α : Type} [DecidableEq α]

/-- `MappedPfcDict::from_parts`. -/
def fromParts (dict : PfcDict α) (wtree : WaveletTree) : MappedPfcDict α := ⟨dict, wtree⟩

/-- `MappedPfcDict::len`. -/
def len (m : MappedPfcDict α) : ℕ := m.inner.len

/-- `MappedPfcDict::get`: the string at external id `ix`. `none` is a panic: past `len`, at an
id the tree does not hold (the `unwrap`), or past the dictionary's end. -/
def get (m : MappedPfcDict α) (ix : ℕ) : Option α :=
  if m.len ≤ ix then none else (m.idWtree.lookupOne ix).bind m.inner.get

/-- `MappedPfcDict::id`: the external id of `s`, `some none` for a string the dictionary does not
hold; `none` is a panic in `decode_one`. -/
def id (m : MappedPfcDict α) (s : α) : Option (Option ℕ) :=
  match m.inner.id s with
  | none => some none
  | some mapped => (m.idWtree.decodeOne mapped).map some

end MappedPfcDict

/-! ## Reading pairs back -/

/-- In a list without repeats, `indexOf?` finds an entry at its position. -/
theorem indexOf?_of_nodup {β : Type} [DecidableEq β] {l : List β} (hl : l.Nodup) {j : ℕ} {v : β}
    (h : l[j]? = some v) : l.indexOf? v = some j := by
  induction l generalizing j with
  | nil => simp at h
  | cons x xs ih =>
    obtain ⟨hx, hxs⟩ := List.nodup_cons.1 hl
    rw [List.indexOf?_cons]
    cases j with
    | zero => simp_all
    | succ j =>
      rw [List.getElem?_cons_succ] at h
      have hne : x ≠ v := fun e => hx (e ▸ List.getElem?_mem h)
      simp [hne, ih hxs h]

namespace MappedPfcDict

variable {α : Type} [DecidableEq α]

/-- A list of (external id, string) pairs with distinct strings, whose ids are a permutation of
`0, ..., n - 1`, laid out as the dictionary's local order and the tree's sequence: the mapped
dictionary finds each pair's string at its id and its id from its string. -/
theorem get_id_of_pairs {pairs : List (ℕ × α)} (hs : (pairs.map Prod.snd).Nodup)
    (hi : (pairs.map Prod.fst).Perm (List.range pairs.length)) {ix : ℕ} {s : α} (h : (ix, s) ∈ pairs) :
    (fromParts ⟨pairs.map Prod.snd⟩ ⟨pairs.map Prod.fst⟩).get ix = some s ∧
      (fromParts ⟨pairs.map Prod.snd⟩ ⟨pairs.map Prod.fst⟩).id s = some (some ix) := by
  obtain ⟨j, hj⟩ := List.mem_iff_getElem?.1 h
  have hfst : (pairs.map Prod.fst)[j]? = some ix := by simp [hj]
  have hsnd : (pairs.map Prod.snd)[j]? = some s := by simp [hj]
  have hlt : ix < pairs.length :=
    List.mem_range.1 (hi.subset (List.mem_map_of_mem Prod.fst h))
  have hnd : (pairs.map Prod.fst).Nodup := hi.nodup_iff.2 (List.nodup_range _)
  constructor
  · rw [get, if_neg (by simpa [len, PfcDict.len, fromParts] using hlt)]
    simpa only [fromParts, WaveletTree.lookupOne, indexOf?_of_nodup hnd hfst, Option.some_bind]
      using hsnd
  · simp only [id, fromParts, PfcDict.id, indexOf?_of_nodup hs hsnd, WaveletTree.decodeOne, hfst,
      Option.map_some']

/-- The same pairs with their ids kept to `w` bits, where `2 ^ w` is one of the ids: the tree
holds no `2 ^ w`, so `get (2 ^ w)` panics, and the string paired with `2 ^ w` gets the id 0. -/
theorem get_id_of_wrapped_pairs {pairs : List (ℕ × α)} (hs : (pairs.map Prod.snd).Nodup) {w : ℕ}
    {s : α} (h : (2 ^ w, s) ∈ pairs) (hlen : 2 ^ w < pairs.length) :
    (fromParts ⟨pairs.map Prod.snd⟩ ⟨(pairs.map Prod.fst).map (· % 2 ^ w)⟩).get (2 ^ w) = none ∧
      (fromParts ⟨pairs.map Prod.snd⟩ ⟨(pairs.map Prod.fst).map (· % 2 ^ w)⟩).id s =
        some (some 0) := by
  obtain ⟨j, hj⟩ := List.mem_iff_getElem?.1 h
  have hnone : ((pairs.map Prod.fst).map (· % 2 ^ w)).indexOf? (2 ^ w) = none :=
    List.indexOf?_eq_none_iff.2 fun x hx hxw => by
      obtain ⟨v, -, rfl⟩ := List.mem_map.1 hx
      exact absurd (beq_iff_eq.1 hxw) (Nat.mod_lt v (Nat.two_pow_pos w)).ne
  have hsnd : (pairs.map Prod.snd)[j]? = some s := by simp [hj]
  constructor
  · rw [get, if_neg (by simpa [len, PfcDict.len, fromParts] using hlen)]
    simp only [fromParts, WaveletTree.lookupOne, hnone, Option.none_bind]
  · simp [id, fromParts, PfcDict.id, indexOf?_of_nodup hs hsnd, WaveletTree.decodeOne, hj]

/-- A mapped dictionary whose strings are distinct and whose tree decodes to a permutation of
`0, ..., len - 1` maps ids and strings one to one: `get` finds a string at every id below `len`,
and `id` gives the id back; every string of the dictionary has an id at which `get` finds it. -/
theorem get_id_inverse {m : MappedPfcDict α} (hs : m.inner.strings.Nodup)
    (ht : m.idWtree.decode.Perm (List.range m.len)) :
    (∀ ix < m.len, ∃ s, m.get ix = some s ∧ m.id s = some (some ix)) ∧
      ∀ s ∈ m.inner.strings, ∃ ix, m.id s = some (some ix) ∧ m.get ix = some s := by
  obtain ⟨⟨strings⟩, ⟨ids⟩⟩ := m
  have hlen : ids.length = strings.length := ht.length_eq.trans (List.length_range _)
  have hpairs : ∀ {ix s}, (ix, s) ∈ ids.zip strings →
      (fromParts ⟨strings⟩ ⟨ids⟩).get ix = some s ∧
        (fromParts ⟨strings⟩ ⟨ids⟩).id s = some (some ix) := by
    intro ix s h
    have := get_id_of_pairs (by rwa [List.map_snd_zip _ _ hlen.ge])
      (by simpa [List.map_fst_zip _ _ hlen.le, hlen] using ht) h
    rwa [List.map_snd_zip _ _ hlen.ge, List.map_fst_zip _ _ hlen.le] at this
  have hzip : ∀ {j ix s}, ids[j]? = some ix → strings[j]? = some s → (ix, s) ∈ ids.zip strings :=
    fun h₁ h₂ => List.getElem?_mem (List.getElem?_zip_eq_some.2 ⟨h₁, h₂⟩)
  refine ⟨fun ix hix => ?_, fun s hsm => ?_⟩
  · obtain ⟨j, hj⟩ := List.mem_iff_getElem?.1 (ht.symm.subset (List.mem_range.2 hix))
    cases hs : strings[j]? with
    | none =>
      have : j < ids.length := (List.getElem?_eq_some_iff.1 hj).1
      exact absurd (List.getElem?_eq_none_iff.1 hs) (by omega)
    | some s => exact ⟨s, hpairs (hzip hj hs)⟩
  · obtain ⟨j, hj⟩ := List.mem_iff_getElem?.1 hsm
    cases hi : ids[j]? with
    | none =>
      have : j < strings.length := (List.getElem?_eq_some_iff.1 hj).1
      exact absurd (List.getElem?_eq_none_iff.1 hi) (by omega)
    | some ix => exact ⟨ix, (hpairs (hzip hi hj)).symm⟩

/-- The dictionary `[1, 3]` with the tree `[1, 0]`: the string 3 has id 0 and the string 1 id 1. -/
theorem get_id_inverse_swapped :
    let m : MappedPfcDict ℕ := ⟨⟨[1, 3]⟩, ⟨[1, 0]⟩⟩
    m.inner.strings.Nodup ∧ m.idWtree.decode.Perm (List.range m.len) ∧
      (∀ ix < m.len, ∃ s, m.get ix = some s ∧ m.id s = some (some ix)) ∧
      ∀ s ∈ m.inner.strings, ∃ ix, m.id s = some (some ix) ∧ m.get ix = some s :=
  ⟨by decide, by decide, get_id_inverse (by decide) (by decide)⟩

end MappedPfcDict

end TerminusStore.Dict
