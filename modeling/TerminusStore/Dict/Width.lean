import Mathlib.Data.Nat.Log
import Mathlib.Algebra.Group.Nat.Basic
import Mathlib.Tactic.Ring

/-!
# The width of a wavelet tree

Reference: `src/structure/mapped_dict.rs`, `merge_dictionary_stack`: the width of the first
input's tree, `(count as f32).log2().ceil() as u8`, and the width of the tree it writes,
`(max as f32).log2().ceil() as u8`.

The merge computes both widths in single precision. `n as f32` rounds the count to the nearest
binary32, ties to even (`toF32`): a binary32 has a 24-bit significand, so a count above `2 ^ 24`
loses its low bits. `log2` of that value is rounded to a binary32 as well, and `ceil` takes it up
to an integer (`log2CeilF32`). The model takes `log2f` to be correctly rounded, and keeps each
binary32 as the natural number it stands for. A zero count has the logarithm `-inf`, which
`ceil` keeps and `as u8` saturates to 0.

Up to `2 ^ 21` the width is `ceil(log2 n)` (`log2Ceil_eq_clog`), so a tree of that width holds
every value below `n` (`le_two_pow_log2Ceil`). Above, it can be one bit short. `2 ^ 24 + 1` rounds
to the binary32 `2 ^ 24`, whose logarithm is 24 whatever `log2f` does
(`log2Ceil_two_pow_24_add_one`). And the correctly rounded logarithm of `2 ^ 21 + 1` is 21
(`log2Ceil_two_pow_21_add_one`). At every count the width is monotone (`log2Ceil_mono`) and exact
at the powers of two (`log2Ceil_two_pow`).

## Shape of the proof

For `x` strictly between `2 ^ k` and `2 ^ (k + 1)`, `log2 x` lies strictly between `k` and
`k + 1` and is irrational, so it rounds to `k` exactly when it lies within half an ulp of `k`.
With `k` in `[2 ^ j, 2 ^ (j + 1))` that ulp is `2 ^ (j - 23)`, and the test is the comparison of
natural numbers `x ^ 2 ^ (24 - j) < 2 ^ (k * 2 ^ (24 - j) + 1)`; it is exact for every binary32,
whose `k` is at most 127. Bernoulli's inequality `2 * a ^ m ≤ (a + 1) ^ m` for `a ≤ m`
(`two_mul_pow_le`) makes the test fail while `2 ^ k ≤ 2 ^ (24 - j)`, which is up to `2 ^ 21`. The
bound `(a + 1) ^ m < 2 * a ^ m` for `a = 2 * m` (`pow_succ_lt_two_mul_pow`) makes it hold at
`2 ^ 21 + 1`.
-/

namespace TerminusStore.Dict

/-! ## Single precision -/

/-- `n / 2 ^ s` rounded to the nearest integer, ties to even. -/
def roundShift (n s : ℕ) : ℕ :=
  if 2 * (n % 2 ^ s) < 2 ^ s ∨ 2 * (n % 2 ^ s) = 2 ^ s ∧ n / 2 ^ s % 2 = 0 then n / 2 ^ s
  else n / 2 ^ s + 1

/-- `n as f32`: the binary32 nearest to `n`, ties to even, as the natural number it stands for.
Its 24-bit significand keeps the bits of `n` from bit `log2 n - 23` up. A `u64` never rounds to
infinity. -/
def toF32 (n : ℕ) : ℕ := roundShift n (Nat.log 2 n - 23) * 2 ^ (Nat.log 2 n - 23)

/-- `x.log2().ceil()` for a binary32 `x` that is a natural number, with `log2` correctly rounded:
`k = log2 x` when `x = 2 ^ k`, or when `log2 x` rounds down onto `k`, that is, lies within half an
ulp `2 ^ (j - 24)` of `k`, where `j = log2 k`; otherwise `k + 1`. -/
def log2CeilF32 (x : ℕ) : ℕ :=
  let k := Nat.log 2 x
  let p := 24 - Nat.log 2 k
  if x = 2 ^ k ∨ x ^ 2 ^ p < 2 ^ (k * 2 ^ p + 1) then k else k + 1

/-- `(n as f32).log2().ceil() as u8`, the width of a wavelet tree over values below `n`. -/
def log2Ceil (n : ℕ) : ℕ := log2CeilF32 (toF32 n)

/-! ## Rounding a count -/

section Round

variable {m n s : ℕ}

theorem div_le_roundShift : n / 2 ^ s ≤ roundShift n s := by
  unfold roundShift; split <;> omega

theorem roundShift_le : roundShift n s ≤ n / 2 ^ s + 1 := by
  unfold roundShift; split <;> omega

@[simp] theorem roundShift_zero : roundShift n 0 = n := by
  simp [roundShift, Nat.mod_one]

theorem roundShift_mono (h : m ≤ n) : roundShift m s ≤ roundShift n s := by
  have hq : m / 2 ^ s ≤ n / 2 ^ s := Nat.div_le_div_right h
  rcases hq.lt_or_eq with hlt | heq
  · exact (roundShift_le).trans (div_le_roundShift.trans' hlt)
  · have hm := Nat.div_add_mod m (2 ^ s)
    have hn := Nat.div_add_mod n (2 ^ s)
    rw [heq] at hm
    unfold roundShift
    rw [heq]
    split_ifs <;> omega

end Round

section F32

variable {m n : ℕ}

/-- Below `2 ^ 24` every count is a binary32. -/
theorem toF32_of_lt (h : n < 2 ^ 24) : toF32 n = n := by
  have hlog : Nat.log 2 n < 24 := by
    rcases Nat.eq_zero_or_pos n with rfl | hn
    · simp
    · exact Nat.log_lt_of_lt_pow hn.ne' h
  rw [toF32, Nat.sub_eq_zero_of_le (by omega : Nat.log 2 n ≤ 23)]
  simp

@[simp] theorem toF32_two_pow (w : ℕ) : toF32 (2 ^ w) = 2 ^ w := by
  have hdvd : 2 ^ (w - 23) ∣ 2 ^ w := Nat.pow_dvd_pow 2 (Nat.sub_le w 23)
  rw [toF32, Nat.log_pow Nat.one_lt_two, roundShift, Nat.mod_eq_zero_of_dvd hdvd,
    if_pos (.inl (by simp)), Nat.div_mul_cancel hdvd]

/-- Rounding keeps a count within its binade, ends included. -/
theorem toF32_bounds (h : n ≠ 0) :
    2 ^ Nat.log 2 n ≤ toF32 n ∧ toF32 n ≤ 2 ^ (Nat.log 2 n + 1) := by
  set L := Nat.log 2 n
  set s := L - 23
  have hsplit : ∀ t, s ≤ t → 2 ^ t = 2 ^ (t - s) * 2 ^ s := fun t ht => by
    rw [← Nat.pow_add, Nat.sub_add_cancel ht]
  have hlo : 2 ^ (L - s) ≤ n / 2 ^ s :=
    (Nat.le_div_iff_mul_le (Nat.two_pow_pos s)).2 (hsplit L (Nat.sub_le L 23) ▸ Nat.pow_log_le_self 2 h)
  have hhi : n / 2 ^ s < 2 ^ (L + 1 - s) :=
    (Nat.div_lt_iff_lt_mul (Nat.two_pow_pos s)).2
      (hsplit (L + 1) (by omega) ▸ Nat.lt_pow_succ_log_self Nat.one_lt_two n)
  constructor
  · calc 2 ^ L = 2 ^ (L - s) * 2 ^ s := hsplit L (Nat.sub_le L 23)
      _ ≤ toF32 n := Nat.mul_le_mul_right _ (hlo.trans div_le_roundShift)
  · calc toF32 n ≤ 2 ^ (L + 1 - s) * 2 ^ s :=
          Nat.mul_le_mul_right _ (roundShift_le.trans (Nat.succ_le_of_lt hhi))
      _ = 2 ^ (L + 1) := (hsplit (L + 1) (by omega)).symm

/-- Rounding to nearest is monotone: within a binade by the quotient and the remainder, across
binades by `toF32_bounds`. -/
theorem toF32_mono : Monotone toF32 := by
  intro m n h
  rcases Nat.eq_zero_or_pos m with rfl | hm
  · simp [toF32]
  rcases (Nat.log_mono_right (b := 2) h).lt_or_eq with hlt | heq
  · calc toF32 m ≤ 2 ^ (Nat.log 2 m + 1) := (toF32_bounds hm.ne').2
      _ ≤ 2 ^ Nat.log 2 n := Nat.pow_le_pow_right Nat.two_pos hlt
      _ ≤ toF32 n := (toF32_bounds (by omega)).1
  · rw [toF32, toF32, heq]
    exact Nat.mul_le_mul_right _ (roundShift_mono h)

/-- `2 ^ 24 + 1` lies halfway between the binary32s `2 ^ 24` and `2 ^ 24 + 2`, and rounds to the
even one. -/
theorem toF32_two_pow_24_add_one : toF32 (2 ^ 24 + 1) = 2 ^ 24 := by
  rw [toF32, Nat.log_eq_of_pow_le_of_lt_pow (m := 24) (by decide) (by decide)]
  decide

end F32

/-! ## Rounding its logarithm -/

section Log2

variable {x y : ℕ}

theorem log_le_log2CeilF32 : Nat.log 2 x ≤ log2CeilF32 x := by
  unfold log2CeilF32; dsimp only; split <;> omega

theorem log2CeilF32_le : log2CeilF32 x ≤ Nat.log 2 x + 1 := by
  unfold log2CeilF32; dsimp only; split <;> omega

@[simp] theorem log2CeilF32_zero : log2CeilF32 0 = 0 := by
  simp [log2CeilF32]

@[simp] theorem log2CeilF32_two_pow (w : ℕ) : log2CeilF32 (2 ^ w) = w := by
  simp [log2CeilF32, Nat.log_pow]

/-- Within a binade a larger `x` only makes the test for rounding down fail sooner. -/
theorem log2CeilF32_mono : Monotone log2CeilF32 := by
  intro x y h
  rcases (Nat.log_mono_right (b := 2) h).lt_or_eq with hlt | heq
  · exact log2CeilF32_le.trans (hlt.trans_le log_le_log2CeilF32)
  · rcases Nat.eq_zero_or_pos x with rfl | hx
    · simp
    have hlo : 2 ^ Nat.log 2 y ≤ x := heq ▸ Nat.pow_log_le_self 2 hx.ne'
    have hpow := Nat.pow_le_pow_left h (2 ^ (24 - Nat.log 2 (Nat.log 2 y)))
    simp only [log2CeilF32, heq]
    generalize Nat.log 2 y = k at hlo hpow ⊢
    generalize 24 - Nat.log 2 k = p at hpow ⊢
    split_ifs <;> omega

/-- The first two terms of the binomial expansion of `(a + 1) ^ (m + 1)`. -/
theorem pow_add_mul_pow_le (a m : ℕ) : a ^ (m + 1) + (m + 1) * a ^ m ≤ (a + 1) ^ (m + 1) := by
  induction m with
  | zero => simp
  | succ m ih =>
    calc a ^ (m + 2) + (m + 2) * a ^ (m + 1)
        ≤ a ^ (m + 2) + (m + 2) * a ^ (m + 1) + (m + 1) * a ^ m := Nat.le_add_right _ _
      _ = (a ^ (m + 1) + (m + 1) * a ^ m) * (a + 1) := by ring
      _ ≤ (a + 1) ^ (m + 1) * (a + 1) := Nat.mul_le_mul_right _ ih
      _ = (a + 1) ^ (m + 2) := (pow_succ _ _).symm

/-- Bernoulli's inequality in the form the width needs. -/
theorem two_mul_pow_le {a m : ℕ} (h : a ≤ m) (hm : m ≠ 0) : 2 * a ^ m ≤ (a + 1) ^ m := by
  obtain _ | m := m
  · exact absurd rfl hm
  · calc 2 * a ^ (m + 1) = a ^ (m + 1) + a * a ^ m := by ring
      _ ≤ a ^ (m + 1) + (m + 1) * a ^ m := by gcongr
      _ ≤ (a + 1) ^ (m + 1) := pow_add_mul_pow_le a m

/-- Up to `2 ^ 21` the rounded logarithm never falls back onto the integer below: the f32
width is `ceil(log2 x)`. -/
theorem log2CeilF32_eq_clog (h : x ≤ 2 ^ 21) : log2CeilF32 x = Nat.clog 2 x := by
  rcases Nat.eq_zero_or_pos x with rfl | hx
  · simp [log2CeilF32]
  set k := Nat.log 2 x with hk
  have hlo : 2 ^ k ≤ x := Nat.pow_log_le_self 2 hx.ne'
  have hhi : x < 2 ^ (k + 1) := Nat.lt_pow_succ_log_self Nat.one_lt_two x
  by_cases hpow : x = 2 ^ k
  · rw [hpow, log2CeilF32_two_pow, Nat.clog_pow 2 k Nat.one_lt_two]
  have hk20 : k ≤ 20 := Nat.lt_succ_iff.1 ((Nat.pow_lt_pow_iff_right Nat.one_lt_two).1
    (show 2 ^ k < 2 ^ 21 by omega))
  have hp : 20 ≤ 24 - Nat.log 2 k := by
    have : Nat.log 2 k ≤ 4 := (Nat.log_mono_right hk20).trans
      (Nat.log_eq_of_pow_le_of_lt_pow (by decide) (by decide)).le
    omega
  have hbern : 2 ^ (k * 2 ^ (24 - Nat.log 2 k) + 1) ≤ x ^ 2 ^ (24 - Nat.log 2 k) :=
    calc 2 ^ (k * 2 ^ (24 - Nat.log 2 k) + 1) = 2 * (2 ^ k) ^ 2 ^ (24 - Nat.log 2 k) := by
          rw [pow_succ, pow_mul, Nat.mul_comm]
      _ ≤ (2 ^ k + 1) ^ 2 ^ (24 - Nat.log 2 k) := two_mul_pow_le
          ((Nat.pow_le_pow_right Nat.two_pos hk20).trans (Nat.pow_le_pow_right Nat.two_pos hp))
          (Nat.two_pow_pos _).ne'
      _ ≤ x ^ 2 ^ (24 - Nat.log 2 k) := Nat.pow_le_pow_left (by omega) _
  have hcl : Nat.clog 2 x = k + 1 := le_antisymm
    ((Nat.le_pow_iff_clog_le Nat.one_lt_two).1 hhi.le)
    ((Nat.pow_lt_iff_lt_clog Nat.one_lt_two).1 (by omega))
  rw [hcl, log2CeilF32, ← hk, if_neg (by push_neg; exact ⟨hpow, hbern⟩)]

/-- The other side: `(a + 1) ^ j * (a - j) ≤ a ^ (j + 1)`, each factor `a + 1` paid for by one
less of `a - j`. -/
theorem pow_mul_sub_le (a j : ℕ) (h : j ≤ a) : (a + 1) ^ j * (a - j) ≤ a ^ (j + 1) := by
  induction j with
  | zero => simp
  | succ j ih =>
    obtain ⟨c, rfl⟩ : ∃ c, a = j + 1 + c := ⟨a - (j + 1), by omega⟩
    have hstep : (j + 1 + c + 1) * c ≤ (j + 1 + c) * (c + 1) :=
      calc (j + 1 + c + 1) * c = (j + 1 + c) * c + c := by ring
        _ ≤ (j + 1 + c) * c + (j + 1 + c) := Nat.add_le_add_left (by omega) _
        _ = (j + 1 + c) * (c + 1) := by ring
    calc (j + 1 + c + 1) ^ (j + 1) * (j + 1 + c - (j + 1))
        = (j + 1 + c + 1) ^ j * ((j + 1 + c + 1) * c) := by rw [Nat.add_sub_cancel_left]; ring
      _ ≤ (j + 1 + c + 1) ^ j * ((j + 1 + c) * (c + 1)) := Nat.mul_le_mul_left _ hstep
      _ = (j + 1 + c + 1) ^ j * (j + 1 + c - j) * (j + 1 + c) := by
          rw [show j + 1 + c - j = c + 1 by omega]; ring
      _ ≤ (j + 1 + c) ^ (j + 1) * (j + 1 + c) := Nat.mul_le_mul_right _ (ih (by omega))
      _ = (j + 1 + c) ^ (j + 1 + 1) := (pow_succ _ _).symm

/-- `(a + 1) ^ m` stays below `2 * a ^ m` when `m` is half of `a`; the two differ in parity. -/
theorem pow_succ_lt_two_mul_pow {a m : ℕ} (ha : a = 2 * m) (hm : m ≠ 0) :
    (a + 1) ^ m < 2 * a ^ m := by
  have hle : (a + 1) ^ m * m ≤ 2 * a ^ m * m := by
    have := pow_mul_sub_le a m (by omega)
    rw [show a - m = m by omega, pow_succ] at this
    calc (a + 1) ^ m * m ≤ a ^ m * a := this
      _ = 2 * a ^ m * m := by rw [ha]; ring
  have hodd : Odd ((a + 1) ^ m) := (Odd.pow ⟨m, by omega⟩)
  have hne : (a + 1) ^ m ≠ 2 * a ^ m := fun h => by
    rw [h] at hodd; exact (Nat.not_even_iff_odd.2 hodd) (even_two_mul _)
  exact lt_of_le_of_ne (Nat.le_of_mul_le_mul_right hle (Nat.pos_of_ne_zero hm)) hne

end Log2

/-! ## The width -/

@[simp] theorem log2Ceil_zero : log2Ceil 0 = 0 := by simp [log2Ceil, toF32]

@[simp] theorem log2Ceil_two_pow (w : ℕ) : log2Ceil (2 ^ w) = w := by simp [log2Ceil]

@[simp] theorem log2Ceil_one : log2Ceil 1 = 0 := log2Ceil_two_pow 0

theorem log2Ceil_mono : Monotone log2Ceil := log2CeilF32_mono.comp toF32_mono

/-- Up to `2 ^ 21` the width is `ceil(log2 n)`. -/
theorem log2Ceil_eq_clog {n : ℕ} (h : n ≤ 2 ^ 21) : log2Ceil n = Nat.clog 2 n := by
  rw [log2Ceil, toF32_of_lt (h.trans_lt (by decide)), log2CeilF32_eq_clog h]

/-- Up to `2 ^ 21` a tree of the width holds every value below `n`. -/
theorem le_two_pow_log2Ceil {n : ℕ} (h : n ≤ 2 ^ 21) : n ≤ 2 ^ log2Ceil n := by
  rw [log2Ceil_eq_clog h]; exact Nat.le_pow_clog Nat.one_lt_two n

/-- The width of `2 ^ 24 + 1` is 24: the count rounds to `2 ^ 24`, whose logarithm is exact. -/
theorem log2Ceil_two_pow_24_add_one : log2Ceil (2 ^ 24 + 1) = 24 := by
  rw [log2Ceil, toF32_two_pow_24_add_one, log2CeilF32_two_pow]

/-- The width of `2 ^ 21 + 1` is 21: its logarithm lies within half an ulp of 21. The bound
`2 ^ 21` of `log2Ceil_eq_clog` is the last at which the width is `ceil(log2 n)`. -/
theorem log2Ceil_two_pow_21_add_one : log2Ceil (2 ^ 21 + 1) = 21 := by
  have hk : Nat.log 2 (2 ^ 21 + 1) = 21 :=
    Nat.log_eq_of_pow_le_of_lt_pow (by decide) (by decide)
  have hj : Nat.log 2 21 = 4 := Nat.log_eq_of_pow_le_of_lt_pow (by decide) (by decide)
  have hlt : (2 ^ 21 + 1) ^ 2 ^ (24 - 4) < 2 ^ (21 * 2 ^ (24 - 4) + 1) := by
    have h2 : 2 ^ (21 * 2 ^ (24 - 4) + 1) = 2 * (2 ^ 21) ^ 2 ^ (24 - 4) := by
      rw [pow_succ, pow_mul, Nat.mul_comm]
    rw [h2]
    exact pow_succ_lt_two_mul_pow (by decide) (Nat.two_pow_pos _).ne'
  rw [log2Ceil, toF32_of_lt (by decide), log2CeilF32]
  simp only [hk, hj]
  exact if_pos (.inr hlt)

end TerminusStore.Dict
