import Mathlib.Algebra.Order.Field.Power
import Mathlib.Data.Int.Log
import Mathlib.Data.Rat.Floor
import Mathlib.Tactic.Linarith
import Mathlib.Tactic.Positivity
import Mathlib.Tactic.Ring

/-! Binary floating point: an operation returns the exact result, rounded to the
nearest number with a significand of `p` bits. The exponent is unbounded, so that
this is about operations whose results are normal numbers or zero. -/
namespace Aret.Lib

/-- The nearest integer, and of two the even one. -/
def nearestEven (q : ℚ) : ℤ :=
  if q - ⌊q⌋ < 1 / 2 ∨ q - ⌊q⌋ = 1 / 2 ∧ ⌊q⌋ % 2 = 0 then ⌊q⌋ else ⌊q⌋ + 1

/-- What the last of `p` bits of a significand is worth. -/
def lastPlace (p : Nat) (q : ℚ) : ℚ := 2^(Int.log 2 |q| + 1 - p)

def roundNearest (p : Nat) (q : ℚ) : ℚ := nearestEven (q / lastPlace p q) * lastPlace p q

def truncate (q : ℚ) : ℤ := if 0 ≤ q then ⌊q⌋ else ⌈q⌉

theorem nearestEven_error (q : ℚ) : |(nearestEven q : ℚ) - q| ≤ 1 / 2 := by
  have hlow := Int.floor_le q
  have hhigh := Int.lt_floor_add_one q
  rw [nearestEven,abs_le]
  split_ifs with hnear
  · have hhalf : q - ⌊q⌋ ≤ 1 / 2 := hnear.elim le_of_lt (fun h => h.1.le)
    constructor <;> linarith
  · have hhalf : 1 / 2 ≤ q - ⌊q⌋ := not_lt.mp (fun h => hnear (Or.inl h))
    push_cast
    constructor <;> linarith

theorem lastPlace_pos (p : Nat) (q : ℚ) : 0 < lastPlace p q := by
  rw [lastPlace]
  positivity

/-- Rounding moves a number by at most its `2^p`-th part. -/
theorem roundNearest_error (p : Nat) (q : ℚ) : |roundNearest p q - q| ≤ |q| / 2^p := by
  by_cases hq : q = 0
  · subst hq
    simp [roundNearest,nearestEven]
  · have hpos := lastPlace_pos p q
    have hplace : lastPlace p q / 2 ≤ |q| / 2^p := by
      have hlog : (2 : ℚ)^(Int.log 2 |q|) ≤ |q| := Int.zpow_log_le_self (by decide) (abs_pos.mpr hq)
      have heq : lastPlace p q / 2 = 2^(Int.log 2 |q|) / 2^p := by
        rw [lastPlace,zpow_sub₀ two_ne_zero,zpow_add_one₀ two_ne_zero,zpow_natCast]
        ring
      rw [heq]
      gcongr
    calc |roundNearest p q - q|
      _ = |nearestEven (q / lastPlace p q) - q / lastPlace p q| * lastPlace p q := by
        rw [roundNearest,← abs_of_pos hpos,← abs_mul,abs_of_pos hpos,sub_mul,div_mul_cancel₀ q hpos.ne']
      _ ≤ 1 / 2 * lastPlace p q := by
        gcongr
        exact nearestEven_error _
      _ ≤ |q| / 2^p := by linarith

/-- An arithmetic that is right up to the `2^p`-th part of each result. -/
structure Rounding (p : Nat) where
  round : ℚ → ℚ
  error : ∀ q, |round q - q| ≤ |q| / 2^p

namespace Rounding
variable {p : Nat}

def nearest (p : Nat) : Rounding p := ⟨roundNearest p,roundNearest_error p⟩

def exact (p : Nat) : Rounding p := ⟨id,fun q => by simp; positivity⟩

@[simp] theorem exact_round (q : ℚ) : (exact p).round q = q := rfl

variable (fp : Rounding p)

theorem abs_round_le {q b : ℚ} (h : |q| ≤ b) : |fp.round q| ≤ (1 + 1 / 2^p) * b := by
  calc |fp.round q|
    _ = |(fp.round q - q) + q| := by rw [sub_add_cancel]
    _ ≤ |fp.round q - q| + |q| := abs_add_le _ _
    _ ≤ |q| / 2^p + |q| := by gcongr; exact fp.error q
    _ = (1 + 1 / 2^p) * |q| := by ring
    _ ≤ (1 + 1 / 2^p) * b := by gcongr

theorem round_nonneg {q : ℚ} (hq : 0 ≤ q) : 0 ≤ fp.round q := by
  have herror := (abs_le.mp (fp.error q)).1
  have hpart : |q| / 2^p ≤ q := by
    rw [abs_of_nonneg hq]
    exact div_le_self hq (one_le_pow₀ one_le_two)
  linarith

theorem round_nonpos {q : ℚ} (hq : q ≤ 0) : fp.round q ≤ 0 := by
  have herror := (abs_le.mp (fp.error q)).2
  have hpart : |q| / 2^p ≤ -q := by
    rw [abs_of_nonpos hq]
    exact div_le_self (neg_nonneg.mpr hq) (one_le_pow₀ one_le_two)
  linarith

end Rounding

theorem truncate_of_nonneg {q : ℚ} (hq : 0 ≤ q) : truncate q = ⌊q⌋ := if_pos hq

/-- Only numbers from `1` on have a positive integer part. -/
theorem truncate_pos_iff (q : ℚ) : 0 < truncate q ↔ 1 ≤ q := by
  rw [truncate]
  split_ifs with hq
  · exact Int.floor_pos
  · refine iff_of_false (not_lt.mpr ?_) (fun h => hq (zero_le_one.trans h))
    exact Int.ceil_le.mpr (by simpa using (not_le.mp hq).le)

/-- Dropping the fraction leaves no interval between integers. -/
theorem truncate_mem {q : ℚ} {a b : ℤ} (ha : a ≤ q) (hb : q ≤ b) : a ≤ truncate q ∧ truncate q ≤ b := by
  rw [truncate]
  split_ifs
  · exact ⟨Int.le_floor.mpr ha,Int.cast_le.mp ((Int.floor_le q).trans hb)⟩
  · exact ⟨Int.cast_le.mp (ha.trans (Int.le_ceil q)),Int.ceil_le.mpr hb⟩

end Aret.Lib
