import Aret.Engine.ReEngine
import Mathlib.Algebra.BigOperators.Ring.Finset
import Mathlib.Algebra.Order.BigOperators.Group.List
import Mathlib.Data.Rat.Floor
import Mathlib.Tactic.FieldSimp
import Mathlib.Tactic.GCongr

/-! The quota arithmetic of `GetRecommend`: at most five tags share seven tenths
of `num` in proportion to their counts. Its five roundings leave each share below
the tag's part of `num`, so that every cast to `int` is defined. -/
namespace Aret.Engine
open Lib

/-- `prios[i] * di * num * 0.7` for a count out of a sum of counts. -/
def share (fp : Rounding 53) (sum count num : Int) : ℚ :=
  fp.round (fp.round (fp.round (count * fp.round (1 / sum)) * num) * fp.round (7 / 10))

/-- The sum of the counts in use, as a whole number. -/
def total (used : List TagItem) : Int := (used.map TagItem.num).sum

/-- A tag's quota: its share of `num` without the fraction, capped at 2. -/
def quota (fp : Rounding 53) (used : List TagItem) (num : Int) (item : TagItem) : Int :=
  min 2 (truncate (share fp (total used) item.num num))

/-- A seventh of seven tenths of 10 is 1, but not in a `double`. -/
example : share (.exact 53) 7 1 10 = 1 ∧ share double 7 1 10 < 1 := by decide +kernel

theorem allPrio_eq (used : List TagItem) : allPrio used = total used := by
  rw [allPrio,total,Int.cast_list_sum,List.map_map]
  rfl

theorem tagNum_le_two {fp : Rounding 53} {prio di : ℚ} {num n : Int} (h : tagNum fp prio di num = some n) : n ≤ 2 := by
  obtain ⟨m,-,rfl⟩ := Option.map_eq_some_iff.mp h
  split_ifs <;> omega

theorem share_exact (sum count num : Int) :
    share (.exact 53) sum count num = (7 * count * num : Int) / (10 * sum : Int) := by
  simp only [share,Rounding.exact_round]
  push_cast
  ring

section
variable (fp : Rounding 53) {sum count num : Int} (hcount : 0 ≤ count) (hsum : 0 < sum)
include hcount hsum

theorem abs_share_le (num : Int) : |share fp sum count num| ≤ count * |(num : ℚ)| / sum := by
  have hc : (0 : ℚ) ≤ count := by exact_mod_cast hcount
  have hs : (0 : ℚ) < sum := by exact_mod_cast hsum
  obtain ⟨u,hu⟩ : ∃ u : ℚ, 1 + 1 / 2^53 = u := ⟨_,rfl⟩
  have hround : ∀ {q b : ℚ}, |q| ≤ b → |fp.round q| ≤ u * b := fun h => hu ▸ fp.abs_round_le h
  have hpos : 0 ≤ u := by
    rw [← hu]
    positivity
  have hdi : |fp.round (1 / sum)| ≤ u * (1 / sum) := hround (abs_of_pos (by positivity)).le
  have hprio : |fp.round (count * fp.round (1 / sum))| ≤ u * (count * (u * (1 / sum))) := by
    apply hround
    rw [abs_mul,abs_of_nonneg hc]
    gcongr
  have hnum : |fp.round (fp.round (count * fp.round (1 / sum)) * num)| ≤
      u * (u * (count * (u * (1 / sum))) * |(num : ℚ)|) := by
    apply hround
    rw [abs_mul]
    gcongr
  have hradio : |fp.round (7 / 10)| ≤ u * (7 / 10) := hround (abs_of_pos (by norm_num)).le
  -- five roundings do not make up for the factor of seven tenths
  have hfive : u^5 * (7 / 10) ≤ 1 := by
    rw [← hu]
    norm_num
  calc |share fp sum count num|
    _ ≤ u * (u * (u * (count * (u * (1 / sum))) * |(num : ℚ)|) * (u * (7 / 10))) := by
      apply hround
      rw [abs_mul]
      gcongr
    _ = u^5 * (7 / 10) * (count * |(num : ℚ)| / sum) := by ring
    _ ≤ 1 * (count * |(num : ℚ)| / sum) := by gcongr
    _ = count * |(num : ℚ)| / sum := one_mul _

theorem share_nonneg (hnum : 0 ≤ num) : 0 ≤ share fp sum count num := by
  have hc : (0 : ℚ) ≤ count := by exact_mod_cast hcount
  have hs : (0 : ℚ) < sum := by exact_mod_cast hsum
  have hn : (0 : ℚ) ≤ num := by exact_mod_cast hnum
  have hdi : 0 ≤ fp.round (1 / sum) := fp.round_nonneg (by positivity)
  have hprio : 0 ≤ fp.round (count * fp.round (1 / sum)) := fp.round_nonneg (by positivity)
  have hradio : 0 ≤ fp.round (7 / 10) := fp.round_nonneg (by norm_num)
  exact fp.round_nonneg (mul_nonneg (fp.round_nonneg (mul_nonneg hprio hn)) hradio)

theorem share_nonpos (hnum : num ≤ 0) : share fp sum count num ≤ 0 := by
  have hc : (0 : ℚ) ≤ count := by exact_mod_cast hcount
  have hs : (0 : ℚ) < sum := by exact_mod_cast hsum
  have hn : (num : ℚ) ≤ 0 := by exact_mod_cast hnum
  have hdi : 0 ≤ fp.round (1 / sum) := fp.round_nonneg (by positivity)
  have hprio : 0 ≤ fp.round (count * fp.round (1 / sum)) := fp.round_nonneg (by positivity)
  have hradio : 0 ≤ fp.round (7 / 10) := fp.round_nonneg (by norm_num)
  exact fp.round_nonpos (mul_nonpos_of_nonpos_of_nonneg
    (fp.round_nonpos (mul_nonpos_of_nonneg_of_nonpos hprio hn)) hradio)

/-- A share lies between nothing and all of `num`. -/
theorem share_mem (hle : count ≤ sum) (num : Int) :
    ((min num 0 : Int) : ℚ) ≤ share fp sum count num ∧ share fp sum count num ≤ (max num 0 : Int) := by
  have hs : (0 : ℚ) < sum := by exact_mod_cast hsum
  have hpart : (count : ℚ) * |(num : ℚ)| / sum ≤ |(num : ℚ)| := by
    rw [div_le_iff₀ hs,mul_comm]
    gcongr
  obtain ⟨hlow,hhigh⟩ := abs_le.mp ((abs_share_le fp hcount hsum num).trans hpart)
  rcases le_total 0 num with hnum | hnum
  · have hn : |(num : ℚ)| = num := abs_of_nonneg (by exact_mod_cast hnum)
    rw [min_eq_right hnum,max_eq_left hnum,Int.cast_zero]
    exact ⟨share_nonneg fp hcount hsum hnum,hn ▸ hhigh⟩
  · have hn : -|(num : ℚ)| = num := by rw [abs_of_nonpos (by exact_mod_cast hnum),neg_neg]
    rw [min_eq_left hnum,max_eq_right hnum,Int.cast_zero]
    exact ⟨hn ▸ hlow,share_nonpos fp hcount hsum hnum⟩

end

section
variable (fp : Rounding 53) {used : List TagItem} (hcounts : ∀ item ∈ used, 0 ≤ item.num)
include hcounts

theorem le_total_of_mem {item : TagItem} (hi : item ∈ used) : item.num ≤ total used :=
  List.single_le_sum (by simpa using hcounts) _ (List.mem_map_of_mem hi)

theorem total_pos (hprio : allPrio used ≠ 0) : 0 < total used := by
  have hne : total used ≠ 0 := fun h => hprio (by rw [allPrio_eq,h,Int.cast_zero])
  exact lt_of_le_of_ne (List.sum_nonneg (by simpa using hcounts)) hne.symm

/-- The cast is defined, and gives the quota. -/
theorem tagNum_eq (hprio : allPrio used ≠ 0) {item : TagItem} (hi : item ∈ used) {num : Int} (hl : -2^31 ≤ num)
    (hu : num < 2^31) : tagNum fp item.num (fp.round (1 / allPrio used)) num = some (quota fp used num item) := by
  have htotal := total_pos hcounts hprio
  obtain ⟨hlow,hhigh⟩ := share_mem fp (hcounts item hi) htotal (le_total_of_mem hcounts hi) num
  obtain ⟨hlow,hhigh⟩ := truncate_mem hlow hhigh
  have hcast : truncToInt (share fp (total used) item.num num) =
      some (truncate (share fp (total used) item.num num)) := if_pos (by omega)
  rw [tagNum,allPrio_eq,recommendRadio,← share,hcast,Option.map_some,quota]
  congr 1
  split_ifs <;> omega

variable {num : Int} (hnum : 0 ≤ num) (hprio : allPrio used ≠ 0)
include hnum hprio

theorem quota_nonneg {item : TagItem} (hi : item ∈ used) : 0 ≤ quota fp used num item := by
  have hshare := share_nonneg fp (hcounts item hi) (total_pos hcounts hprio) hnum
  rw [quota,truncate_of_nonneg hshare]
  exact le_min (by decide) (Int.floor_nonneg.mpr hshare)

theorem sum_quotas_le_shares :
    (((used.map (quota fp used num)).sum : Int) : ℚ) ≤
      (used.map (fun item => share fp (total used) item.num num)).sum := by
  rw [Int.cast_list_sum,List.map_map]
  apply List.sum_le_sum
  intro item hi
  have hshare := share_nonneg fp (hcounts item hi) (total_pos hcounts hprio) hnum
  rw [Function.comp_apply,quota,truncate_of_nonneg hshare]
  exact (Int.cast_le.mpr (min_le_right _ _)).trans (Int.floor_le _)

/-- All quotas together stay within `num`. -/
theorem sum_quotas_le : (used.map (quota fp used num)).sum ≤ num := by
  have htotal := total_pos hcounts hprio
  have hs : (0 : ℚ) < total used := by exact_mod_cast htotal
  have hn : |(num : ℚ)| = num := abs_of_nonneg (by exact_mod_cast hnum)
  have hshares : (used.map (fun item => share fp (total used) item.num num)).sum ≤ (num : ℚ) := by
    calc (used.map (fun item => share fp (total used) item.num num)).sum
      _ ≤ (used.map (fun item => (item.num : ℚ) * (num / total used))).sum := by
        apply List.sum_le_sum
        intro item hi
        have hle := abs_share_le fp (hcounts item hi) htotal num
        rw [hn,mul_div_assoc] at hle
        exact (le_abs_self _).trans hle
      _ = total used * (num / total used) := by rw [List.sum_map_mul_right,← allPrio_eq,allPrio]
      _ = num := mul_div_cancel₀ _ hs.ne'
  exact_mod_cast (sum_quotas_le_shares fp hcounts hnum hprio).trans hshares

end

end Aret.Engine
