import Aret.Lib.ByteOrder
import Mathlib.Data.Nat.Digits.Defs

/-! Decimal text as an output stream writes it and as `atoi` reads it back. -/
namespace Aret.Lib

def digitByte (d : Nat) : UInt8 := UInt8.ofNat (48 + d)

/-- Decimal text of a natural number, most significant digit first. -/
def decimal (n : Nat) : Bytes :=
  if n = 0 then [digitByte 0] else (Nat.digits 10 n).reverse.map digitByte

/-- Decimal text of an integer, as `operator<<` prints it. -/
def showInt : Int → Bytes
  | .ofNat n => decimal n
  | .negSucc n => 45 :: decimal (n + 1)

/-- Conversion of any integer to a 32-bit `int`. -/
def toInt32 (z : Int) : Int := z.bmod (2^32)

def isSpace (b : UInt8) : Bool := b == 32 || (9 ≤ b && b ≤ 13)

def isDigit (b : UInt8) : Bool := 48 ≤ b && b ≤ 57

/-- Reads digits up to the first other byte, a terminating NUL included. -/
def digitsValue (acc : Nat) : Bytes → Nat
  | [] => acc
  | b :: s => if isDigit b then digitsValue (10 * acc + (b.toNat - 48)) s else acc

/-- `atoi` as `(int) strtol(s, NULL, 10)`: blanks, one sign, digits; `strtol`
saturates at 64 bits. -/
def atoi (s : Bytes) : Int :=
  match s.dropWhile isSpace with
  | [] => 0
  | b :: rest =>
    if b = 45 then toInt32 (max (-2^63) (-(digitsValue 0 rest : Int)))
    else if b = 43 then toInt32 (min (2^63 - 1) (digitsValue 0 rest))
    else toInt32 (min (2^63 - 1) (digitsValue 0 (b :: rest)))

theorem digitByte_toNat {d : Nat} (hd : d < 10) : (digitByte d).toNat = 48 + d := by
  simp only [digitByte,UInt8.toNat_ofNat']
  omega

theorem isDigit_iff {b : UInt8} : isDigit b = true ↔ 48 ≤ b.toNat ∧ b.toNat ≤ 57 := by
  simp [isDigit,UInt8.le_iff_toNat_le]

theorem isDigit_digitByte {d : Nat} (hd : d < 10) : isDigit (digitByte d) = true := by
  rw [isDigit_iff,digitByte_toNat hd]
  omega

private theorem digits_lt {n d : Nat} (hd : d ∈ (Nat.digits 10 n).reverse) : d < 10 :=
  Nat.digits_lt_base (by omega) (List.mem_reverse.mp hd)

theorem decimal_ne_nil (n : Nat) : decimal n ≠ [] := by
  unfold decimal
  split
  · simp
  · rename_i hn
    simpa using Nat.digits_ne_nil_iff_ne_zero.mpr hn

theorem isDigit_of_mem_decimal {n : Nat} {b : UInt8} (hb : b ∈ decimal n) : isDigit b = true := by
  unfold decimal at hb
  split at hb
  · rw [List.mem_singleton.mp hb]
    rfl
  · obtain ⟨d,hd,rfl⟩ := List.mem_map.mp hb
    exact isDigit_digitByte (digits_lt hd)

private theorem digitsValue_digits (ds : List Nat) (hd : ∀ d ∈ ds, d < 10) (acc : Nat) :
    digitsValue acc (ds.map digitByte) = ds.foldl (fun a d => d + 10 * a) acc := by
  induction ds generalizing acc with
  | nil => rfl
  | cons d ds ih =>
    have h := hd d (by simp)
    rw [List.map_cons,digitsValue,if_pos (isDigit_digitByte h),digitByte_toNat h,
      ih (fun e he => hd e (by simp [he])),List.foldl_cons]
    congr 1
    omega

/-- Reading decimal text gives the number back. -/
theorem digitsValue_decimal (n : Nat) : digitsValue 0 (decimal n) = n := by
  unfold decimal
  split
  · rename_i hn
    subst hn
    rfl
  · rw [digitsValue_digits _ (fun _ => digits_lt),List.foldl_reverse]
    simpa [Nat.ofDigits_eq_foldr] using Nat.ofDigits_digits 10 n

theorem decimal_injective {m n : Nat} (h : decimal m = decimal n) : m = n := by
  rw [← digitsValue_decimal m,h,digitsValue_decimal]

theorem toInt32_eq {z : Int} (hl : -2^31 ≤ z) (hu : z < 2^31) : toInt32 z = z :=
  Int.bmod_eq_of_le (by omega) (by omega)

theorem toInt32_range (z : Int) : -2^31 ≤ toInt32 z ∧ toInt32 z < 2^31 :=
  ⟨Int.le_bmod (m := 2^32) (by omega),Int.bmod_lt (m := 2^32) (by omega)⟩

theorem atoi_range (s : Bytes) : -2^31 ≤ atoi s ∧ atoi s < 2^31 := by
  unfold atoi
  split
  · omega
  · split_ifs <;> exact toInt32_range _

private theorem decimal_head {n : Nat} {b : UInt8} {s : Bytes} (h : decimal n = b :: s) :
    isSpace b = false ∧ b ≠ 45 ∧ b ≠ 43 := by
  have hb := isDigit_of_mem_decimal (n := n) (b := b) (by simp [h])
  rw [isDigit_iff] at hb
  refine ⟨?_,?_,?_⟩
  · simp [isSpace,UInt8.le_iff_toNat_le,← UInt8.toNat_inj]
    omega
  all_goals
    rintro rfl
    simp at hb

/-- `atoi` undoes the printing of every `int`. -/
theorem atoi_showInt {z : Int} (hl : -2^31 ≤ z) (hu : z < 2^31) : atoi (showInt z) = z := by
  cases z with
  | ofNat n =>
    obtain ⟨b,s,hb⟩ := List.exists_cons_of_ne_nil (decimal_ne_nil n)
    obtain ⟨hs,hm,hp⟩ := decimal_head hb
    have hv := digitsValue_decimal n
    simp only [showInt,atoi,hb,List.dropWhile_cons,hs,Bool.false_eq_true,if_false,if_neg hm,if_neg hp]
    rw [← hb,hv]
    have hn : (Int.ofNat n) = (n : Int) := rfl
    rw [min_eq_right (by omega)]
    exact toInt32_eq hl hu
  | negSucc n =>
    have hv := digitsValue_decimal (n + 1)
    have hn : Int.negSucc n = -((n + 1 : Nat) : Int) := rfl
    simp only [showInt,atoi,List.dropWhile_cons,show isSpace 45 = false from rfl,Bool.false_eq_true,
      if_false,if_true,hv]
    rw [max_eq_right (by omega),← hn]
    exact toInt32_eq hl hu

end Aret.Lib
