import Mathlib.Data.List.Lex
import Mathlib.Data.List.Infix
import Mathlib.Order.BoundedOrder.Basic
import Mathlib.Order.Lattice
import Mathlib.Tactic.Common

/-! Words over an ordered alphabet in dictionary order, and the searches of a
C++ string: the first occurrence of a pattern and the last one of a letter. -/
namespace Aret.Lib

section Order
variable {α : Type} [LinearOrder α]

theorem cons_lt_cons {a b : α} {s t : List α} :
    a :: s < b :: t ↔ a < b ∨ a = b ∧ s < t := List.cons_lt_cons_iff

theorem cons_le_cons {a b : α} {s t : List α} :
    a :: s ≤ b :: t ↔ a < b ∨ a = b ∧ s ≤ t := by
  rw [le_iff_lt_or_eq,le_iff_lt_or_eq,cons_lt_cons,List.cons.injEq]
  tauto

theorem nil_le (s : List α) : [] ≤ s := by
  cases s with
  | nil => exact le_rfl
  | cons a s => exact le_of_lt (List.Lex.nil : ([] : List α) < a :: s)

theorem le_append (s x : List α) : s ≤ s ++ x := by
  induction s with
  | nil => exact nil_le x
  | cons a s ih => exact List.cons_le_cons a ih

/-- The extensions of a word form an interval: whatever lies between the word
and one of them is an extension too. -/
theorem prefix_of_between {s x k : List α} (hl : s ≤ k) (hu : k ≤ s ++ x) : s <+: k := by
  induction s generalizing k with
  | nil => exact List.nil_prefix
  | cons a s ih =>
    cases k with
    | nil => exact absurd hl (not_le.mpr List.Lex.nil)
    | cons b k =>
      rcases cons_le_cons.mp hl with hab | ⟨rfl,hsk⟩
      · rcases cons_le_cons.mp hu with hba | ⟨rfl,_⟩
        · exact absurd hab hba.not_gt
        · exact absurd hab (lt_irrefl _)
      · rcases cons_le_cons.mp hu with hba | ⟨_,hks⟩
        · exact absurd hba (lt_irrefl _)
        · exact List.cons_prefix_cons.mpr ⟨rfl,ih hsk hks⟩

private theorem append_bot_le [OrderBot α] (s : List α) (a : α) (t : List α) :
    s ++ [⊥] ≤ s ++ a :: t := by
  induction s with
  | nil =>
    rcases (bot_le : ⊥ ≤ a).eq_or_lt with rfl | h
    · exact List.cons_le_cons _ (nil_le t)
    · exact cons_le_cons.mpr (.inl h)
  | cons b s ih => exact List.cons_le_cons b ih

/-- Appending the least letter gives the immediate successor of a word. -/
theorem lt_append_bot_iff [OrderBot α] {k s : List α} : k < s ++ [⊥] ↔ k ≤ s := by
  constructor
  · intro hk
    by_contra hlt
    obtain ⟨t,rfl⟩ := prefix_of_between (not_le.mp hlt).le hk.le
    cases t with
    | nil => exact absurd (not_le.mp hlt) (by simp)
    | cons a t => exact absurd hk (not_lt.mpr (append_bot_le s a t))
  · intro hk
    refine hk.trans_lt (lt_of_le_of_ne (le_append s [⊥]) ?_)
    intro he
    simpa using congrArg List.length he

/-- Only the first letter decides whether a word is below a one-letter bound. -/
theorem lt_singleton_iff {b : α} {s : List α} : s < [b] ↔ ∀ a ∈ s.head?, a < b := by
  cases s with
  | nil => simp
  | cons a s => simp [cons_lt_cons]

end Order

section Prefix
variable {α : Type} {p s t : List α} {c : α}

/-- A front piece ends before a given letter or runs over it. -/
theorem prefix_append_cons (h : p <+: s ++ c :: t) : p <+: s ∨ ∃ r, p = s ++ c :: r := by
  rcases List.prefix_or_prefix_of_prefix h (List.prefix_append s _) with hin | ⟨r,rfl⟩
  · exact Or.inl hin
  · cases r with
    | nil => exact Or.inl (by rw [List.append_nil])
    | cons d r =>
      obtain ⟨rfl,-⟩ := List.cons_prefix_cons.mp ((List.prefix_append_right_inj s).mp h)
      exact Or.inr ⟨r,rfl⟩

theorem prefix_append_of_notMem (hc : c ∉ p) : p <+: s ++ c :: t ↔ p <+: s := by
  refine ⟨fun h => ?_,fun h => h.trans (List.prefix_append s _)⟩
  rcases prefix_append_cons h with hin | ⟨r,rfl⟩
  · exact hin
  · exact absurd (List.mem_append_right s List.mem_cons_self) hc

end Prefix

section Search
variable {α : Type} [DecidableEq α]

/-- Position of the first occurrence of `pat`, `none` standing for `npos`. -/
def find (pat : List α) : List α → Option Nat
  | [] => if pat = [] then some 0 else none
  | a :: s => if pat <+: a :: s then some 0 else (find pat s).map (· + 1)

theorem find_eq_none_iff {pat s : List α} : find pat s = none ↔ ¬ pat <:+: s := by
  induction s with
  | nil => by_cases h : pat = [] <;> simp [find,h]
  | cons a s ih =>
    rw [List.infix_cons_iff,not_or,← ih]
    by_cases h : pat <+: a :: s <;> simp [find,h]

theorem split_of_find {pat s : List α} {pos : Nat} (h : find pat s = some pos) :
    ∃ u v, s = u ++ pat ++ v ∧ u.length = pos := by
  induction s generalizing pos with
  | nil =>
    rw [find] at h
    split_ifs at h with hnil
    exact ⟨[],[],by simp [hnil],Option.some.inj h⟩
  | cons a s ih =>
    rw [find] at h
    split_ifs at h with hfront
    · obtain ⟨v,hv⟩ := hfront
      exact ⟨[],v,hv.symm,Option.some.inj h⟩
    · obtain ⟨n,hn,rfl⟩ := Option.map_eq_some_iff.mp h
      obtain ⟨u,v,rfl,rfl⟩ := ih hn
      exact ⟨a :: u,v,rfl,rfl⟩

/-- The first occurrence of a letter ends the longest piece free of it. -/
theorem find_letter {c : α} (u v : List α) (hc : c ∉ u) : find [c] (u ++ c :: v) = some u.length := by
  induction u with
  | nil => simp [find]
  | cons a u ih =>
    have ha : c ≠ a := by simp at hc; exact hc.1
    have hu : c ∉ u := by simp at hc; exact hc.2
    simp [find,ha,ih hu]

/-- Position of the last `c` at or before `pos`; `none` stands for `npos`, both as
the position to search from and as the answer. -/
def rfind (c : α) (s : List α) (pos : Option Nat) : Option Nat :=
  let front := (pos.map (fun p => s.take (p + 1))).getD s
  (front.reverse.findIdx? (· = c)).map (fun j => front.length - 1 - j)

private theorem reverse_findIdx_notMem {c : α} {s : List α} (hc : c ∉ s) : s.reverse.findIdx? (· = c) = none := by
  rw [List.findIdx?_eq_none_iff]
  intro x hx
  have hne : x ≠ c := fun he => hc (he ▸ List.mem_reverse.mp hx)
  simpa using hne

private theorem lastIdx_eq {c : α} {u v : List α} (hc : c ∉ v) :
    (u ++ c :: v).reverse.findIdx? (· = c) = some v.length := by
  have hn := reverse_findIdx_notMem hc
  rw [List.reverse_append,List.reverse_cons,List.append_assoc,List.findIdx?_append]
  simp [hn,List.findIdx?_cons]

/-- From the end, the last `c` is followed by the longest piece free of it. -/
theorem rfind_npos {c : α} (u v : List α) (hc : c ∉ v) : rfind c (u ++ c :: v) none = some u.length := by
  simp only [rfind,Option.map_none,Option.getD_none,lastIdx_eq hc,Option.map_some,Option.some.injEq,
    List.length_append,List.length_cons]
  omega

theorem split_last_unique {c : α} {u v u' v' : List α} (hv : c ∉ v) (hv' : c ∉ v')
    (h : u ++ c :: v = u' ++ c :: v') : u = u' ∧ v = v' := by
  have hpos := rfind_npos u v hv
  rw [h,rfind_npos u' v' hv'] at hpos
  obtain ⟨hu,hcv⟩ := List.append_inj h (Option.some.inj hpos).symm
  exact ⟨hu,(List.cons.inj hcv).2⟩

theorem rfind_notMem {c : α} {s : List α} (hc : c ∉ s) : rfind c s none = none := by
  simp [rfind,reverse_findIdx_notMem hc]

theorem exists_last_of_mem {c : α} {s : List α} (hc : c ∈ s) : ∃ u v, s = u ++ c :: v ∧ c ∉ v := by
  induction s with
  | nil => exact absurd hc List.not_mem_nil
  | cons a s ih =>
    by_cases hs : c ∈ s
    · obtain ⟨u,v,rfl,hv⟩ := ih hs
      exact ⟨a :: u,v,rfl,hv⟩
    · obtain rfl := (List.mem_cons.mp hc).resolve_right hs
      exact ⟨[],s,rfl,hs⟩

theorem rfind_some {c : α} {s front : List α} {pos : Nat} (hs : s.take (pos + 1) = front) :
    rfind c s (some pos) = rfind c front none := by
  simp [rfind,hs]

end Search

/-- Bytes compare unsigned, as `char_traits<char>` does. -/
instance byteLinearOrder : LinearOrder UInt8 where
  le_refl := UInt8.le_refl
  le_trans _ _ _ := UInt8.le_trans
  le_antisymm _ _ := UInt8.le_antisymm
  le_total := UInt8.le_total
  lt_iff_le_not_ge a b := by rw [UInt8.not_le]; exact ⟨fun h => ⟨UInt8.le_of_lt h,h⟩,fun h => h.2⟩
  toDecidableLE := inferInstance
  toDecidableLT := inferInstance
  toDecidableEq := inferInstance

instance byteOrderBot : OrderBot UInt8 where
  bot := 0
  bot_le _ := UInt8.zero_le

abbrev Bytes := List UInt8

/-- The bytes of an ASCII literal. -/
def bytes (s : String) : Bytes := s.toList.map (fun c => c.toNat.toUInt8)

end Aret.Lib
