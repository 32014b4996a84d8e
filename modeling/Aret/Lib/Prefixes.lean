import Aret.Lib.ByteOrder

/-! Words that are compared over their common length, as `memcmp` does: either one
is a front piece of the other, or they differ at a place that also decides the
order of whatever extends them. -/
namespace Aret.Lib

variable {α : Type} [LinearOrder α]

/-- Every extension of `s` sorts before every extension of `t`. -/
def Before (s t : List α) : Prop := ∀ x y, s ++ x < t ++ y

theorem Before.cons {s t : List α} (h : Before s t) (a : α) : Before (a :: s) (a :: t) :=
  fun x y => cons_lt_cons.mpr (.inr ⟨rfl,h x y⟩)

theorem Before.of_lt {a b : α} (h : a < b) (s t : List α) : Before (a :: s) (b :: t) :=
  fun _ _ => cons_lt_cons.mpr (.inl h)

theorem Before.lt {s t : List α} (h : Before s t) : s < t := by
  simpa using h [] []

/-- An extension on the left, a front piece on the right. -/
theorem Before.lt_of_pre {s t u v : List α} (h : Before s t) (hs : u <+: s ∨ s <+: u) (ht : t <+: v) : u < v := by
  obtain ⟨y,rfl⟩ := ht
  rcases hs with ⟨x,rfl⟩ | ⟨x,rfl⟩
  · exact lt_of_le_of_lt (le_append u x) (by simpa using h [] y)
  · exact h x y

theorem Before.append_left {s t : List α} (h : Before s t) (u : List α) : Before (u ++ s) (u ++ t) := by
  induction u with
  | nil => exact h
  | cons a u ih => exact ih.cons a

theorem prefix_or_before (s t : List α) : s <+: t ∨ t <+: s ∨ Before s t ∨ Before t s := by
  induction s generalizing t with
  | nil => exact .inl List.nil_prefix
  | cons a s ih =>
    cases t with
    | nil => exact .inr (.inl List.nil_prefix)
    | cons b t =>
      rcases lt_trichotomy a b with hab | rfl | hab
      · exact .inr (.inr (.inl (.of_lt hab s t)))
      · rcases ih t with h | h | h | h
        · exact .inl (List.cons_prefix_cons.mpr ⟨rfl,h⟩)
        · exact .inr (.inl (List.cons_prefix_cons.mpr ⟨rfl,h⟩))
        · exact .inr (.inr (.inl (h.cons a)))
        · exact .inr (.inr (.inr (h.cons a)))
      · exact .inr (.inr (.inr (.of_lt hab t s)))

/-- The sign of a comparison. -/
def order (s t : List α) : Ordering := if s < t then .lt else if s = t then .eq else .gt

theorem order_eq_iff {s t : List α} : order s t = .eq ↔ s = t := by
  rw [order]
  split_ifs with hlt heq
  · simpa using hlt.ne
  · simpa using heq
  · simpa using heq

theorem order_eq_gt_iff {s t : List α} : order s t = .gt ↔ t < s := by
  rw [order]
  split_ifs with hlt heq
  · simpa using hlt.le
  · simp [heq]
  · simpa using lt_of_le_of_ne (not_lt.mp hlt) (Ne.symm heq)

theorem order_cons (a : α) (s t : List α) : order (a :: s) (a :: t) = order s t := by
  simp [order]

/-- What the comparison over the common length tells. -/
theorem order_common (s t : List α) :
    match order (s.take (min s.length t.length)) (t.take (min s.length t.length)) with
    | .lt => Before s t
    | .eq => s <+: t ∨ t <+: s
    | .gt => Before t s := by
  induction s generalizing t with
  | nil => simp [order]
  | cons a s ih =>
    cases t with
    | nil => simp [order]
    | cons b t =>
      have hmin : min (a :: s).length (b :: t).length = min s.length t.length + 1 := by
        simp only [List.length_cons]
        omega
      have hih := ih t
      rw [hmin,List.take_succ_cons,List.take_succ_cons]
      generalize s.take (min s.length t.length) = u,t.take (min s.length t.length) = v at hih
      rcases lt_trichotomy a b with hab | rfl | hab
      · rw [order,if_pos (cons_lt_cons.mpr (.inl hab))]
        exact .of_lt hab s t
      · rw [order_cons]
        cases hc : order u v with
        | lt =>
          rw [hc] at hih
          exact hih.cons a
        | eq =>
          rw [hc] at hih
          exact hih.imp (fun h => List.cons_prefix_cons.mpr ⟨rfl,h⟩) (fun h => List.cons_prefix_cons.mpr ⟨rfl,h⟩)
        | gt =>
          rw [hc] at hih
          exact hih.cons a
      · rw [order_eq_gt_iff.mpr (cons_lt_cons.mpr (.inl hab))]
        exact .of_lt hab t s

theorem prefix_le {s t : List α} (h : s <+: t) : s ≤ t := by
  obtain ⟨x,rfl⟩ := h
  exact le_append s x

end Aret.Lib
