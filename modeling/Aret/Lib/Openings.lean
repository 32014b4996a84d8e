import Aret.Lib.ByteOrder

/-! Finding the opened parts of a text: each starts with an opening word and runs
up to the next closing symbol, and within one no other is opened. -/
namespace Aret.Lib

section
variable {α : Type} {p s t : List α} {c : α}

/-- A word that runs over `c` holds it behind its first letter. -/
theorem infix_append_cons_iff (hc : c ∉ p.tail) : p <:+: s ++ c :: t ↔ p <:+: s ∨ p <:+: c :: t := by
  induction s with
  | nil =>
    have hnil : p <:+: [] → p <:+: c :: t := fun h => h.trans List.nil_infix
    rw [List.nil_append,or_iff_right_of_imp hnil]
  | cons b s ih =>
    have hb : p <+: b :: s ++ c :: t ↔ p <+: b :: s := by
      refine ⟨fun h => ?_,fun h => h.trans (List.prefix_append (b :: s) _)⟩
      rcases prefix_append_cons h with hin | ⟨r,rfl⟩
      · exact hin
      · exact absurd (List.mem_append_right s List.mem_cons_self) hc
    have hs : p <:+: b :: s ↔ p <+: b :: s ∨ p <:+: s := List.infix_cons_iff
    rw [List.cons_append,List.infix_cons_iff,← List.cons_append,hb,ih,hs,or_assoc]

theorem cons_infix_append_iff {a : α} (ha : a ∉ s) : a :: p <:+: s ++ t ↔ a :: p <:+: t := by
  induction s with
  | nil => rfl
  | cons b s ih =>
    have hb : ¬ a :: p <+: b :: (s ++ t) := fun h => ha ((List.cons_prefix_cons.mp h).1 ▸ List.mem_cons_self)
    rw [List.cons_append,List.infix_cons_iff,or_iff_right hb,ih (fun h => ha (List.mem_cons_of_mem b h))]

end

section
variable {α : Type} [DecidableEq α]

/-- What follows each opening word; the flag says whether the text starts within
an opened part. -/
def openings (opening : List α) (close : α) : Bool → List α → List (List α)
  | _,[] => []
  | true,b :: s => openings opening close (b ≠ close) s
  | false,b :: s =>
    if opening <+: b :: s then (b :: s).drop opening.length :: openings opening close true s
    else openings opening close false s

variable {opening : List α} {close : α}

theorem openings_eq_nil_iff (hne : opening ≠ []) (s : List α) :
    openings opening close false s = [] ↔ ¬ opening <:+: s := by
  induction s with
  | nil => simp [openings,hne]
  | cons b s ih =>
    rw [openings,List.infix_cons_iff]
    split_ifs with hopen
    · simp [hopen]
    · rw [ih]
      simp [hopen]

theorem openings_append_close (hclose : close ∉ opening) (hne : opening ≠ []) (opened : Bool) (s t : List α) :
    openings opening close opened (s ++ close :: t) =
      (openings opening close opened s).map (· ++ close :: t) ++ openings opening close false t := by
  induction s generalizing opened with
  | nil =>
    cases opened with
    | true => simp [openings]
    | false =>
      have hopen : ¬ opening <+: close :: t := by
        rw [← List.nil_append (close :: t),prefix_append_of_notMem hclose,List.prefix_nil]
        exact hne
      simp [openings,hopen]
  | cons b s ih =>
    cases opened with
    | true => exact ih _
    | false =>
      have hopen : opening <+: b :: (s ++ close :: t) ↔ opening <+: b :: s := by
        rw [← List.cons_append]
        exact prefix_append_of_notMem hclose
      rw [List.cons_append,openings,openings,ih,ih]
      by_cases h : opening <+: b :: s
      · have hdrop : (b :: (s ++ close :: t)).drop opening.length = (b :: s).drop opening.length ++ close :: t :=
          List.drop_append_of_le_length h.length_le
        rw [if_pos h,if_pos (hopen.mpr h),hdrop,List.map_cons,List.cons_append]
      · rw [if_neg h,if_neg (fun h' => h (hopen.mp h'))]

theorem openings_opened {s : List α} (h : close ∉ s) : openings opening close true s = [] := by
  induction s with
  | nil => rfl
  | cons b s ih =>
    have hb : b ≠ close := fun hb => h (hb ▸ List.mem_cons_self)
    rw [openings,decide_eq_true hb]
    exact ih (fun hs => h (List.mem_cons_of_mem b hs))

end
end Aret.Lib
