import Mathlib.Logic.Function.Iterate
import Mathlib.Logic.Function.Basic

/-! Processes that take turns on a shared store. A move names the process that
acts and what it is given to act on. -/
namespace Aret.Lib.Interleaving

structure Config (ι S L : Type) where
  shared : S
  locals : ι → L

variable {ι S L A : Type} [DecidableEq ι] (step : A → S × L → S × L)

def Config.act (c : Config ι S L) (m : ι × A) : Config ι S L :=
  let out := step m.2 (c.shared,c.locals m.1)
  ⟨out.1,Function.update c.locals m.1 out.2⟩

def Config.run (c : Config ι S L) (moves : List (ι × A)) : Config ι S L := moves.foldl (Config.act step) c

variable {step}

variable (step) in
/-- Each move of the run finds what it needs when its turn comes. -/
def Config.Meets (Given : A → S → L → Prop) : Config ι S L → List (ι × A) → Prop
  | _,[] => True
  | c,m :: moves => Given m.2 c.shared (c.locals m.1) ∧ Config.Meets Given (c.act step m) moves

theorem Config.meets_imp {p : Prop} {Given : A → S → L → Prop} {c : Config ι S L} {moves : List (ι × A)}
    (h : p → c.Meets step Given moves) : c.Meets step (fun a s l => p → Given a s l) moves := by
  induction moves generalizing c with
  | nil => trivial
  | cons m moves ih => exact ⟨fun hp => (h hp).1,ih (fun hp => (h hp).2)⟩

/-- Each process keeps the common invariant and its own one, and changes the store
only in ways that the own invariants of the others bear. -/
theorem Config.run_invariant (Inv : S → Prop) (Own : S → L → Prop) (Change : S → S → Prop) (Given : A → S → L → Prop)
    (hstep : ∀ a s l, Given a s l → Inv s → Own s l →
      Inv (step a (s,l)).1 ∧ Own (step a (s,l)).1 (step a (s,l)).2 ∧ Change s (step a (s,l)).1)
    (hstable : ∀ s s' l, Own s l → Change s s' → Own s' l) (moves : List (ι × A)) (c : Config ι S L)
    (hgiven : c.Meets step Given moves) (hinv : Inv c.shared) (hown : ∀ i, Own c.shared (c.locals i)) :
    Inv (c.run step moves).shared ∧ ∀ i, Own (c.run step moves).shared ((c.run step moves).locals i) := by
  induction moves generalizing c with
  | nil => exact ⟨hinv,hown⟩
  | cons m moves ih =>
    obtain ⟨hm,hmoves⟩ := hgiven
    obtain ⟨hinv',hown',hchange⟩ := hstep m.2 c.shared (c.locals m.1) hm hinv (hown m.1)
    refine ih (c.act step m) hmoves hinv' (fun i => ?_)
    by_cases hi : i = m.1
    · subst hi
      simpa [Config.act] using hown'
    · simpa [Config.act,hi] using hstable _ _ _ (hown i) hchange

/-- A part of the store that only process `i` touches changes as if `i` were alone. -/
theorem Config.run_part {P : Type} (part : S → P) (alone : P × L → P × L) (Quiet Own : L → Prop) (i : ι)
    (hquiet : ∀ a s l, Quiet l → part (step a (s,l)).1 = part s ∧ Quiet (step a (s,l)).2)
    (hown : ∀ a s l, Own l → (part (step a (s,l)).1,(step a (s,l)).2) = alone (part s,l) ∧ Own (step a (s,l)).2)
    (moves : List (ι × A)) (c : Config ι S L) (hi : Own (c.locals i)) (hothers : ∀ j ≠ i, Quiet (c.locals j)) :
    (part (c.run step moves).shared,(c.run step moves).locals i) =
      alone^[moves.countP (fun m => m.1 = i)] (part c.shared,c.locals i) := by
  induction moves generalizing c with
  | nil => rfl
  | cons m moves ih =>
    rw [Config.run,List.foldl_cons,← Config.run]
    by_cases hm : m.1 = i
    · subst hm
      obtain ⟨heq,hi'⟩ := hown m.2 c.shared (c.locals m.1) hi
      have hothers' : ∀ j ≠ m.1, Quiet ((c.act step m).locals j) := fun j hj => by
        simpa [Config.act,hj] using hothers j hj
      rw [ih (c.act step m) (by simpa [Config.act] using hi') hothers',List.countP_cons_of_pos (by simp),
        Function.iterate_succ_apply,← heq]
      simp [Config.act]
    · obtain ⟨hpart,hq⟩ := hquiet m.2 c.shared (c.locals m.1) (hothers m.1 hm)
      have hothers' : ∀ j ≠ i, Quiet ((c.act step m).locals j) := by
        intro j hj
        by_cases hjm : j = m.1
        · subst hjm
          simpa [Config.act] using hq
        · simpa [Config.act,hjm] using hothers j hj
      have hlocal : (c.act step m).locals i = c.locals i := by simp [Config.act,Ne.symm hm]
      rw [ih (c.act step m) (hlocal ▸ hi) hothers',List.countP_cons_of_neg (by simp [hm]),hlocal]
      congr 2

end Aret.Lib.Interleaving
