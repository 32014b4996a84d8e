import Mathlib.Data.List.Nodup
import Mathlib.Logic.Function.Basic
import Mathlib.Tactic.Common

/-! Parties that update one shared row by reading it, computing, and writing the
result back. Reads and writes are atomic, the pair is not. A computation may fail,
and nothing is written then. -/
namespace Aret.Lib.ReadModifyWrite

inductive Stage (ρ : Type) where
  | pending
  | holding (row : ρ)
  | finished
  | failed

structure State (ι ρ : Type) where
  store : ρ
  stage : ι → Stage ρ

variable {ι ρ : Type}

def step [DecidableEq ι] (update : ι → ρ → Option ρ) (s : State ι ρ) (i : ι) : State ι ρ :=
  match s.stage i with
  | .pending => ⟨s.store,Function.update s.stage i (.holding s.store)⟩
  | .holding row =>
    match update i row with
    | some row => ⟨row,Function.update s.stage i .finished⟩
    | none => ⟨s.store,Function.update s.stage i .failed⟩
  | .finished => s
  | .failed => s

/-- Unless the next move of `i` writes over a row that is no longer the one it read. -/
def Fresh (s : State ι ρ) (i : ι) : Prop := ∀ row, s.stage i = .holding row → row = s.store

def runAll (update : ι → ρ → Option ρ) (init : ρ) (order : List ι) : Option ρ :=
  order.foldlM (fun row i => update i row) init

/-- The store is what the finished parties give when they run one after another
in some order. -/
def Serial (update : ι → ρ → Option ρ) (init : ρ) (s : State ι ρ) : Prop :=
  ∃ order : List ι, order.Nodup ∧ (∀ i, i ∈ order ↔ s.stage i = .finished) ∧ runAll update init order = some s.store

variable {update : ι → ρ → Option ρ} {init : ρ} {s : State ι ρ} {i : ι}

theorem Serial.start (update : ι → ρ → Option ρ) (init : ρ) : Serial update init ⟨init,fun _ => .pending⟩ :=
  ⟨[],List.nodup_nil,by simp,rfl⟩

theorem runAll_concat (update : ι → ρ → Option ρ) (init : ρ) (order : List ι) (i : ι) :
    runAll update init (order ++ [i]) = (runAll update init order).bind (update i) := by
  rw [runAll,List.foldlM_append]
  simp only [List.foldlM_cons,List.foldlM_nil,bind_pure]
  rfl

/-- A fresh move keeps the store serial: a write goes to the end of the order. -/
theorem Serial.step [DecidableEq ι] (h : Serial update init s) (hf : Fresh s i) :
    Serial update init (step update s i) := by
  obtain ⟨order,hn,hm,hs⟩ := h
  -- the finished parties are the same when `i` goes on to any other stage
  have hsame : ∀ stage : Stage ρ, s.stage i ≠ .finished → stage ≠ .finished →
      ∀ j, j ∈ order ↔ Function.update s.stage i stage j = .finished := by
    intro stage hi hstage j
    rw [hm]
    by_cases hj : j = i
    · subst hj
      simp [hi,hstage]
    · simp [hj]
  unfold ReadModifyWrite.step
  cases hi : s.stage i with
  | pending => exact ⟨order,hn,hsame _ (by simp [hi]) (by simp),hs⟩
  | holding row =>
    have hnot : i ∉ order := by simp [hm,hi]
    cases hrow : update i row with
    | none => simpa only [hrow] using ⟨order,hn,hsame .failed (by simp [hi]) (by simp),hs⟩
    | some new =>
      simp only [hrow]
      refine ⟨order ++ [i],hn.append (List.nodup_singleton i) (by simpa using hnot),?_,?_⟩
      · intro j
        by_cases hj : j = i
        · subst hj
          simp
        · simp [hj,hm]
      · rw [runAll_concat,hs,Option.bind_some,← hf row hi,hrow]
  | finished => exact ⟨order,hn,hm,hs⟩
  | failed => exact ⟨order,hn,hm,hs⟩

/-- Where the parties can run in any order, a fresh one does not fail. -/
theorem Serial.update_defined (h : Serial update init s) (hf : Fresh s i)
    (hdefined : ∀ order : List ι, order.Nodup → ∃ row, runAll update init order = some row) {row : ρ}
    (hi : s.stage i = .holding row) : ∃ new, update i row = some new := by
  obtain ⟨order,hn,hm,hs⟩ := h
  have hnot : i ∉ order := by simp [hm,hi]
  obtain ⟨new,hnew⟩ := hdefined (order ++ [i]) (hn.append (List.nodup_singleton i) (by simpa using hnot))
  rw [runAll_concat,hs,Option.bind_some,← hf row hi] at hnew
  exact ⟨new,hnew⟩

end Aret.Lib.ReadModifyWrite
