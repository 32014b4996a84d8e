import Aret.Engine.ViewTally
import Aret.Lib.ReadModifyWrite
import Mathlib.Data.List.FinRange

/-! Several workers recording views of one user. Each call is the messages it
exchanges with the table server: one `Read` per viewed page, the `Read` of the
user row, the `Write` of the user row. No lock covers the last two. -/
namespace Aret.Engine
open Lib Tera

/-- Where a call stands: pages still to be read and the tags found so far, or
the user row it has read and is about to write back. It crashes when a count
overflows. -/
inductive Phase where
  | reading (todo : List Key) (tags : List Bytes)
  | holding (tags : List Bytes) (userRecord : Record)
  | done
  | crashed
  deriving DecidableEq

structure Workers (σ : Type) (n : Nat) where
  server : σ
  calls : Fin n → Phase

section
variable {σ : Type} {n : Nat} (webtable : Read) (usertable : Table σ) (user : Key)

/-- The server handles the next message of call `i`. -/
def workerStep (w : Workers σ n) (i : Fin n) : Workers σ n :=
  match w.calls i with
  | .reading (url :: todo) tags =>
    ⟨w.server,Function.update w.calls i (.reading todo (tags ++ pageTags webtable url))⟩
  | .reading [] tags => ⟨w.server,Function.update w.calls i (.holding tags (usertable.read w.server user).2)⟩
  | .holding tags userRecord =>
    match recordTags userRecord tags with
    | some userRecord => ⟨(usertable.write w.server user userRecord).2,Function.update w.calls i .done⟩
    | none => ⟨w.server,Function.update w.calls i .crashed⟩
  | .done => w
  | .crashed => w

def runWorkers (w : Workers σ n) (schedule : List (Fin n)) : Workers σ n :=
  schedule.foldl (workerStep webtable usertable user) w

def startWorkers (s : σ) (contents : Fin n → List Key) : Workers σ n := ⟨s,fun i => .reading (contents i) []⟩

/-- If the next message of call `i` is its `Write`, the stored row is still the
one that call has read. -/
def FreshMessage (w : Workers σ n) (i : Fin n) : Prop :=
  match w.calls i with
  | .holding _ userRecord => (usertable.read w.server user).2 = userRecord
  | _ => True

instance (w : Workers σ n) (i : Fin n) : Decidable (FreshMessage usertable user w i) :=
  match h : w.calls i with
  | .reading _ _ => .isTrue (by simp [FreshMessage,h])
  | .holding _ userRecord =>
    decidable_of_iff ((usertable.read w.server user).2 = userRecord) (by simp [FreshMessage,h])
  | .done => .isTrue (by simp [FreshMessage,h])
  | .crashed => .isTrue (by simp [FreshMessage,h])

def FreshRun : Workers σ n → List (Fin n) → Prop
  | _,[] => True
  | w,i :: schedule => FreshMessage usertable user w i ∧ FreshRun (workerStep webtable usertable user w i) schedule

instance decidableFreshRun : ∀ (w : Workers σ n) (schedule : List (Fin n)),
    Decidable (FreshRun webtable usertable user w schedule)
  | _,[] => .isTrue trivial
  | w,i :: schedule =>
    have := decidableFreshRun (workerStep webtable usertable user w i) schedule
    inferInstanceAs (Decidable (_ ∧ _))

end

section
variable {σ : Type} {n : Nat} {webtable : Read} {usertable : Table σ} (user : Key)

def viewUpdate (webtable : Read) (contents : Fin n → List Key) (i : Fin n) (row : Record) : Option Record :=
  recordTags row (contentTags webtable (contents i))

def Phase.stage : Phase → ReadModifyWrite.Stage Record
  | .reading _ _ => .pending
  | .holding _ userRecord => .holding userRecord
  | .done => .finished
  | .crashed => .failed

/-- Forgetting the page reads leaves read-modify-write parties on one row. -/
def Workers.shared (usertable : Table σ) (user : Key) (w : Workers σ n) : ReadModifyWrite.State (Fin n) Record :=
  ⟨(usertable.read w.server user).2,fun i => (w.calls i).stage⟩

/-- The tags found so far and the pages still to be read make up the content. -/
def Collected (webtable : Read) (content : List Key) : Phase → Prop
  | .reading todo tags => tags ++ contentTags webtable todo = contentTags webtable content
  | .holding tags _ => tags = contentTags webtable content
  | .done => True
  | .crashed => True

theorem stage_update (calls : Fin n → Phase) (i : Fin n) (p : Phase) :
    (fun j => (Function.update calls i p j).stage) = Function.update (fun j => (calls j).stage) i p.stage := by
  funext j
  by_cases hj : j = i
  · subst hj
    simp
  · simp [hj]

/-- A message either reads a page, which the shared row does not see, or is a
move of the read-modify-write protocol. -/
theorem workerStep_shared (hT : ReadsBack usertable) {contents : Fin n → List Key} {w : Workers σ n} {i : Fin n}
    (hc : Collected webtable (contents i) (w.calls i)) :
    (workerStep webtable usertable user w i).shared usertable user = w.shared usertable user ∨
    (workerStep webtable usertable user w i).shared usertable user =
      ReadModifyWrite.step (viewUpdate webtable contents) (w.shared usertable user) i := by
  unfold workerStep
  cases hi : w.calls i with
  | reading todo tags =>
    have hs : (w.shared usertable user).stage i = .pending := by simp [Workers.shared,hi,Phase.stage]
    cases todo with
    | nil =>
      right
      simp only [ReadModifyWrite.step,hs]
      simp only [Workers.shared,stage_update]
      rfl
    | cons url todo =>
      left
      simp only [Workers.shared,stage_update]
      rw [show (Phase.reading todo (tags ++ pageTags webtable url)).stage = (w.calls i).stage by rw [hi]; rfl,
        Function.update_eq_self i (fun j => (w.calls j).stage)]
  | holding tags row =>
    right
    have hs : (w.shared usertable user).stage i = .holding row := by simp [Workers.shared,hi,Phase.stage]
    rw [hi] at hc
    obtain rfl : tags = contentTags webtable (contents i) := hc
    simp only [ReadModifyWrite.step,hs,viewUpdate]
    cases recordTags row (contentTags webtable (contents i)) with
    | none =>
      simp only [Workers.shared,stage_update]
      rfl
    | some new =>
      simp only [Workers.shared,stage_update]
      rw [(hT _ _ _).1]
      rfl
  | done => exact .inl rfl
  | crashed => exact .inl rfl

theorem workerStep_other (w : Workers σ n) {i j : Fin n} (hj : j ≠ i) :
    (workerStep webtable usertable user w i).calls j = w.calls j := by
  unfold workerStep
  split
  · simp [hj]
  · simp [hj]
  · split <;> simp [hj]
  · rfl
  · rfl

theorem workerStep_collected {contents : Fin n → List Key} {w : Workers σ n}
    (hc : ∀ j, Collected webtable (contents j) (w.calls j)) (i j : Fin n) :
    Collected webtable (contents j) ((workerStep webtable usertable user w i).calls j) := by
  by_cases hj : j = i
  · subst hj
    have h := hc j
    unfold workerStep
    cases hi : w.calls j with
    | reading todo tags =>
      rw [hi] at h
      cases todo with
      | nil => simpa [Collected,contentTags] using h
      | cons url todo =>
        rw [Collected,contentTags,List.flatMap_cons,← List.append_assoc] at h
        simp only [Function.update_self]
        exact h
    | holding tags row => cases hrow : recordTags row tags <;> simp [Collected,hrow]
    | done => simp [hi,Collected]
    | crashed => simp [hi,Collected]
  · rw [workerStep_other user w hj]
    exact hc j

theorem fresh_shared {w : Workers σ n} {i : Fin n} (hf : FreshMessage usertable user w i) :
    ReadModifyWrite.Fresh (w.shared usertable user) i := by
  intro row hrow
  cases hp : w.calls i with
  | holding tags r =>
    have hr : r = row := by simpa [Workers.shared,hp,Phase.stage] using hrow
    rw [FreshMessage,hp] at hf
    exact hr ▸ hf.symm
  | _ => simp [Workers.shared,hp,Phase.stage] at hrow

theorem workerStep_not_crashed {contents : Fin n → List Key} {init : Record} {w : Workers σ n}
    (hc : ∀ j, Collected webtable (contents j) (w.calls j))
    (hs : ReadModifyWrite.Serial (viewUpdate webtable contents) init (w.shared usertable user))
    (hdefined : ∀ order : List (Fin n), order.Nodup →
      ∃ row, ReadModifyWrite.runAll (viewUpdate webtable contents) init order = some row)
    (hn : ∀ j, w.calls j ≠ .crashed) {i : Fin n} (hf : FreshMessage usertable user w i) (j : Fin n) :
    (workerStep webtable usertable user w i).calls j ≠ .crashed := by
  by_cases hj : j = i
  · subst hj
    have hnj := hn j
    have hcj := hc j
    unfold workerStep
    cases hi : w.calls j with
    | reading todo tags => cases todo <;> simp
    | holding tags row =>
      rw [hi] at hcj
      have hstage : (w.shared usertable user).stage j = .holding row := by simp [Workers.shared,hi,Phase.stage]
      obtain ⟨new,hnew⟩ := hs.update_defined (fresh_shared user hf) hdefined hstage
      rw [viewUpdate,← show tags = contentTags webtable (contents j) from hcj] at hnew
      simp [hnew]
    | done => simp [hi]
    | crashed => exact absurd hi hnj
  · rw [workerStep_other user w hj]
    exact hn j

/-- In every state that fresh messages reach, the row is the one the finished
calls give one after another, and no call has crashed. -/
theorem runWorkers_serial (hT : ReadsBack usertable) {contents : Fin n → List Key} {init : Record}
    (hdefined : ∀ order : List (Fin n), order.Nodup →
      ∃ row, ReadModifyWrite.runAll (viewUpdate webtable contents) init order = some row)
    (schedule : List (Fin n)) (w : Workers σ n) (hc : ∀ j, Collected webtable (contents j) (w.calls j))
    (hn : ∀ j, w.calls j ≠ .crashed)
    (hs : ReadModifyWrite.Serial (viewUpdate webtable contents) init (w.shared usertable user))
    (hf : FreshRun webtable usertable user w schedule) :
    ReadModifyWrite.Serial (viewUpdate webtable contents) init
      ((runWorkers webtable usertable user w schedule).shared usertable user) ∧
    ∀ j, (runWorkers webtable usertable user w schedule).calls j ≠ .crashed := by
  induction schedule generalizing w with
  | nil => exact ⟨hs,hn⟩
  | cons i schedule ih =>
    obtain ⟨hi,hf⟩ := hf
    refine ih _ (workerStep_collected user hc i) (workerStep_not_crashed user hc hs hdefined hn hi) ?_ hf
    rcases workerStep_shared user hT (hc i) with he | he
    · rwa [he]
    · rw [he]
      exact hs.step (fresh_shared user hi)

/-- Serving the messages of one call back to back is a call of `RecordActions`. -/
theorem runWorkers_alone (s : σ) (contents : Fin n → List Key) (i : Fin n) (err : Bytes) :
    let w := runWorkers webtable usertable user (startWorkers s contents) (List.replicate ((contents i).length + 2) i)
    match recordActions webtable usertable s user .view (contents i) err with
    | some out => w.server = out.1 ∧ w.calls i = .done
    | none => w.server = s ∧ w.calls i = .crashed := by
  have hrun (content : List Key) (tags : List Bytes) (w : Workers σ n) (hi : w.calls i = .reading content tags) :
      let w' := runWorkers webtable usertable user w (List.replicate (content.length + 2) i)
      match recordTags (usertable.read w.server user).2 (tags ++ viewTags webtable content) with
      | some row => w'.server = (usertable.write w.server user row).2 ∧ w'.calls i = .done
      | none => w'.server = w.server ∧ w'.calls i = .crashed := by
    induction content generalizing tags w with
    | nil =>
      cases hrow : recordTags (usertable.read w.server user).2 tags <;>
        simp [runWorkers,List.replicate_succ,workerStep,hi,viewTags,hrow]
    | cons url content ih =>
      have hstep := ih (tags ++ pageTags webtable url) (workerStep webtable usertable user w i)
        (by simp [workerStep,hi])
      have hserver : (workerStep webtable usertable user w i).server = w.server := by simp [workerStep,hi]
      rw [List.length_cons,Nat.add_right_comm,List.replicate_succ,runWorkers,List.foldl_cons,← runWorkers]
      rw [hserver] at hstep
      simpa [viewTags] using hstep
  have hstart := hrun (contents i) [] (startWorkers s contents) rfl
  simp only [List.nil_append,startWorkers] at hstart
  simp only [recordActions,ne_eq,not_true_eq_false,if_false,startWorkers]
  cases hrow : recordTags (usertable.read s user).2 (viewTags webtable (contents i)) <;> simpa [hrow] using hstart

theorem runAll_viewUpdate (contents : Fin n → List Key) (order : List (Fin n)) (row : Record) :
    ReadModifyWrite.runAll (viewUpdate webtable contents) row order =
      recordTags row (order.flatMap (fun i => contentTags webtable (contents i))) := by
  induction order generalizing row with
  | nil => rfl
  | cons i order ih =>
    rw [ReadModifyWrite.runAll,List.foldlM_cons,List.flatMap_cons,recordTags_append]
    exact congrArg _ (funext ih)

end

/-- Views are not lost in a run whose every `Write` finds the row its call has
read: in each state the row is a sequential run of the finished calls, and once
all calls are done every tag has gained its occurrences. -/
theorem fresh_views_kept {σ : Type} {n : Nat} (webtable : Read) (usertable : Table σ) (hT : ReadsBack usertable)
    (user : Key) (s : σ) (contents : Fin n → List Key)
    (hb : ∀ t, rowCount (usertable.read s user).2 t +
      ((List.finRange n).flatMap (fun i => contentTags webtable (contents i))).count t ≤ 2^31 - 1)
    (schedule : List (Fin n)) (hf : FreshRun webtable usertable user (startWorkers s contents) schedule) :
    let w := runWorkers webtable usertable user (startWorkers s contents) schedule
    (∀ i, w.calls i ≠ .crashed) ∧
    (∃ order : List (Fin n), order.Nodup ∧ (∀ i, i ∈ order ↔ w.calls i = .done) ∧
      ∃ s', runViews usertable user s (order.map (fun i => ⟨webtable,contents i⟩)) = some s' ∧
        (usertable.read w.server user).2 = (usertable.read s' user).2) ∧
    ((∀ i, w.calls i = .done) → ∀ t, rowCount (usertable.read w.server user).2 t =
      rowCount (usertable.read s user).2 t +
        ((List.finRange n).flatMap (fun i => contentTags webtable (contents i))).count t) := by
  intro w
  have hdefined : ∀ order : List (Fin n), order.Nodup →
      ∃ row, ReadModifyWrite.runAll (viewUpdate webtable contents) (usertable.read s user).2 order = some row := by
    intro order hn
    rw [runAll_viewUpdate,recordTags_defined_iff]
    intro t
    obtain ⟨front,hp,hsub⟩ := hn.subperm (fun i _ => List.mem_finRange i)
    have hc := (hp.flatMap_right (fun i => contentTags webtable (contents i))).count_eq t
    have hle := (hsub.flatMap (fun i => contentTags webtable (contents i))).count_le t
    have hall := hb t
    omega
  obtain ⟨⟨order,hn,hm,hs⟩,hcrash⟩ := runWorkers_serial user hT hdefined schedule (startWorkers s contents)
    (fun j => by simp [startWorkers,Collected]) (fun j => by simp [startWorkers])
    (.start (viewUpdate webtable contents) _) hf
  have hdone (i : Fin n) : i ∈ order ↔ w.calls i = .done := by
    rw [hm]
    change (w.calls i).stage = .finished ↔ _
    cases w.calls i <;> simp [Phase.stage]
  rw [runAll_viewUpdate] at hs
  change recordTags (usertable.read s user).2 _ = some (usertable.read w.server user).2 at hs
  refine ⟨hcrash,⟨order,hn,hdone,?_⟩,?_⟩
  · have hrun := runViews_row hT user s (order.map (fun i => ⟨webtable,contents i⟩))
    rw [viewed,List.flatMap_map,hs] at hrun
    obtain ⟨s',hs',hrow⟩ := Option.map_eq_some_iff.mp hrun
    exact ⟨s',hs',hrow.symm⟩
  · intro hall t
    have hp : order.Perm (List.finRange n) :=
      (List.perm_ext_iff_of_nodup hn (List.nodup_finRange n)).mpr (fun i => by simp [hdone,hall])
    have hc := (hp.flatMap_right (fun i => contentTags webtable (contents i))).count_eq t
    rw [rowCount_recordTags hs,hc]

def pageA : Read := memTable.read (.single (bytes "u") (.single (bytes "tag") (.single 0 (bytes "a"))))

def twoViews : Fin 2 → List Key := fun _ => [bytes "u"]

/-- One call after the other keeps both views. -/
theorem fresh_views_kept_sample :
    rowCount (memTable.read (runWorkers pageA memTable (bytes "user") (startWorkers ∅ twoViews)
      [0,0,0,1,1,1]).server (bytes "user")).2 (bytes "a") = 2 := by
  have hb (t : Bytes) : rowCount (memTable.read ∅ (bytes "user")).2 t +
      ((List.finRange 2).flatMap (fun i => contentTags pageA (twoViews i))).count t ≤ 2^31 - 1 := by
    have hz : rowCount (memTable.read ∅ (bytes "user")).2 t = 0 := rfl
    have hl : ((List.finRange 2).flatMap (fun i => contentTags pageA (twoViews i))).count t ≤ 2 :=
      List.count_le_length.trans (by decide)
    omega
  exact (fresh_views_kept pageA memTable memTable_readsBack (bytes "user") ∅ twoViews hb [0,0,0,1,1,1]
    (by decide)).2.2 (by decide) (bytes "a")

/-- Both workers read the absent row before either writes: one view is lost. -/
theorem concurrent_view_lost :
    let w := runWorkers pageA memTable (bytes "user") (startWorkers ∅ twoViews) [0,0,1,1,0,1]
    (∀ i, w.calls i = .done) ∧
    rowCount (memTable.read w.server (bytes "user")).2 (bytes "a") = 1 ∧
    rowCount (memTable.read ∅ (bytes "user")).2 (bytes "a") +
      ((List.finRange 2).flatMap (fun i => contentTags pageA (twoViews i))).count (bytes "a") = 2 := by
  decide

end Aret.Engine
