import Aret.Indexer.TagRow
import Mathlib.Data.List.Nodup

/-! The random fill and its static cursor. One call emits an initial run of the
rows at the cursor; over a run of calls the emissions go round the table. -/
namespace Aret.Engine
open Lib Tera

/-- The cells that `begin()->second` reads are there. -/
def HasCells (record : Record) : Prop :=
  beginCell (column record (bytes "url")) ≠ none ∧ beginCell (column record (bytes "title")) ≠ none

instance (record : Record) : Decidable (HasCells record) := inferInstanceAs (Decidable (_ ∧ _))

def urlOf (record : Record) : Bytes := (beginCell (column record (bytes "url"))).getD []
def titleOf (record : Record) : Bytes := (beginCell (column record (bytes "title"))).getD []

/-- The cursor behind the last emitted row, left alone when nothing is emitted. -/
def cursorAfter (lastRand : Key) (taken : List (Key × Record)) : Key :=
  (taken.getLast?.map (fun p => p.1 ++ [0])).getD lastRand

/-- What the loop makes of the vectors and the cursor when it takes these rows. -/
def filled (lists : Lists) (lastRand : Key) (taken : List (Key × Record)) : Lists × Key :=
  (⟨lists.urls ++ taken.map (fun p => urlOf p.2),lists.desc ++ taken.map (fun p => titleOf p.2),
    lists.tags ++ taken.map Prod.fst⟩,cursorAfter lastRand taken)

private theorem filled_cons (lists : Lists) (lastRand : Key) (p : Key × Record) (taken : List (Key × Record)) :
    filled lists lastRand (p :: taken) =
      filled ⟨lists.urls ++ [urlOf p.2],lists.desc ++ [titleOf p.2],lists.tags ++ [p.1]⟩ (p.1 ++ [0]) taken := by
  have hc : cursorAfter lastRand (p :: taken) = cursorAfter (p.1 ++ [0]) taken := by
    cases taken with
    | nil => rfl
    | cons q taken => simp [cursorAfter,List.getLast?_cons]
  simp [filled,hc]

/-- The loop takes the first `num - n` rows and is defined exactly when these
have their cells. -/
theorem randomRecommendLoop_some (num : Int) (rows : List (Key × Record)) (n : Int) (lists : Lists) (lastRand : Key)
    (out : Lists × Key) :
    randomRecommendLoop num rows n (lists,lastRand) = some out ↔
      (∀ p ∈ rows.take (num - n).toNat, HasCells p.2) ∧ filled lists lastRand (rows.take (num - n).toNat) = out := by
  induction rows generalizing n lists lastRand with
  | nil => simp [randomRecommendLoop,filled,cursorAfter]
  | cons p rows ih =>
    by_cases hn : n < num
    · have ht : (num - n).toNat = (num - (n + 1)).toNat + 1 := by omega
      rw [ht,List.take_succ_cons,List.forall_mem_cons,filled_cons]
      cases hu : beginCell (column p.2 (bytes "url")) with
      | none => simp [randomRecommendLoop,hn,hu,HasCells]
      | some url =>
        cases hd : beginCell (column p.2 (bytes "title")) with
        | none => simp [randomRecommendLoop,hn,hu,hd,HasCells]
        | some title =>
          have hc : HasCells p.2 := by simp [HasCells,hu,hd]
          have hl : urlOf p.2 = url ∧ titleOf p.2 = title := by simp [urlOf,titleOf,hu,hd]
          rw [randomRecommendLoop,if_pos hn,hu,hd]
          simp only [hc,hl,true_and]
          exact ih (n + 1) _ (p.1 ++ [0])
    · have ht : (num - n).toNat = 0 := by omega
      simp [randomRecommendLoop,hn,ht,filled,cursorAfter]

/-- The cursor and the rows a call starts from, after the reset if there is one. -/
def fillStart (tagtable : Scan) (lastRand : Key) : Key × List (Key × Record) :=
  if (tagtable lastRand (bytes "~")).1 then (lastRand,(tagtable lastRand (bytes "~")).2.entries)
  else ([],(tagtable [] (bytes "~")).2.entries)

theorem randomRecommend_some (tagtable : Scan) (num : Int) (lists : Lists) (lastRand : Key)
    (out : Bool × Lists × Key) :
    randomRecommend tagtable num lists lastRand = some out ↔
      (∀ p ∈ (fillStart tagtable lastRand).2.take num.toNat, HasCells p.2) ∧
      (true,filled lists (fillStart tagtable lastRand).1 ((fillStart tagtable lastRand).2.take num.toNat)) = out := by
  have he : randomRecommend tagtable num lists lastRand =
      (randomRecommendLoop num (fillStart tagtable lastRand).2 0 (lists,(fillStart tagtable lastRand).1)).map
        (fun st => (true,st)) := by
    cases h : tagtable lastRand (bytes "~") with
    | mk ok slice => cases ok <;> simp [randomRecommend,randomScan,fillStart,h]
  rw [he,Option.map_eq_some_iff]
  simp only [randomRecommendLoop_some,Int.sub_zero]
  constructor
  · rintro ⟨st,⟨hc,rfl⟩,rfl⟩
    exact ⟨hc,rfl⟩
  · rintro ⟨hc,rfl⟩
    exact ⟨_,⟨hc,rfl⟩,rfl⟩

/-- What a run of calls shows: the table each `Scan` looks at, the moments
`last_rand` is set to `""`, and the row keys that are emitted. -/
inductive CursorEvent where
  | scan (rows : TableSlice)
  | reset
  | emit (key : Key)

def CursorEvent.isReset : CursorEvent → Bool
  | .reset => true
  | _ => false

/-- One call: the table as it is at that moment, the server's answers, `num`
and the vectors to fill. -/
structure FillCall where
  rows : TableSlice
  scan : Scan
  num : Int
  lists : Lists

/-- The events of a call at cursor `lastRand` that left the vector `tags`. -/
def callLog (call : FillCall) (lastRand : Key) (tags : List Bytes) : List CursorEvent :=
  .scan call.rows :: (if (randomScan call.scan lastRand).1 = some [] then [.reset,.scan call.rows] else []) ++
    (tags.drop call.lists.tags.length).map .emit

/-- The cursor is reset exactly when the server has nothing behind it. -/
theorem callLog_eq (call : FillCall) (lastRand : Key) (tags : List Bytes) :
    callLog call lastRand tags =
      .scan call.rows :: (if (call.scan lastRand (bytes "~")).1 then [] else [.reset,.scan call.rows]) ++
        (tags.drop call.lists.tags.length).map .emit := by
  cases h : call.scan lastRand (bytes "~") with
  | mk ok slice => cases ok <;> simp [callLog,randomScan,h]

def runFill : Key → List FillCall → Option (List CursorEvent × Key)
  | lastRand,[] => some ([],lastRand)
  | lastRand,call :: calls =>
    (randomRecommend call.scan call.num call.lists lastRand).bind (fun out =>
      (runFill out.2.2 calls).map (fun rest => (callLog call lastRand out.2.1.tags ++ rest.1,rest.2)))

def emitted (log : List CursorEvent) : List Key :=
  log.filterMap (fun | .emit key => some key | _ => none)

def Present (log : List CursorEvent) (key : Key) : Prop :=
  ∀ rows, .scan rows ∈ log → ∃ record, (key,record) ∈ rows.entries

/-- The cursor separates what this cycle has emitted from what is still to come. -/
structure CycleInv (lastRand : Key) (cycle : List CursorEvent) : Prop where
  noReset : ∀ e ∈ cycle, e.isReset = false
  increasing : (emitted cycle).Pairwise (· < ·)
  below : ∀ key ∈ emitted cycle, key < lastRand
  covered : ∀ key, key < lastRand → Present cycle key → key ∈ emitted cycle

theorem CycleInv.start : CycleInv [] [] where
  noReset := by simp
  increasing := .nil
  below := by simp [emitted]
  covered key h := absurd h (not_lt.mpr (nil_le key))

theorem emitted_append (s t : List CursorEvent) : emitted (s ++ t) = emitted s ++ emitted t :=
  List.filterMap_append

theorem emitted_emit (keys : List Key) : emitted (keys.map .emit) = keys := by
  induction keys with
  | nil => rfl
  | cons key keys ih => exact congrArg (key :: ·) ih

theorem le_of_lt_cursorAfter {lastRand key : Key} {taken : List (Key × Record)}
    (h : key < cursorAfter lastRand taken) : key < lastRand ∨ ∃ q ∈ taken, key ≤ q.1 := by
  cases he : taken.getLast? with
  | none =>
    rw [List.getLast?_eq_none_iff] at he
    subst he
    exact .inl h
  | some q =>
    rw [cursorAfter,he] at h
    exact .inr ⟨q,List.mem_of_getLast? he,lt_append_bot_iff.mp h⟩

theorem lt_cursorAfter {lastRand : Key} {taken : List (Key × Record)}
    (hs : taken.Pairwise (fun a b => a.1 < b.1)) : ∀ p ∈ taken, p.1 < cursorAfter lastRand taken := by
  intro p hp
  obtain ⟨front,q,rfl⟩ : ∃ front q, taken = front ++ [q] :=
    ⟨_,_,(List.dropLast_append_getLast (List.ne_nil_of_mem hp)).symm⟩
  rw [cursorAfter,List.getLast?_concat]
  exact lt_append_bot_iff.mpr (OrdMap.le_last hs hp)

theorem mem_taken_of_passed {lastRand key : Key} {rows : TableSlice} {taken : List (Key × Record)}
    (ht : taken <+: (rows.between lastRand (bytes "~")).entries) (hge : lastRand ≤ key)
    (hlt : key < cursorAfter lastRand taken) {record : Record} (hr : (key,record) ∈ rows.entries) :
    key ∈ taken.map Prod.fst := by
  rcases le_of_lt_cursorAfter hlt with hlt' | ⟨q,hq,hle⟩
  · exact absurd hlt' (not_lt.mpr hge)
  · have hb := OrdMap.mem_between.mp (ht.subset hq)
    have hmem : (key,record) ∈ (rows.between lastRand (bytes "~")).entries :=
      OrdMap.mem_between.mpr ⟨hr,hge,hle.trans_lt hb.2.2⟩
    exact List.mem_map.mpr ⟨_,OrdMap.mem_of_prefix_of_le (OrdMap.sorted _) ht hq hmem hle,rfl⟩

theorem CycleInv.extend {lastRand : Key} {cycle : List CursorEvent} (h : CycleInv lastRand cycle) {rows : TableSlice}
    {taken : List (Key × Record)} (ht : taken <+: (rows.between lastRand (bytes "~")).entries) :
    CycleInv (cursorAfter lastRand taken) (cycle ++ .scan rows :: (taken.map Prod.fst).map .emit) := by
  have hs : taken.Pairwise (fun a b => a.1 < b.1) := ((rows.between lastRand (bytes "~")).sorted).sublist ht.sublist
  have hge : ∀ p ∈ taken, lastRand ≤ p.1 := fun p hp => (OrdMap.mem_between.mp (ht.subset hp)).2.1
  have hem : emitted (cycle ++ .scan rows :: (taken.map Prod.fst).map .emit) = emitted cycle ++ taken.map Prod.fst := by
    rw [emitted_append]
    exact congrArg _ (emitted_emit _)
  refine ⟨?_,?_,?_,?_⟩
  · intro e he
    rcases List.mem_append.mp he with he | he
    · exact h.noReset e he
    · rcases List.mem_cons.mp he with rfl | he
      · rfl
      · obtain ⟨key,_,rfl⟩ := List.mem_map.mp he
        rfl
  · rw [hem,List.pairwise_append]
    refine ⟨h.increasing,List.pairwise_map.mpr hs,?_⟩
    intro a ha b hb
    obtain ⟨p,hp,rfl⟩ := List.mem_map.mp hb
    exact (h.below a ha).trans_le (hge p hp)
  · intro key hk
    rw [hem] at hk
    rcases List.mem_append.mp hk with hold | hnew
    · cases taken with
      | nil => exact h.below key hold
      | cons p taken =>
        exact ((h.below key hold).trans_le (hge p (by simp))).trans (lt_cursorAfter hs p (by simp))
    · obtain ⟨p,hp,rfl⟩ := List.mem_map.mp hnew
      exact lt_cursorAfter hs p hp
  · intro key hk hpres
    rw [hem,List.mem_append]
    have hold : Present cycle key := fun r hr => hpres r (List.mem_append_left _ hr)
    by_cases hlt : key < lastRand
    · exact .inl (h.covered key hlt hold)
    · obtain ⟨record,hr⟩ := hpres rows (by simp)
      exact .inr (mem_taken_of_passed ht (not_lt.mp hlt) hk hr)

def Complete (cycle : List CursorEvent) : Prop :=
  ∀ key, key < bytes "~" → Present cycle key → (emitted cycle).count key = 1

/-- A cycle ends when nothing is left at the cursor; then it is complete. -/
theorem CycleInv.complete {lastRand : Key} {cycle : List CursorEvent} (h : CycleInv lastRand cycle)
    {rows : TableSlice} (he : (rows.between lastRand (bytes "~")).entries = []) :
    Complete (cycle ++ [.scan rows]) := by
  intro key hk hpres
  have hem : emitted (cycle ++ [.scan rows]) = emitted cycle := by
    rw [emitted_append]
    exact List.append_nil _
  obtain ⟨record,hr⟩ := hpres rows (by simp)
  have hlt : key < lastRand := by
    by_contra hge
    have hmem : (key,record) ∈ (rows.between lastRand (bytes "~")).entries :=
      OrdMap.mem_between.mpr ⟨hr,not_lt.mp hge,hk⟩
    rw [he] at hmem
    cases hmem
  rw [hem]
  apply List.count_eq_one_of_mem
  · exact h.increasing.imp (fun hab => hab.ne)
  · exact h.covered key hlt (fun r hm => hpres r (List.mem_append_left _ hm))

/-- Every cycle of the log increases, and all but the last are complete. -/
def Rotates (log : List CursorEvent) : Prop :=
  (∀ cycle ∈ log.splitOnP CursorEvent.isReset, (emitted cycle).Pairwise (· < ·)) ∧
  ∀ cycle ∈ (log.splitOnP CursorEvent.isReset).dropLast, Complete cycle

theorem Rotates.reset {cycle log : List CursorEvent} (hn : ∀ e ∈ cycle, e.isReset = false)
    (hi : (emitted cycle).Pairwise (· < ·)) (hc : Complete cycle) (h : Rotates log) :
    Rotates (cycle ++ .reset :: log) := by
  have hsplit : (cycle ++ .reset :: log).splitOnP CursorEvent.isReset =
      cycle :: log.splitOnP CursorEvent.isReset := by
    rw [List.splitOnP_append_cons cycle log rfl,List.splitOnP_eq_singleton hn]
    rfl
  rw [Rotates,hsplit,List.dropLast_cons_of_ne_nil (List.splitOnP_ne_nil _ _)]
  exact ⟨List.forall_mem_cons.mpr ⟨hi,h.1⟩,List.forall_mem_cons.mpr ⟨hc,h.2⟩⟩

theorem CycleInv.rotates {lastRand : Key} {cycle : List CursorEvent} (h : CycleInv lastRand cycle) :
    Rotates cycle := by
  rw [Rotates,List.splitOnP_eq_singleton h.noReset]
  simpa using h.increasing

theorem fillStart_prefix {scan : Scan} {rows : TableSlice} (hs : ScanCuts scan rows) (lastRand : Key) (n : Nat) :
    (fillStart scan lastRand).2.take n <+:
      (rows.between (fillStart scan lastRand).1 (bytes "~")).entries := by
  refine (List.take_prefix _ _).trans ?_
  unfold fillStart
  split_ifs
  · exact hs.initial _ _
  · exact hs.initial _ _

/-- One call goes on with the cycle, or finds it at its end and starts the next one. -/
theorem CycleInv.call {lastRand : Key} {cycle : List CursorEvent} (h : CycleInv lastRand cycle) {call : FillCall}
    (hcut : ScanCuts call.scan call.rows) (hc : ∀ p ∈ call.rows.entries, HasCells p.2) :
    ∃ out, randomRecommend call.scan call.num call.lists lastRand = some out ∧
      (CycleInv out.2.2 (cycle ++ callLog call lastRand out.2.1.tags) ∨
        ∃ next, callLog call lastRand out.2.1.tags = .scan call.rows :: .reset :: next ∧ CycleInv out.2.2 next ∧
          CycleInv lastRand (cycle ++ [.scan call.rows]) ∧ Complete (cycle ++ [.scan call.rows])) := by
  let start := fillStart call.scan lastRand
  let taken := start.2.take call.num.toNat
  have ht : taken <+: (call.rows.between start.1 (bytes "~")).entries := fillStart_prefix hcut lastRand _
  have hout := (randomRecommend_some call.scan call.num call.lists lastRand _).mpr
    ⟨fun p hp => hc p (OrdMap.mem_between.mp (ht.subset hp)).1,rfl⟩
  have hlog : callLog call lastRand (filled call.lists start.1 taken).1.tags =
      .scan call.rows :: (if (call.scan lastRand (bytes "~")).1 then [] else [.reset,.scan call.rows]) ++
        (taken.map Prod.fst).map .emit := by simp [callLog_eq,filled]
  refine ⟨_,hout,?_⟩
  rw [hlog]
  cases hok : (call.scan lastRand (bytes "~")).1 with
  | true =>
    have hst : start.1 = lastRand := by simp [start,fillStart,hok]
    have hgoes : CycleInv (cursorAfter start.1 taken) (cycle ++ .scan call.rows :: (taken.map Prod.fst).map .emit) := by
      rw [hst] at ht ⊢
      exact h.extend ht
    exact Or.inl hgoes
  | false =>
    have hst : start.1 = [] := by simp [start,fillStart,hok]
    have hempty : (call.rows.between lastRand (bytes "~")).entries = [] := by
      by_contra hne
      exact absurd ((hcut.answer _ _).mpr hne) (by simp [hok])
    have hclosed : CycleInv lastRand (cycle ++ [.scan call.rows]) := by
      simpa [cursorAfter] using h.extend (List.nil_prefix (l := (call.rows.between lastRand (bytes "~")).entries))
    have hnext : CycleInv (cursorAfter start.1 taken) (.scan call.rows :: (taken.map Prod.fst).map .emit) := by
      rw [hst] at ht ⊢
      exact CycleInv.start.extend ht
    exact Or.inr ⟨_,rfl,hnext,hclosed,h.complete hempty⟩

theorem runFill_rotates (calls : List FillCall) (lastRand : Key) (cycle : List CursorEvent)
    (h : CycleInv lastRand cycle) (hs : ∀ call ∈ calls, ScanCuts call.scan call.rows)
    (hc : ∀ call ∈ calls, ∀ p ∈ call.rows.entries, HasCells p.2) :
    ∃ log last, runFill lastRand calls = some (log,last) ∧ Rotates (cycle ++ log) := by
  induction calls generalizing lastRand cycle with
  | nil => exact ⟨[],lastRand,rfl,by simpa using h.rotates⟩
  | cons call calls ih =>
    obtain ⟨hcut,hs⟩ := List.forall_mem_cons.mp hs
    obtain ⟨hcells,hc⟩ := List.forall_mem_cons.mp hc
    obtain ⟨out,hout,hstep⟩ := h.call hcut hcells
    have hrun : ∀ log last, runFill out.2.2 calls = some (log,last) →
        runFill lastRand (call :: calls) = some (callLog call lastRand out.2.1.tags ++ log,last) := by
      intro log last hl
      rw [runFill,hout,Option.bind_some]
      exact Option.map_eq_some_iff.mpr ⟨_,hl,rfl⟩
    rcases hstep with hgoes | ⟨next,hlog,hnext,hclosed,hcomplete⟩
    · obtain ⟨log,last,hl,hrot⟩ := ih _ _ hgoes hs hc
      refine ⟨_,last,hrun log last hl,?_⟩
      rwa [← List.append_assoc]
    · obtain ⟨log,last,hl,hrot⟩ := ih _ _ hnext hs hc
      refine ⟨_,last,hrun log last hl,?_⟩
      rw [hlog]
      simpa using Rotates.reset hclosed.noReset hclosed.increasing hcomplete hrot

/-- The cursor starts at `""` and goes round: whatever the server's slices, the
quotas and the changes of the table between the calls, each cycle emits strictly
increasing keys, and each completed one emits every row below `"~"` that stayed
in the table exactly once. -/
theorem random_cursor_rotates (calls : List FillCall) (hs : ∀ call ∈ calls, ScanCuts call.scan call.rows)
    (hc : ∀ call ∈ calls, ∀ p ∈ call.rows.entries, HasCells p.2) :
    ∃ log last, runFill [] calls = some (log,last) ∧
      (∀ cycle ∈ log.splitOnP CursorEvent.isReset, (emitted cycle).Pairwise (· < ·)) ∧
      ∀ cycle ∈ (log.splitOnP CursorEvent.isReset).dropLast, ∀ key, key < bytes "~" →
        (∀ rows, .scan rows ∈ cycle → ∃ record, (key,record) ∈ rows.entries) → (emitted cycle).count key = 1 :=
  runFill_rotates calls [] [] .start hs hc

def sampleRows : TableSlice :=
  (OrdMap.single (Indexer.tagKey (bytes "a") 1 1) (Indexer.tagRecord (bytes "u") (bytes "t"))).insert
    (Indexer.tagKey (bytes "b") 1 2) (Indexer.tagRecord (bytes "v") (bytes "t"))

/-- Three calls of one row each on a table of two rows: the third one wraps. -/
def sampleFills : List FillCall := List.replicate 3 ⟨sampleRows,memTable.scan sampleRows,1,.empty⟩

theorem random_cursor_rotates_sample :
    ∃ first second last, (runFill [] sampleFills).map (fun out => (out.1.splitOnP CursorEvent.isReset,out.2)) =
        some ([first,second],last) ∧
      (emitted first).Pairwise (· < ·) ∧ (emitted second).Pairwise (· < ·) ∧
      ∀ p ∈ sampleRows.entries, (emitted first).count p.1 = 1 := by
  obtain ⟨log,last,hrun,hinc,hcomplete⟩ := random_cursor_rotates sampleFills
    (fun call hm => by
      obtain rfl := (List.mem_replicate.mp hm).2
      exact (memTable_scanAll _).cuts)
    (by decide)
  obtain ⟨first,second,hsplit,hscans⟩ : ∃ first second, log.splitOnP CursorEvent.isReset = [first,second] ∧
      ∀ rows, .scan rows ∈ first → rows = sampleRows := by
    have hlog := congrArg (Option.map Prod.fst) hrun
    obtain rfl := Option.some.inj hlog
    exact ⟨_,_,rfl,by simp⟩
  rw [hsplit] at hinc hcomplete
  refine ⟨first,second,last,by rw [hrun,Option.map_some,hsplit],hinc _ (by simp),hinc _ (by simp),fun p hp => ?_⟩
  refine hcomplete first (by simp) p.1 ?_ (fun rows hrows => ⟨p.2,hscans rows hrows ▸ hp⟩)
  revert p
  decide

end Aret.Engine
