import Aret.Engine.RandomCursor

/-! The random fill at the end of the table, when `Scan` reports an exhausted
range by an empty slice. Only the answer `false` resets the cursor, so that a
cursor behind the last row stays where it is. -/
namespace Aret.Engine
open Lib Tera

/-- A call on this table, by a server that answers `true` throughout. -/
structure FillCall.On (call : FillCall) (rows : TableSlice) : Prop where
  table : call.rows = rows
  scan : ScanEmpties call.scan rows

def fillOne (rows : TableSlice) : FillCall := ⟨rows,answeredScan rows,1,.empty⟩

theorem fillOne_on (rows : TableSlice) : (fillOne rows).On rows := ⟨rfl,answeredScan_empties rows⟩

/-- Of any two calls that ask for a row, one emits. -/
def EmitsInTwo (rows : TableSlice) (cursor : Key) : Prop :=
  ∀ first second : FillCall, first.On rows → second.On rows → 1 ≤ first.num → 1 ≤ second.num →
    ∃ log last, runFill cursor [first,second] = some (log,last) ∧ emitted log ≠ []

def EmitsLater (rows : TableSlice) (cursor : Key) : Prop :=
  ∃ later : List FillCall, (∀ call ∈ later, call.On rows) ∧
    ∃ log last, runFill cursor later = some (log,last) ∧ emitted log ≠ []

def taken (call : FillCall) (lastRand : Key) : List (Key × Record) :=
  (call.scan lastRand (bytes "~")).2.entries.take call.num.toNat

theorem taken_subset {call : FillCall} (hs : ScanEmpties call.scan call.rows) (lastRand : Key) {p : Key × Record}
    (hp : p ∈ taken call lastRand) : p ∈ call.rows.entries ∧ lastRand ≤ p.1 ∧ p.1 < bytes "~" :=
  hs.mem (List.take_subset _ _ hp)

/-- One call: it emits the rows it takes and moves behind them, without a reset. -/
theorem runFill_cons {call : FillCall} (hs : ScanEmpties call.scan call.rows)
    (hc : ∀ p ∈ call.rows.entries, HasCells p.2) (lastRand : Key) (calls : List FillCall) :
    runFill lastRand (call :: calls) =
      (runFill (cursorAfter lastRand (taken call lastRand)) calls).map (fun rest =>
        (.scan call.rows :: (taken call lastRand).map (fun p => .emit p.1) ++ rest.1,rest.2)) := by
  have hstart : fillStart call.scan lastRand = (lastRand,(call.scan lastRand (bytes "~")).2.entries) := by
    rw [fillStart,if_pos (hs.answer _ _)]
  have hcells : ∀ p ∈ taken call lastRand, HasCells p.2 := fun p hp => hc p (taken_subset hs lastRand hp).1
  have hout : randomRecommend call.scan call.num call.lists lastRand =
      some (true,filled call.lists lastRand (taken call lastRand)) := by
    rw [randomRecommend_some,hstart]
    exact ⟨hcells,rfl⟩
  have hlog : callLog call lastRand (filled call.lists lastRand (taken call lastRand)).1.tags =
      .scan call.rows :: (taken call lastRand).map (fun p => .emit p.1) := by
    simp [callLog_eq,filled,hs.answer]
  rw [runFill,hout,Option.bind_some,hlog]
  rfl

theorem emitted_scan (rows : TableSlice) (taken : List (Key × Record)) :
    emitted (.scan rows :: taken.map (fun p => .emit p.1)) = taken.map Prod.fst := by
  rw [← emitted_emit (taken.map Prod.fst),List.map_map]
  rfl

theorem runFill_total (calls : List FillCall) (lastRand : Key) (hs : ∀ call ∈ calls, ScanEmpties call.scan call.rows)
    (hc : ∀ call ∈ calls, ∀ p ∈ call.rows.entries, HasCells p.2) :
    ∃ log last, runFill lastRand calls = some (log,last) := by
  induction calls generalizing lastRand with
  | nil => exact ⟨[],lastRand,rfl⟩
  | cons call calls ih =>
    rw [List.forall_mem_cons] at hs hc
    obtain ⟨log,last,hrun⟩ := ih (cursorAfter lastRand (taken call lastRand)) hs.2 hc.2
    rw [runFill_cons hs.1 hc.1,hrun]
    exact ⟨_,_,rfl⟩

section
variable {rows : TableSlice} {cursor : Key} (hc : ∀ p ∈ rows.entries, HasCells p.2)
include hc

/-- Behind the last row nothing is emitted and the cursor never moves again. -/
theorem runFill_stuck (hend : (rows.between cursor (bytes "~")).entries = []) (later : List FillCall)
    (hon : ∀ call ∈ later, call.On rows) : ∃ log, runFill cursor later = some (log,cursor) ∧ emitted log = [] := by
  induction later with
  | nil => exact ⟨[],rfl,rfl⟩
  | cons call later ih =>
    rw [List.forall_mem_cons] at hon
    obtain ⟨⟨rfl,hs⟩,hlater⟩ := hon
    have hslice := hs.initial cursor (bytes "~")
    rw [hend,List.prefix_nil] at hslice
    have hnone : taken call cursor = [] := by rw [taken,hslice,List.take_nil]
    obtain ⟨log,hrun,hlog⟩ := ih hlater
    rw [runFill_cons hs hc,hnone]
    refine ⟨.scan call.rows :: log,?_,hlog⟩
    rw [cursorAfter,List.getLast?_nil]
    exact Option.map_eq_some_iff.mpr ⟨_,hrun,rfl⟩

/-- With a row ahead the first call that asks for one emits. -/
theorem runFill_emits (hahead : (rows.between cursor (bytes "~")).entries ≠ []) {first : FillCall}
    (hfirst : first.On rows) (hnum : 1 ≤ first.num) {rest : List FillCall} (hrest : ∀ call ∈ rest, call.On rows) :
    ∃ log last, runFill cursor (first :: rest) = some (log,last) ∧ emitted log ≠ [] := by
  obtain ⟨rfl,hs⟩ := hfirst
  have hne : taken first cursor ≠ [] := by
    intro h
    rcases List.take_eq_nil_iff.mp h with h | h
    · omega
    · exact hs.progress _ _ hahead h
  obtain ⟨log,last,hrun⟩ := runFill_total rest (cursorAfter cursor (taken first cursor))
    (fun call hm => (hrest call hm).table ▸ (hrest call hm).scan)
    (fun call hm => (hrest call hm).table ▸ hc)
  rw [runFill_cons hs hc,hrun]
  refine ⟨_,_,rfl,?_⟩
  rw [emitted_append,emitted_scan]
  simp [hne]

theorem emitted_stuck (hend : (rows.between cursor (bytes "~")).entries = []) {later : List FillCall}
    (hon : ∀ call ∈ later, call.On rows) {log : List CursorEvent} {last : Key}
    (hrun : runFill cursor later = some (log,last)) : emitted log = [] := by
  obtain ⟨log',hrun',hnone⟩ := runFill_stuck hc hend later hon
  rw [hrun] at hrun'
  cases hrun'
  exact hnone

theorem emitsInTwo_iff :
    EmitsInTwo rows cursor ↔ (rows.between cursor (bytes "~")).entries ≠ [] := by
  constructor
  · intro h hend
    obtain ⟨log,last,hrun,hne⟩ := h (fillOne rows) (fillOne rows) (fillOne_on rows) (fillOne_on rows) le_rfl le_rfl
    exact hne (emitted_stuck hc hend (by simp [fillOne_on]) hrun)
  · intro hahead first second hfirst hsecond hnum _
    exact runFill_emits hc hahead hfirst hnum (by simpa using hsecond)

theorem emitsLater_iff :
    EmitsLater rows cursor ↔ (rows.between cursor (bytes "~")).entries ≠ [] := by
  constructor
  · rintro ⟨later,hon,log,last,hrun,hne⟩ hend
    exact hne (emitted_stuck hc hend hon hrun)
  · intro hahead
    refine ⟨[fillOne rows],by simp [fillOne_on],?_⟩
    exact runFill_emits hc hahead (fillOne_on rows) le_rfl (by simp)

end

private theorem rowAhead_iff {rows : TableSlice} {cursor : Key} :
    (rows.between cursor (bytes "~")).entries ≠ [] ↔ ∃ p ∈ rows.entries, cursor ≤ p.1 ∧ p.1 < bytes "~" := by
  rw [← List.length_pos_iff,List.length_pos_iff_exists_mem]
  simp only [OrdMap.mem_between]

/-- Wherever earlier calls have left the cursor, on whatever tables and slices,
two calls that ask for rows emit one, and some later call emits one, exactly
when a row below `"~"` is left at or behind the cursor. -/
theorem random_fill_progress (earlier : List FillCall) (hs : ∀ call ∈ earlier, ScanEmpties call.scan call.rows)
    (hcalls : ∀ call ∈ earlier, ∀ p ∈ call.rows.entries, HasCells p.2) (rows : TableSlice)
    (hc : ∀ p ∈ rows.entries, HasCells p.2) :
    ∃ log cursor, runFill [] earlier = some (log,cursor) ∧
      (EmitsInTwo rows cursor ↔ ∃ p ∈ rows.entries, cursor ≤ p.1 ∧ p.1 < bytes "~") ∧
      (EmitsLater rows cursor ↔ ∃ p ∈ rows.entries, cursor ≤ p.1 ∧ p.1 < bytes "~") := by
  obtain ⟨log,cursor,hrun⟩ := runFill_total earlier [] hs hcalls
  refine ⟨log,cursor,hrun,?_,?_⟩
  · rw [emitsInTwo_iff hc,rowAhead_iff]
  · rw [emitsLater_iff hc,rowAhead_iff]

def oneTagRow : TableSlice :=
  .single (Indexer.tagKey (bytes "a") 1 1) (Indexer.tagRecord (bytes "u") (bytes "t"))

def twoTagRows : TableSlice :=
  oneTagRow.insert (Indexer.tagKey (bytes "b") 1 2) (Indexer.tagRecord (bytes "v") (bytes "t"))

theorem random_fill_progress_sample :
    ∃ log cursor, runFill [] [fillOne twoTagRows] = some (log,cursor) ∧
      EmitsInTwo twoTagRows cursor ∧ EmitsLater twoTagRows cursor := by
  have hcells : ∀ p ∈ twoTagRows.entries, HasCells p.2 := by decide
  obtain ⟨log,cursor,hrun,htwo,hlater⟩ := random_fill_progress [fillOne twoTagRows]
    (List.forall_mem_singleton.mpr (answeredScan_empties twoTagRows)) (List.forall_mem_singleton.mpr hcells)
    twoTagRows hcells
  have hcursor : (runFill [] [fillOne twoTagRows]).map Prod.snd = some (Indexer.tagKey (bytes "a") 1 1 ++ [0]) := rfl
  rw [hrun] at hcursor
  obtain rfl := Option.some.inj hcursor
  exact ⟨log,_,hrun,htwo.mpr (by decide),hlater.mpr (by decide)⟩

/-- One call emits the only row; from then on no call emits anything. -/
theorem random_fill_stuck :
    (∃ p ∈ oneTagRow.entries, p.1 < bytes "~") ∧ (fillOne oneTagRow).On oneTagRow ∧
    ∃ log cursor, runFill [] [fillOne oneTagRow] = some (log,cursor) ∧
      ¬ EmitsInTwo oneTagRow cursor ∧ ¬ EmitsLater oneTagRow cursor := by
  have hc : ∀ p ∈ oneTagRow.entries, HasCells p.2 := by decide
  have hend : (oneTagRow.between (Indexer.tagKey (bytes "a") 1 1 ++ [0]) (bytes "~")).entries = [] := by decide
  refine ⟨by decide,fillOne_on _,_,Indexer.tagKey (bytes "a") 1 1 ++ [0],rfl,?_,?_⟩
  · rw [emitsInTwo_iff hc]
    exact not_not.mpr hend
  · rw [emitsLater_iff hc]
    exact not_not.mpr hend

end Aret.Engine
