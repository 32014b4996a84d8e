import Aret.Indexer.Ec

/-! What a run of the indexer does, as a function of the rows it starts from:
the main loop ends, visits the rows of its range in order, once each, and its
writes are those of `runLog`. -/
namespace Aret.Indexer
open Lib Tera

/-- Both tables as their rows. -/
structure Contents where
  web : TableSlice
  tag : TableSlice

def Contents.apply (c : Contents) : Event → Contents
  | .row _ => c
  | .tagWrite rowKey kw title ts nt => { c with tag := c.tag.insert (tagKey kw ts nt) (tagRecord rowKey title) }
  | .webWrite rowKey record => { c with web := c.web.insert rowKey record }

/-- The tables after some writes. -/
def Contents.replay (c : Contents) (log : List Event) : Contents := log.foldl Contents.apply c

theorem Contents.replay_append (c : Contents) (s t : List Event) : c.replay (s ++ t) = (c.replay s).replay t :=
  List.foldl_append

def Event.webRow : Event → Option (Key × Record)
  | .webWrite rowKey record => some (rowKey,record)
  | _ => none

def Event.tagRow : Event → Option (Key × Record)
  | .tagWrite rowKey kw title ts nt => some (tagKey kw ts nt,tagRecord rowKey title)
  | _ => none

theorem Contents.replay_eq (c : Contents) (log : List Event) :
    c.replay log = ⟨c.web.insertAll (log.filterMap Event.webRow),c.tag.insertAll (log.filterMap Event.tagRow)⟩ := by
  induction log generalizing c with
  | nil => rfl
  | cons e log ih =>
    rw [replay,List.foldl_cons]
    cases e with
    | row | tagWrite | webWrite => exact ih _

theorem mem_webRows {log : List Event} {k : Key} {r : Record} :
    (k,r) ∈ log.filterMap Event.webRow ↔ .webWrite k r ∈ log := by
  rw [List.mem_filterMap]
  constructor
  · rintro ⟨e,he,h⟩
    cases e with
    | row | tagWrite => exact nomatch h
    | webWrite rowKey record =>
      cases h
      exact he
  · intro h
    exact ⟨_,h,rfl⟩

theorem mem_tagRows {log : List Event} {key : Key} {r : Record} :
    (key,r) ∈ log.filterMap Event.tagRow ↔ ∃ rowKey kw title ts nt, .tagWrite rowKey kw title ts nt ∈ log ∧
      key = tagKey kw ts nt ∧ r = tagRecord rowKey title := by
  rw [List.mem_filterMap]
  constructor
  · rintro ⟨e,he,h⟩
    cases e with
    | row | webWrite => exact nomatch h
    | tagWrite rowKey kw title ts nt =>
      cases h
      exact ⟨_,_,_,_,_,he,rfl,rfl⟩
  · rintro ⟨rowKey,kw,title,ts,nt,he,rfl,rfl⟩
    exact ⟨_,he,rfl⟩

/-- Timestamp and edited html of a row that is indexed. -/
def pageOf (row : Key × Record) : Option (Int × Bytes) :=
  if find (bytes "2014") row.1 = none then none
  else (column row.2 (bytes "page")).entries.head?.map (fun p => (p.1,stripCode p.2))

/-- The record with the edited page in place of the scanned one. -/
def editedRecord (record : Record) (ts : Int) (html : Bytes) : Record :=
  record.insert (bytes "page") ((column record (bytes "page")).insert ts html)

def fillTags : List Bytes → Nat → Record → Record
  | [],_,record => record
  | kw :: kws,i,record =>
    fillTags kws (i + 1) (record.insert (bytes "tag") ((column record (bytes "tag")).insert i kw))

section
variable {σ τ : Type} (env : Env σ τ)

def tagEvents (rowKey title : Bytes) (ts : Int) : Nat → List Bytes → List Event
  | _,[] => []
  | ticks,kw :: kws =>
    .tagWrite rowKey kw title ts (env.getMicros ticks) :: tagEvents rowKey title ts (ticks + 1) kws

def rowTicks (row : Key × Record) : Nat := ((pageOf row).map (fun p => (env.parseKeyword p.2).length)).getD 0

def rowEvents (ticks : Nat) (row : Key × Record) : List Event :=
  .row row.1 :: match pageOf row with
    | none => []
    | some (ts,html) => tagEvents env row.1 (env.parseTitle html) ts ticks (env.parseKeyword html) ++
        [.webWrite row.1 (fillTags (env.parseKeyword html) 0 (editedRecord row.2 ts html))]

theorem rowEvents_of_some {row : Key × Record} {ts : Int} {html : Bytes} (h : pageOf row = some (ts,html))
    (ticks : Nat) : rowEvents env ticks row = [.row row.1] ++
      tagEvents env row.1 (env.parseTitle html) ts ticks (env.parseKeyword html) ++
      [.webWrite row.1 (fillTags (env.parseKeyword html) 0 (editedRecord row.2 ts html))] := by
  simp [rowEvents,h]

theorem rowTicks_of_some {row : Key × Record} {ts : Int} {html : Bytes} (h : pageOf row = some (ts,html)) :
    rowTicks env row = (env.parseKeyword html).length := by
  simp [rowTicks,h]

def runLog : Nat → List (Key × Record) → List Event
  | _,[] => []
  | ticks,row :: rows => rowEvents env ticks row ++ runLog (ticks + rowTicks env row) rows

def runTicks (rows : List (Key × Record)) : Nat := (rows.map (rowTicks env)).sum

theorem runLog_append (ticks : Nat) (s t : List (Key × Record)) :
    runLog env ticks (s ++ t) = runLog env ticks s ++ runLog env (ticks + runTicks env s) t := by
  induction s generalizing ticks with
  | nil => rfl
  | cons row s ih =>
    simp only [List.cons_append,runLog,ih,runTicks,List.map_cons,List.sum_cons,List.append_assoc,Nat.add_assoc]

theorem runTicks_append (s t : List (Key × Record)) : runTicks env (s ++ t) = runTicks env s + runTicks env t := by
  simp [runTicks]

/-- A row as it is printed and passed by. -/
def State.see (st : State σ τ) (rowKey : Key) : State σ τ :=
  { st with lastKey := rowKey ++ [0], log := st.log ++ [.row rowKey] }

theorem processRow_of_none {row : Key × Record} (h : pageOf row = none) (st : State σ τ) :
    processRow env st row = st.see row.1 := by
  simp only [pageOf,ite_eq_left_iff,Option.map_eq_none_iff,List.head?_eq_none_iff] at h
  rw [processRow]
  split_ifs with hyear
  · rfl
  · rw [h hyear]
    rfl

theorem processRow_of_some {row : Key × Record} {ts : Int} {html : Bytes} (h : pageOf row = some (ts,html))
    (st : State σ τ) : ∃ s r, tagLoop env row.1 (env.parseTitle html) ts (env.parseKeyword html) 0
        (st.see row.1,editedRecord row.2 ts html) = (s,r) ∧
      processRow env st row =
        { s with web := (env.table.write s.web row.1 r).2, log := s.log ++ [.webWrite row.1 r] } := by
  refine ⟨_,_,rfl,?_⟩
  rw [pageOf] at h
  rw [processRow]
  split_ifs at h ⊢ with hyear
  cases hpage : (column row.2 (bytes "page")).entries with
  | nil => simp [hpage] at h
  | cons p cells =>
    simp only [hpage,List.head?_cons,Option.map_some,Option.some_inj,Prod.mk.injEq] at h
    obtain ⟨rfl,rfl⟩ := h
    rfl

variable (webRows : σ → TableSlice) (tagRows : τ → TableSlice)

def State.contents (st : State σ τ) : Contents := ⟨webRows st.web,tagRows st.tag⟩

/-- `st'` is `st` after these events, which took `n` clock readings. -/
structure Advances (st st' : State σ τ) (events : List Event) (n : Nat) : Prop where
  log : st'.log = st.log ++ events
  ticks : st'.ticks = st.ticks + n
  contents : st'.contents webRows tagRows = (st.contents webRows tagRows).replay events

variable {env webRows tagRows}

theorem Advances.trans {a b c : State σ τ} {s t : List Event} {m n : Nat} (h : Advances webRows tagRows a b s m)
    (h' : Advances webRows tagRows b c t n) : Advances webRows tagRows a c (s ++ t) (m + n) where
  log := by rw [h'.log,h.log,List.append_assoc]
  ticks := by rw [h'.ticks,h.ticks,Nat.add_assoc]
  contents := by rw [h'.contents,h.contents,Contents.replay_append]

theorem tagLoop_advances (ht : Stores env.tagTable tagRows) (rowKey title : Bytes) (ts : Int) (kws : List Bytes)
    (i : Nat) (st : State σ τ) (record : Record) :
    Advances webRows tagRows st (tagLoop env rowKey title ts kws i (st,record)).1
        (tagEvents env rowKey title ts st.ticks kws) kws.length ∧
      (tagLoop env rowKey title ts kws i (st,record)).1.lastKey = st.lastKey ∧
      (tagLoop env rowKey title ts kws i (st,record)).2 = fillTags kws i record := by
  induction kws generalizing i st record with
  | nil => exact ⟨⟨by simp [tagLoop,tagEvents],rfl,rfl⟩,rfl,rfl⟩
  | cons kw kws ih =>
    have hw : Advances webRows tagRows st (writeTag env rowKey title ts kw st)
        [.tagWrite rowKey kw title ts (env.getMicros st.ticks)] 1 :=
      ⟨rfl,rfl,by simp [State.contents,writeTag,Contents.replay,Contents.apply,ht _ _ _]⟩
    obtain ⟨ha,hl,hr⟩ := ih (i + 1) (writeTag env rowKey title ts kw st)
      (record.insert (bytes "tag") ((column record (bytes "tag")).insert i kw))
    refine ⟨?_,hl,hr⟩
    rw [List.length_cons,Nat.add_comm]
    exact hw.trans ha

theorem processRow_advances (hw : Stores env.table webRows) (ht : Stores env.tagTable tagRows) (st : State σ τ)
    (row : Key × Record) :
    Advances webRows tagRows st (processRow env st row) (rowEvents env st.ticks row) (rowTicks env row) ∧
      (processRow env st row).lastKey = row.1 ++ [0] := by
  have hseen : Advances webRows tagRows st (st.see row.1) [.row row.1] 0 := ⟨rfl,rfl,rfl⟩
  cases h : pageOf row with
  | none =>
    rw [processRow_of_none env h,rowEvents,rowTicks,h]
    exact ⟨hseen,rfl⟩
  | some page =>
    obtain ⟨ts,html⟩ := page
    obtain ⟨s,r,hloop,hrow⟩ := processRow_of_some env h st
    obtain ⟨ha,hl,hr⟩ : Advances webRows tagRows (st.see row.1) _ _ _ ∧ _ := tagLoop_advances ht row.1
      (env.parseTitle html) ts (env.parseKeyword html) 0 (st.see row.1) (editedRecord row.2 ts html)
    rw [hloop] at ha hl hr
    have hwrite : Advances webRows tagRows s (processRow env st row) [.webWrite row.1 r] 0 := by
      rw [hrow]
      exact ⟨rfl,rfl,by simp [State.contents,Contents.replay,Contents.apply,hw _ _ _]⟩
    rw [rowEvents_of_some env h,rowTicks_of_some env h,← hr,← Nat.zero_add (List.length _)]
    refine ⟨(hseen.trans ha).trans hwrite,?_⟩
    rw [hrow]
    exact hl

theorem foldl_processRow_advances (hw : Stores env.table webRows) (ht : Stores env.tagTable tagRows)
    (rows : List (Key × Record)) (st : State σ τ) :
    Advances webRows tagRows st (rows.foldl (processRow env) st) (runLog env st.ticks rows) (runTicks env rows) := by
  induction rows generalizing st with
  | nil => exact ⟨by simp [runLog],rfl,rfl⟩
  | cons row rows ih =>
    have hrow := (processRow_advances hw ht st row).1
    have hrest := ih (processRow env st row)
    rw [hrow.ticks] at hrest
    exact hrow.trans hrest

theorem mem_tagEvents {rowKey title : Bytes} {ts : Int} {ticks : Nat} {kws : List Bytes} {e : Event} :
    e ∈ tagEvents env rowKey title ts ticks kws ↔
      ∃ i kw, kws[i]? = some kw ∧ e = .tagWrite rowKey kw title ts (env.getMicros (ticks + i)) := by
  induction kws generalizing ticks with
  | nil => simp [tagEvents]
  | cons kw kws ih =>
    rw [tagEvents,List.mem_cons,ih]
    constructor
    · rintro (rfl | ⟨i,w,hw,rfl⟩)
      · exact ⟨0,kw,rfl,rfl⟩
      · exact ⟨i + 1,w,hw,by rw [Nat.add_assoc,Nat.add_comm 1]⟩
    · rintro ⟨i,w,hw,rfl⟩
      cases i with
      | zero => exact Or.inl (by simpa using hw.symm)
      | succ i => exact Or.inr ⟨i,w,hw,by rw [Nat.add_assoc,Nat.add_comm 1]⟩

theorem mem_rowEvents_webWrite {ticks : Nat} {row : Key × Record} {rowKey : Key} {record : Record} :
    .webWrite rowKey record ∈ rowEvents env ticks row ↔ rowKey = row.1 ∧ ∃ ts html,
      pageOf row = some (ts,html) ∧ record = fillTags (env.parseKeyword html) 0 (editedRecord row.2 ts html) := by
  cases h : pageOf row with
  | none => simp [rowEvents,h]
  | some page =>
    obtain ⟨ts,html⟩ := page
    rw [rowEvents_of_some env h]
    simp [mem_tagEvents]

theorem mem_runLog {ticks : Nat} {rows : List (Key × Record)} {e : Event} (h : e ∈ runLog env ticks rows) :
    ∃ row ∈ rows, ∃ t, e ∈ rowEvents env t row := by
  induction rows generalizing ticks with
  | nil => exact nomatch h
  | cons row rows ih =>
    rcases List.mem_append.mp h with h | h
    · exact ⟨row,by simp,ticks,h⟩
    · obtain ⟨r,hr,ht⟩ := ih h
      exact ⟨r,List.mem_cons_of_mem _ hr,ht⟩

/-- Rows past the cursor are still as they were when the slice was read. -/
theorem between_after_slice (hw : Stores env.table webRows) (ht : Stores env.tagTable tagRows) (st : State σ τ)
    {front : List (Key × Record)} {q : Key × Record}
    (hrun : front ++ [q] <+: ((webRows st.web).between st.lastKey (bytes "~")).entries) :
    ((webRows st.web).between st.lastKey (bytes "~")).entries = (front ++ [q]) ++
      ((webRows ((front ++ [q]).foldl (processRow env) st).web).between
        ((front ++ [q]).foldl (processRow env) st).lastKey (bytes "~")).entries := by
  have hadv := foldl_processRow_advances hw ht (front ++ [q]) st
  have hlast : ((front ++ [q]).foldl (processRow env) st).lastKey = q.1 ++ [⊥] := by
    rw [List.foldl_append]
    exact (processRow_advances hw ht _ q).2
  have hsorted := ((webRows st.web).between st.lastKey (bytes "~")).sorted.sublist hrun.sublist
  rw [OrdMap.between_split (webRows st.web) hrun (fun k => lt_append_bot_iff),hlast]
  congr 2
  apply OrdMap.between_congr
  intro k hk
  have hweb : webRows ((front ++ [q]).foldl (processRow env) st).web =
      ((st.contents webRows tagRows).replay _).web := congrArg Contents.web hadv.contents
  rw [hweb,Contents.replay_eq]
  rcases OrdMap.find?_insertAll (webRows st.web) ((runLog env st.ticks (front ++ [q])).filterMap Event.webRow) k
    with ⟨r,hr,_⟩ | ⟨_,hfind⟩
  · obtain ⟨row,hrow,t,he⟩ := mem_runLog (mem_webRows.mp hr)
    have hkey : k = row.1 := (mem_rowEvents_webWrite.mp he).1
    have hle : k ≤ q.1 := hkey ▸ OrdMap.le_last hsorted hrow
    exact absurd hk (not_le.mpr (lt_append_bot_iff.mpr hle))
  · exact hfind.symm

/-- The main loop ends, and does to the rows of its range what `runLog` says. -/
theorem mainLoop_advances (hw : Stores env.table webRows) (ht : Stores env.tagTable tagRows)
    (hscan : ∀ s, ScanRuns (env.table.scan s) (webRows s)) (endKey : Key) (fuel : Nat) (st : State σ τ)
    (hfuel : ((webRows st.web).between st.lastKey (bytes "~")).size < fuel) :
    ∃ final, mainLoop env endKey fuel st = some final ∧
      Advances webRows tagRows st final
        (runLog env st.ticks ((webRows st.web).between st.lastKey (bytes "~")).entries)
        (runTicks env ((webRows st.web).between st.lastKey (bytes "~")).entries) := by
  induction fuel generalizing st with
  | zero => exact absurd hfuel (Nat.not_lt_zero _)
  | succ fuel ih =>
    -- the condition of `while` never fails
    have hcond : st.lastKey ≠ [] ∨ st.lastKey ≤ endKey := by
      by_cases hk : st.lastKey = []
      · exact Or.inr (hk ▸ nil_le endKey)
      · exact Or.inl hk
    rw [mainLoop,if_pos hcond]
    have hrun := (hscan st.web).initial st.lastKey (bytes "~")
    rcases List.eq_nil_or_concat' (env.table.scan st.web st.lastKey (bytes "~")).2.entries with hnil | ⟨front,q,hslice⟩
    · have hend : ((webRows st.web).between st.lastKey (bytes "~")).entries = [] := by
        by_contra hne
        exact (hscan st.web).progress _ _ hne hnil
      rw [if_pos (OrdMap.isEmpty_iff.mpr hnil),hend]
      exact ⟨st,rfl,by simp [runLog],rfl,rfl⟩
    · have hfull : ¬ (env.table.scan st.web st.lastKey (bytes "~")).2.isEmpty = true := by
        rw [OrdMap.isEmpty_iff,hslice]
        simp
      rw [if_neg hfull,hslice]
      rw [hslice] at hrun
      have hadv := foldl_processRow_advances hw ht (front ++ [q]) st
      have hsplit := between_after_slice hw ht st hrun
      have hlen := congrArg List.length hsplit
      simp only [OrdMap.size,List.length_append,List.length_singleton] at hlen hfuel
      obtain ⟨final,hfinal,hafter⟩ := ih ((front ++ [q]).foldl (processRow env) st) (by rw [OrdMap.size]; omega)
      refine ⟨final,hfinal,?_⟩
      rw [hadv.ticks] at hafter
      rw [hsplit,runLog_append,runTicks_append env (front ++ [q])]
      exact hadv.trans hafter

/-- A whole run: with fuel for every row of the range, `main` returns. -/
theorem main_advances (hw : Stores env.table webRows) (ht : Stores env.tagTable tagRows)
    (hscan : ∀ s, ScanRuns (env.table.scan s) (webRows s)) (startKey endKey : Key) (web : σ) (tag : τ) {fuel : Nat}
    (hfuel : ((webRows web).between startKey (bytes "~")).size < fuel) :
    ∃ final, main env startKey endKey fuel web tag = some final ∧
      final.log = runLog env 0 ((webRows web).between startKey (bytes "~")).entries ∧
      final.contents webRows tagRows = (Contents.mk (webRows web) (tagRows tag)).replay final.log := by
  obtain ⟨final,hfinal,hadv⟩ := mainLoop_advances hw ht hscan endKey fuel ⟨web,tag,0,startKey,[]⟩ hfuel
  have hlog : final.log = runLog env 0 ((webRows web).between startKey (bytes "~")).entries := hadv.log
  exact ⟨final,hfinal,hlog,hlog ▸ hadv.contents⟩

end

end Aret.Indexer
