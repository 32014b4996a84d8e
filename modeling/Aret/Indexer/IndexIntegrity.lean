import Aret.Indexer.RunLog
import Aret.Indexer.TagRow

/-! The two tables agree at every point of an indexing run: a page is written
back with its tags only after each of them has a row of its own, and no later
write takes that row away. -/
namespace Aret.Indexer
open Lib Tera

/-- Every tag of every page has a row in the TagTable that leads back to it. -/
def Indexed (c : Contents) : Prop :=
  ∀ k record i w, c.web.find? k = some record → (column record (bytes "tag")).find? i = some w →
    ∃ key r ts nt, c.tag.find? key = some r ∧ Decodes key w ts nt ∧ cell r (bytes "url") 0 = k

/-- What a run asks of timestamps and clock: none is negative, two different
pages of one timestamp are never written at one reading, and no reading is the
clock part of a key that was there before. -/
structure ClockFits (init : Contents) (log : List Event) : Prop where
  nonneg : ∀ rowKey kw title ts nt, .tagWrite rowKey kw title ts nt ∈ log → 0 ≤ ts ∧ 0 ≤ nt
  apart : ∀ rowKey kw title ts nt rowKey' kw' title', .tagWrite rowKey kw title ts nt ∈ log →
    .tagWrite rowKey' kw' title' ts nt ∈ log → rowKey = rowKey'
  fresh : ∀ rowKey kw title ts nt, .tagWrite rowKey kw title ts nt ∈ log →
    ∀ p ∈ init.tag.entries, ∀ w ts', ¬ Decodes p.1 w ts' nt

theorem find?_fillTags (kws : List Bytes) (i : Nat) (record : Record) (j : Int) :
    (column (fillTags kws i record) (bytes "tag")).find? j =
      (if i ≤ j then kws[(j - i).toNat]? else none).or ((column record (bytes "tag")).find? j) := by
  induction kws generalizing i record with
  | nil => simp [fillTags]
  | cons kw kws ih =>
    rw [fillTags,ih,column,OrdMap.get_insert,if_pos rfl,OrdMap.find?_insert]
    rcases lt_trichotomy j i with hlt | rfl | hgt
    · simp [not_le.mpr hlt,hlt.ne,not_le.mpr (hlt.trans (Int.lt_succ (i : Int)))]
    · simp
    · have hidx : (j - i).toNat = (j - (i + 1 : Nat)).toNat + 1 := by omega
      have hle : ((i + 1 : Nat) : Int) ≤ j := by omega
      rw [if_pos hle,if_pos hgt.le,if_neg hgt.ne',hidx,List.getElem?_cons_succ]

theorem column_editedRecord_tag (record : Record) (ts : Int) (html : Bytes) :
    column (editedRecord record ts html) (bytes "tag") = column record (bytes "tag") := by
  have hne : bytes "tag" ≠ bytes "page" := by decide
  rw [editedRecord,column,OrdMap.get_insert,if_neg hne]
  rfl

/-- The record a row is left with after it has been processed. -/
def indexedRecord {σ τ : Type} (env : Env σ τ) (row : Key × Record) : Record :=
  match pageOf row with
  | none => row.2
  | some (ts,html) => fillTags (env.parseKeyword html) 0 (editedRecord row.2 ts html)

section
variable {σ τ : Type} {env : Env σ τ}

theorem mem_rowEvents_row {ticks : Nat} {row : Key × Record} {k : Key} (h : .row k ∈ rowEvents env ticks row) :
    k = row.1 := by
  cases hp : pageOf row with
  | none => simpa [rowEvents,hp] using h
  | some page =>
    rw [rowEvents_of_some env hp] at h
    simpa [mem_tagEvents] using h

theorem tagWrite_mem_rowEvents_iff {row : Key × Record} {ts : Int} {html : Bytes} (hp : pageOf row = some (ts,html))
    (ticks : Nat) {k w title : Bytes} {ts' nt : Int} :
    .tagWrite k w title ts' nt ∈ rowEvents env ticks row ↔ k = row.1 ∧ title = env.parseTitle html ∧ ts' = ts ∧
      ∃ i, (env.parseKeyword html)[i]? = some w ∧ nt = env.getMicros (ticks + i) := by
  rw [rowEvents_of_some env hp]
  simp only [List.mem_append,List.mem_singleton,mem_tagEvents,reduceCtorEq,false_or,or_false,Event.tagWrite.injEq]
  constructor
  · rintro ⟨i,kw,hi,rfl,rfl,rfl,rfl,rfl⟩
    exact ⟨rfl,rfl,rfl,i,hi,rfl⟩
  · rintro ⟨rfl,rfl,rfl,i,hi,rfl⟩
    exact ⟨i,w,hi,rfl,rfl,rfl,rfl,rfl⟩

theorem mem_rowEvents_tagWrite {ticks : Nat} {row : Key × Record} {rowKey kw title : Bytes} {ts nt : Int}
    (h : .tagWrite rowKey kw title ts nt ∈ rowEvents env ticks row) :
    rowKey = row.1 ∧ ∃ html, pageOf row = some (ts,html) ∧ title = env.parseTitle html := by
  cases hp : pageOf row with
  | none => simp [rowEvents,hp] at h
  | some page =>
    obtain ⟨hkey,htitle,rfl,-⟩ := (tagWrite_mem_rowEvents_iff hp ticks).mp h
    exact ⟨hkey,page.2,rfl,htitle⟩

theorem tagWrite_mem_rowEvents {row : Key × Record} {ts : Int} {html w : Bytes} {i : Nat}
    (hp : pageOf row = some (ts,html)) (hw : (env.parseKeyword html)[i]? = some w) (ticks : Nat) :
    .tagWrite row.1 w (env.parseTitle html) ts (env.getMicros (ticks + i)) ∈ rowEvents env ticks row :=
  (tagWrite_mem_rowEvents_iff hp ticks).mpr ⟨rfl,rfl,rfl,i,hw,rfl⟩

theorem rowEvents_whole {ticks : Nat} {row : Key × Record} {log : List Event} (hlog : log <+: rowEvents env ticks row)
    {k : Key} {r : Record} (h : .webWrite k r ∈ log) : log = rowEvents env ticks row := by
  obtain ⟨-,ts,html,hp,-⟩ := mem_rowEvents_webWrite.mp (hlog.subset h)
  rw [rowEvents_of_some env hp] at hlog ⊢
  rcases List.prefix_concat_iff.mp hlog with hall | hcut
  · exact hall
  · exact absurd (hcut.subset h) (by simp [mem_tagEvents])

/-- A page is written back only after all of its tags. -/
theorem tagWrites_first {ticks : Nat} {rows : List (Key × Record)} {log : List Event}
    (hlog : log <+: runLog env ticks rows) {k : Key} {r : Record} (h : .webWrite k r ∈ log) :
    ∃ row ∈ rows, ∃ ts html, k = row.1 ∧ pageOf row = some (ts,html) ∧
      r = fillTags (env.parseKeyword html) 0 (editedRecord row.2 ts html) ∧
      ∀ w ∈ env.parseKeyword html, ∃ nt, .tagWrite k w (env.parseTitle html) ts nt ∈ log := by
  induction rows generalizing ticks log with
  | nil =>
    rw [List.prefix_nil.mp hlog] at h
    exact nomatch h
  | cons row rows ih =>
    rw [runLog] at hlog
    have hrow : rowEvents env ticks row <+: log := by
      rcases List.prefix_or_prefix_of_prefix hlog (List.prefix_append _ _) with hcut | hrow
      · exact rowEvents_whole hcut h ▸ List.prefix_rfl
      · exact hrow
    obtain ⟨rest,rfl⟩ := hrow
    rcases List.mem_append.mp h with h | h
    · obtain ⟨rfl,ts,html,hp,hr⟩ := mem_rowEvents_webWrite.mp h
      refine ⟨row,List.mem_cons_self,ts,html,rfl,hp,hr,fun w hw => ?_⟩
      obtain ⟨i,hi⟩ := List.mem_iff_getElem?.mp hw
      exact ⟨_,List.mem_append_left _ (tagWrite_mem_rowEvents hp hi ticks)⟩
    · obtain ⟨q,hq,ts,html,hk,hp,hr,hall⟩ := ih ((List.prefix_append_right_inj _).mp hlog) h
      exact ⟨q,List.mem_cons_of_mem _ hq,ts,html,hk,hp,hr,
        fun w hw => (hall w hw).imp (fun nt hnt => List.mem_append_right _ hnt)⟩

section
variable {init : Contents} {rows : List (Key × Record)} {ticks : Nat} {log : List Event}

theorem old_tag_row_kept (hclock : ClockFits init (runLog env ticks rows)) (hlog : log <+: runLog env ticks rows)
    {key : Key} {r : Record} (h : init.tag.find? key = some r) : (init.replay log).tag.find? key = some r := by
  rw [Contents.replay_eq]
  rcases OrdMap.find?_insertAll init.tag (log.filterMap Event.tagRow) key with ⟨r',hr',-⟩ | ⟨-,hfind⟩
  · obtain ⟨rowKey,kw,title,ts,nt,he,rfl,rfl⟩ := mem_tagRows.mp hr'
    have hmem := hlog.subset he
    exact absurd ⟨(hclock.nonneg _ _ _ _ _ hmem).1,(hclock.nonneg _ _ _ _ _ hmem).2,rfl⟩
      (hclock.fresh _ _ _ _ _ hmem _ (OrdMap.find?_eq_some_iff.mp h) kw ts)
  · exact hfind.trans h

theorem new_tag_row_kept (hclock : ClockFits init (runLog env ticks rows)) (hlog : log <+: runLog env ticks rows)
    {k w title : Bytes} {ts nt : Int} (h : .tagWrite k w title ts nt ∈ log) :
    ∃ title', .tagWrite k w title' ts nt ∈ log ∧
      (init.replay log).tag.find? (tagKey w ts nt) = some (tagRecord k title') := by
  rw [Contents.replay_eq]
  rcases OrdMap.find?_insertAll init.tag (log.filterMap Event.tagRow) (tagKey w ts nt)
    with ⟨r',hr',hfind⟩ | ⟨hnone,-⟩
  · obtain ⟨rowKey,kw,title',ts',nt',he,hkey,rfl⟩ := mem_tagRows.mp hr'
    obtain ⟨hts,hnt⟩ := hclock.nonneg _ _ _ _ _ (hlog.subset h)
    obtain ⟨hts',hnt'⟩ := hclock.nonneg _ _ _ _ _ (hlog.subset he)
    obtain ⟨rfl,rfl,rfl⟩ := tagKey_injective hts hnt hts' hnt' hkey
    have hrow := hclock.apart _ _ _ _ _ _ _ _ (hlog.subset h) (hlog.subset he)
    subst hrow
    exact ⟨title',he,hfind⟩
  · exact absurd (mem_tagRows.mpr ⟨_,_,_,_,_,h,rfl,rfl⟩) (hnone _)

/-- The tables agree after every initial run of the writes. -/
theorem indexed_replay (hinit : Indexed init) (hrows : ∀ row ∈ rows, init.web.find? row.1 = some row.2)
    (hclock : ClockFits init (runLog env ticks rows)) (hlog : log <+: runLog env ticks rows) :
    Indexed (init.replay log) := by
  intro k record i w hweb hcell
  -- a tag the page had from the start keeps its row
  have hold : ∀ old, init.web.find? k = some old → (column old (bytes "tag")).find? i = some w →
      ∃ key r ts nt, (init.replay log).tag.find? key = some r ∧ Decodes key w ts nt ∧ cell r (bytes "url") 0 = k := by
    intro old hfind hw
    obtain ⟨key,r,ts,nt,htag,hdec,hurl⟩ := hinit k old i w hfind hw
    exact ⟨key,r,ts,nt,old_tag_row_kept hclock hlog htag,hdec,hurl⟩
  rw [Contents.replay_eq] at hweb
  rcases OrdMap.find?_insertAll init.web (log.filterMap Event.webRow) k with ⟨r,hr,hfind⟩ | ⟨-,hfind⟩
  · obtain rfl : r = record := Option.some.inj (hfind.symm.trans hweb)
    obtain ⟨row,hrow,ts,html,rfl,hp,rfl,hall⟩ := tagWrites_first hlog (mem_webRows.mp hr)
    rw [find?_fillTags,Option.or_eq_some_iff] at hcell
    rcases hcell with hnew | ⟨-,hw⟩
    · split_ifs at hnew with hi
      obtain ⟨nt,he⟩ := hall w (List.mem_of_getElem? hnew)
      obtain ⟨title',-,htag⟩ := new_tag_row_kept hclock hlog he
      obtain ⟨hts,hnt⟩ := hclock.nonneg _ _ _ _ _ (hlog.subset he)
      exact ⟨_,_,ts,nt,htag,⟨hts,hnt,rfl⟩,cell_url _ _⟩
    · rw [column_editedRecord_tag] at hw
      exact hold row.2 (hrows row hrow) hw
  · exact hold record (hfind.symm.trans hweb) hcell

theorem rowEvents_subset (env : Env σ τ) (ticks : Nat) {row : Key × Record} (hrow : row ∈ rows) :
    ∃ t, rowEvents env t row ⊆ runLog env ticks rows := by
  induction rows generalizing ticks with
  | nil => exact nomatch hrow
  | cons r rows ih =>
    rcases List.mem_cons.mp hrow with rfl | hrow
    · exact ⟨ticks,List.subset_append_left _ _⟩
    · obtain ⟨t,ht⟩ := ih (ticks + rowTicks env r) hrow
      exact ⟨t,List.Subset.trans ht (List.subset_append_right _ _)⟩

theorem row_eq_of_key (hrows : ∀ row ∈ rows, init.web.find? row.1 = some row.2) {row row' : Key × Record}
    (hrow : row ∈ rows) (hrow' : row' ∈ rows) (hkey : row.1 = row'.1) : row = row' := by
  have hrec : row.2 = row'.2 := Option.some.inj ((hrows row hrow).symm.trans (hkey ▸ hrows row' hrow'))
  exact Prod.ext hkey hrec

theorem tag_row_of_keyword (hrows : ∀ row ∈ rows, init.web.find? row.1 = some row.2)
    (hclock : ClockFits init (runLog env ticks rows)) {row : Key × Record} (hrow : row ∈ rows) {ts : Int}
    {html w : Bytes} (hp : pageOf row = some (ts,html)) {i : Nat} (hw : (env.parseKeyword html)[i]? = some w) :
    ∃ nt, (init.replay (runLog env ticks rows)).tag.find? (tagKey w ts nt) =
      some (tagRecord row.1 (env.parseTitle html)) := by
  obtain ⟨t,ht⟩ := rowEvents_subset env ticks hrow
  obtain ⟨title,he,htag⟩ := new_tag_row_kept hclock List.prefix_rfl (ht (tagWrite_mem_rowEvents hp hw t))
  obtain ⟨row',hrow',t',he'⟩ := mem_runLog he
  obtain ⟨hkey,html',hp',rfl⟩ := mem_rowEvents_tagWrite he'
  rw [← row_eq_of_key hrows hrow hrow' hkey,hp] at hp'
  obtain rfl : html = html' := congrArg Prod.snd (Option.some.inj hp')
  exact ⟨_,htag⟩

/-- After the run the rows gone over are indexed, all others as they were. -/
theorem find?_replay_web (hrows : ∀ row ∈ rows, init.web.find? row.1 = some row.2) (k : Key) :
    (init.replay (runLog env ticks rows)).web.find? k =
      (init.web.find? k).map (fun record => if (k,record) ∈ rows then indexedRecord env (k,record) else record) := by
  rw [Contents.replay_eq]
  rcases OrdMap.find?_insertAll init.web ((runLog env ticks rows).filterMap Event.webRow) k
    with ⟨r,hr,hfind⟩ | ⟨hnone,hfind⟩
  · obtain ⟨row,hrow,t,he⟩ := mem_runLog (mem_webRows.mp hr)
    obtain ⟨rfl,ts,html,hp,rfl⟩ := mem_rowEvents_webWrite.mp he
    rw [hfind,hrows row hrow,Option.map_some,if_pos hrow]
    simp [indexedRecord,hp]
  · rw [hfind]
    cases init.web.find? k with
    | none => rfl
    | some record =>
      rw [Option.map_some]
      split_ifs with hrow
      · -- a page in the run would have been written
        cases hp : pageOf (k,record) with
        | none => simp [indexedRecord,hp]
        | some page =>
          obtain ⟨t,ht⟩ := rowEvents_subset env ticks hrow
          have hwrite := ht (mem_rowEvents_webWrite.mpr ⟨rfl,page.1,page.2,hp,rfl⟩)
          exact absurd (mem_webRows.mpr hwrite) (hnone _)
      · rfl

theorem tag_cell_of_keyword (hrows : ∀ row ∈ rows, init.web.find? row.1 = some row.2) {row : Key × Record}
    (hrow : row ∈ rows) {ts : Int} {html w : Bytes} (hp : pageOf row = some (ts,html)) {i : Nat}
    (hw : (env.parseKeyword html)[i]? = some w) :
    ∃ stored, (init.replay (runLog env ticks rows)).web.find? row.1 = some stored ∧
      (column stored (bytes "tag")).find? i = some w := by
  refine ⟨indexedRecord env row,?_,?_⟩
  · rw [find?_replay_web hrows,hrows row hrow,Option.map_some,if_pos hrow]
  · rw [indexedRecord,hp]
    simp [find?_fillTags,hw]

end

end

theorem EcWritten.replay {c : Contents} (hc : EcWritten c.tag) {log : List Event}
    (hlog : ∀ rowKey kw title ts nt, .tagWrite rowKey kw title ts nt ∈ log → 0 ≤ ts ∧ 0 ≤ nt) :
    EcWritten (c.replay log).tag := by
  induction log generalizing c with
  | nil => exact hc
  | cons e log ih =>
    have hstep : EcWritten (c.apply e).tag := by
      cases e with
      | row => exact hc
      | webWrite => exact hc
      | tagWrite rowKey kw title ts nt =>
        obtain ⟨hts,hnt⟩ := hlog rowKey kw title ts nt List.mem_cons_self
        exact hc.insert hts hnt kw rowKey title
    exact ih hstep (fun rowKey kw title ts nt he => hlog rowKey kw title ts nt (List.mem_cons_of_mem _ he))

/-- The engine's assumption on the TagTable is what a run leaves behind. -/
theorem main_ecWritten {σ τ : Type} (env : Env σ τ) {webRows : σ → TableSlice} {tagRows : τ → TableSlice}
    (hw : Stores env.table webRows) (ht : Stores env.tagTable tagRows)
    (hscan : ∀ s, ScanRuns (env.table.scan s) (webRows s)) (startKey endKey : Key) (web : σ) (tag : τ)
    (htag : EcWritten (tagRows tag)) {fuel : Nat} (hfuel : ((webRows web).between startKey (bytes "~")).size < fuel) :
    ∃ final, main env startKey endKey fuel web tag = some final ∧
      ((∀ rowKey kw title ts nt, .tagWrite rowKey kw title ts nt ∈ final.log → 0 ≤ ts ∧ 0 ≤ nt) →
        EcWritten (tagRows final.tag)) := by
  obtain ⟨final,hfinal,-,hcontents⟩ := main_advances hw ht hscan startKey endKey web tag hfuel
  refine ⟨final,hfinal,fun hlog => ?_⟩
  have hrows : tagRows final.tag = ((Contents.mk (webRows web) (tagRows tag)).replay final.log).tag :=
    congrArg Contents.tag hcontents
  rw [hrows]
  apply EcWritten.replay
  · exact htag
  · exact hlog

/-- A run returns, the tables agree after each of its writes, and when it ends
every keyword of every visited page is indexed. -/
theorem index_integrity {σ τ : Type} (env : Env σ τ) {webRows : σ → TableSlice} {tagRows : τ → TableSlice}
    (hw : Stores env.table webRows) (ht : Stores env.tagTable tagRows)
    (hscan : ∀ s, ScanRuns (env.table.scan s) (webRows s)) (startKey endKey : Key) (web : σ) (tag : τ)
    (hinit : Indexed ⟨webRows web,tagRows tag⟩) (fuel : Nat) (hfuel : (webRows web).size < fuel) :
    ∃ final, main env startKey endKey fuel web tag = some final ∧
      final.contents webRows tagRows = (Contents.mk (webRows web) (tagRows tag)).replay final.log ∧
      (ClockFits ⟨webRows web,tagRows tag⟩ final.log →
        (∀ n, Indexed ((Contents.mk (webRows web) (tagRows tag)).replay (final.log.take n))) ∧
        ∀ k record ts page cells, .row k ∈ final.log → (webRows web).find? k = some record →
          find (bytes "2014") k ≠ none → (column record (bytes "page")).entries = (ts,page) :: cells →
          ∀ (i : Nat) w, (env.parseKeyword (stripCode page))[i]? = some w →
            (∃ nt r, (tagRows final.tag).find? (tagKey w ts nt) = some r ∧ cell r (bytes "url") 0 = k ∧
              cell r (bytes "title") 0 = env.parseTitle (stripCode page)) ∧
            ∃ stored, (webRows final.web).find? k = some stored ∧
              (column stored (bytes "tag")).find? i = some w) := by
  obtain ⟨final,hfinal,hlog,hcontents⟩ := main_advances hw ht hscan startKey endKey web tag
    (lt_of_le_of_lt (List.length_filter_le _ _) hfuel)
  refine ⟨final,hfinal,hcontents,fun hclock => ?_⟩
  have hrows : ∀ row ∈ ((webRows web).between startKey (bytes "~")).entries,
      (webRows web).find? row.1 = some row.2 :=
    fun row hrow => OrdMap.find?_eq_some_iff.mpr (OrdMap.mem_between.mp hrow).1
  rw [hlog] at hclock
  refine ⟨fun n => ?_,?_⟩
  · rw [hlog]
    exact indexed_replay hinit hrows hclock (List.take_prefix n _)
  · intro k record ts page cells hseen hfind hyear hpage i w hkw
    rw [hlog] at hseen
    obtain ⟨row,hrow,t,he⟩ := mem_runLog hseen
    obtain rfl := mem_rowEvents_row he
    obtain rfl : row.2 = record := Option.some.inj ((hrows row hrow).symm.trans hfind)
    have hp : pageOf row = some (ts,stripCode page) := by simp [pageOf,hyear,hpage]
    have htag := congrArg Contents.tag hcontents
    have hweb := congrArg Contents.web hcontents
    simp only [State.contents,hlog] at htag hweb
    rw [htag,hweb]
    obtain ⟨nt,hrow'⟩ := tag_row_of_keyword hrows hclock hrow hp hkw
    exact ⟨⟨nt,_,hrow',cell_url _ _,cell_title _ _⟩,tag_cell_of_keyword hrows hrow hp hkw⟩

/-- One page with one keyword, read by an indexer whose clock starts at seven. -/
def sampleEnv : Env TableSlice TableSlice :=
  ⟨memTable,memTable,fun _ => [bytes "a"],fun _ => bytes "t",fun n => 7 + n⟩

def samplePages : TableSlice := .single (bytes "p2014") (.single (bytes "page") (.single 5 (bytes "x")))

theorem index_integrity_sample : ∃ final, main sampleEnv [] [] 2 samplePages ∅ = some final ∧
    (∀ n, Indexed ((Contents.mk samplePages ∅).replay (final.log.take n))) ∧
    ∃ nt r, final.tag.find? (tagKey (bytes "a") 5 nt) = some r ∧ cell r (bytes "url") 0 = bytes "p2014" := by
  have hinit : Indexed ⟨samplePages,∅⟩ := by
    intro k record i w hk hw
    rw [samplePages,OrdMap.find?_single] at hk
    split_ifs at hk
    cases hk
    exact nomatch hw
  obtain ⟨final,hfinal,-,hrest⟩ := index_integrity sampleEnv memTable_stores memTable_stores
    memTable_scanRuns [] [] samplePages ∅ hinit 2 (by decide)
  have hlog : final.log = [.row (bytes "p2014"),.tagWrite (bytes "p2014") (bytes "a") (bytes "t") 5 7,
      .webWrite (bytes "p2014") ((samplePages.get (bytes "p2014") ∅).insert (bytes "tag")
        (.single 0 (bytes "a")))] := by
    have hrun : (main sampleEnv [] [] 2 samplePages ∅).map State.log = some final.log := congrArg _ hfinal
    exact (Option.some.inj hrun).symm
  have hclock : ClockFits ⟨samplePages,∅⟩ final.log := by
    rw [hlog]
    refine ⟨?_,?_,fun _ _ _ _ _ _ p hp => nomatch hp⟩
    · intro rowKey kw title ts nt h
      simp only [List.mem_cons,List.not_mem_nil,reduceCtorEq,Event.tagWrite.injEq,false_or,or_false] at h
      omega
    · intro rowKey kw title ts nt rowKey' kw' title' h h'
      simp only [List.mem_cons,List.not_mem_nil,reduceCtorEq,Event.tagWrite.injEq,false_or,or_false] at h h'
      exact h.1.trans h'.1.symm
  obtain ⟨hall,hrows⟩ := hrest hclock
  have hseen : .row (bytes "p2014") ∈ final.log := by
    rw [hlog]
    exact List.mem_cons_self
  obtain ⟨⟨nt,r,hr,hurl,-⟩,-⟩ := hrows (bytes "p2014") _ 5 (bytes "x") [] hseen rfl (by decide) rfl 0 (bytes "a") rfl
  exact ⟨final,hfinal,hall,nt,r,hr,hurl⟩

end Aret.Indexer
