import Aret.Engine.ViewWorkers
import Aret.Indexer.ScanRange

/-! What indexing leaves in the `tag` column of a page: the keywords are written
by position over whatever cells are there, as often as `parse_keyword` repeats
them. -/
namespace Aret.Indexer
open Lib Tera Engine

theorem pageOf_of_cells {k : Key} {record : Record} {ts : Int} {page : Bytes} {cells : List (Int × Bytes)}
    (hyear : find (bytes "2014") k ≠ none) (hpage : (column record (bytes "page")).entries = (ts,page) :: cells) :
    pageOf (k,record) = some (ts,stripCode page) := by
  simp [pageOf,hyear,hpage]

theorem tag_value_iff (kws : List Bytes) (record : Record) (w : Bytes) :
    (∃ j, (column (fillTags kws 0 record) (bytes "tag")).find? j = some w) ↔
      w ∈ kws ∨ ∃ j : Int, ¬ (0 ≤ j ∧ j < kws.length) ∧ (column record (bytes "tag")).find? j = some w := by
  simp only [find?_fillTags,Option.or_eq_some_iff,Nat.cast_zero,sub_zero]
  constructor
  · rintro ⟨j,hj | ⟨hnone,hold⟩⟩
    · split_ifs at hj
      exact Or.inl (List.mem_of_getElem? hj)
    · refine Or.inr ⟨j,fun hin => ?_,hold⟩
      rw [if_pos hin.1,List.getElem?_eq_none_iff] at hnone
      omega
  · rintro (hw | ⟨j,hout,hold⟩)
    · obtain ⟨i,hi⟩ := List.mem_iff_getElem?.mp hw
      exact ⟨i,Or.inl (by simpa using hi)⟩
    · refine ⟨j,Or.inr ⟨?_,hold⟩⟩
      split_ifs with hj
      · rw [List.getElem?_eq_none_iff]
        omega
      · rfl

section
variable {σ τ : Type} (env : Env σ τ) {webRows : σ → TableSlice} {tagRows : τ → TableSlice}

theorem find?_processRow (hw : Stores env.table webRows) (ht : Stores env.tagTable tagRows) (st : State σ τ)
    {row : Key × Record} {ts : Int} {html : Bytes} (hp : pageOf row = some (ts,html)) :
    (webRows (processRow env st row).web).find? row.1 =
      some (fillTags (env.parseKeyword html) 0 (editedRecord row.2 ts html)) := by
  obtain ⟨s,r,hloop,hrow⟩ := processRow_of_some env hp st
  obtain ⟨-,-,hr⟩ : Advances webRows tagRows (st.see row.1) _ _ _ ∧ _ := tagLoop_advances ht row.1
    (env.parseTitle html) ts (env.parseKeyword html) 0 (st.see row.1) (editedRecord row.2 ts html)
  rw [hloop] at hr
  rw [hrow,← hr]
  simp [hw _ _ _]

/-- The stored tags are the keywords of this run exactly when no cell of an
earlier run that lies outside the written positions holds another word. -/
theorem tags_replaced_iff (hw : Stores env.table webRows) (ht : Stores env.tagTable tagRows) (st : State σ τ)
    (k : Key) (record : Record) {ts : Int} {page : Bytes} {cells : List (Int × Bytes)}
    (hyear : find (bytes "2014") k ≠ none) (hpage : (column record (bytes "page")).entries = (ts,page) :: cells) :
    ∃ stored, (webRows (processRow env st (k,record)).web).find? k = some stored ∧
      ((∀ w, (∃ j, (column stored (bytes "tag")).find? j = some w) ↔ w ∈ env.parseKeyword (stripCode page)) ↔
        ∀ (j : Int) w, (column record (bytes "tag")).find? j = some w →
          ¬ (0 ≤ j ∧ j < (env.parseKeyword (stripCode page)).length) → w ∈ env.parseKeyword (stripCode page)) := by
  refine ⟨_,find?_processRow env hw ht st (pageOf_of_cells hyear hpage),?_⟩
  simp only [tag_value_iff,column_editedRecord_tag]
  constructor
  · intro h j w hold hout
    exact (h w).mp (Or.inr ⟨j,hout,hold⟩)
  · intro h w
    constructor
    · rintro (hin | ⟨j,hout,hold⟩)
      · exact hin
      · exact h j w hold hout
    · exact Or.inl

end

def positions (kws : List Bytes) : Column where
  entries := kws.zipIdx.map (fun p => ((p.2 : Int),p.1))
  sorted := by
    rw [List.pairwise_map,List.pairwise_iff_getElem]
    intro i j hi hj hij
    simpa using hij

theorem find?_positions (kws : List Bytes) (j : Int) :
    (positions kws).find? j = if 0 ≤ j then kws[j.toNat]? else none := by
  apply Option.ext
  intro w
  rw [OrdMap.find?_eq_some_iff]
  simp only [positions,List.mem_map,Prod.mk.injEq,Prod.exists,List.mk_mem_zipIdx_iff_getElem?]
  constructor
  · rintro ⟨_,i,hi,rfl,rfl⟩
    simpa using hi
  · intro h
    split_ifs at h with hj
    exact ⟨w,j.toNat,h,by omega,rfl⟩

theorem values_positions (kws : List Bytes) : (positions kws).entries.map Prod.snd = kws := by
  rw [positions,List.map_map]
  exact List.zipIdx_map_fst 0 kws

theorem column_fillTags_fresh {record : Record} (hfresh : column record (bytes "tag") = ∅) (kws : List Bytes) :
    column (fillTags kws 0 record) (bytes "tag") = positions kws := by
  apply OrdMap.ext_find?
  intro j
  rw [find?_fillTags,hfresh,find?_positions]
  simp

theorem unique_cell_iff (kws : List Bytes) :
    (∀ w ∈ kws, ∃! j, (positions kws).find? j = some w) ↔ kws.Nodup := by
  constructor
  · intro h
    rw [List.nodup_iff_getElem?_ne_getElem?]
    intro i j hij hj heq
    obtain ⟨l,-,huniq⟩ := h kws[j] (List.getElem_mem hj)
    have hcell : ∀ n : Nat, kws[n]? = some kws[j] → (n : Int) = l := by
      intro n hn
      apply huniq
      simpa [find?_positions] using hn
    have hi := hcell i (heq.trans (List.getElem?_eq_getElem hj))
    have hj' := hcell j (List.getElem?_eq_getElem hj)
    omega
  · intro hnodup w hw
    obtain ⟨i,hi⟩ := List.mem_iff_getElem?.mp hw
    refine ⟨i,by simpa [find?_positions] using hi,fun j hj => ?_⟩
    simp only [find?_positions] at hj
    split_ifs at hj
    have hlt : i < kws.length := (List.getElem?_eq_some_iff.mp hi).1
    have hij := (List.getElem?_inj hlt hnodup).mp (hi.trans hj.symm)
    omega

/-- Which TagTable row a pass over the page `k` has added for the keyword `w`. -/
def Added (events : List Event) (tags : TableSlice) (k : Key) (w : Bytes) (key : Key) : Prop :=
  ∃ title ts nt, .tagWrite k w title ts nt ∈ events ∧ key = tagKey w ts nt ∧ tags.find? key = some (tagRecord k title)

/-- Each keyword of a page has one cell, one added TagTable row of its own, and
counts once in a view. -/
structure Deduplicated (kws : List Bytes) (k : Key) (stored : Record) (events : List Event) (tags : TableSlice) :
    Prop where
  cell : ∀ w ∈ kws, ∃! j, (column stored (bytes "tag")).find? j = some w
  only : ∀ j w, (column stored (bytes "tag")).find? j = some w → w ∈ kws
  row : ∀ w ∈ kws, ∃! key, Added events tags k w key
  apart : ∀ w w' key, Added events tags k w key → Added events tags k w' key → w = w'
  view : ∀ webtable : Read, (webtable k).2 = stored → ∀ userRow, (∀ w ∈ kws, rowCount userRow w < 2^31 - 1) →
    ∃ userRow', recordTags userRow (viewTags webtable [k]) = some userRow' ∧
      ∀ w ∈ kws, rowCount userRow' w = rowCount userRow w + 1

section
variable {σ τ : Type} (env : Env σ τ)

/-- All the writes of a pass carry the same record, so each is found afterwards. -/
theorem added_iff {row : Key × Record} {ts : Int} {html : Bytes} (hp : pageOf row = some (ts,html)) (ticks : Nat)
    (init : Contents) (w key : Bytes) :
    Added (rowEvents env ticks row) (init.replay (rowEvents env ticks row)).tag row.1 w key ↔
      ∃ i, (env.parseKeyword html)[i]? = some w ∧ key = tagKey w ts (env.getMicros (ticks + i)) := by
  constructor
  · rintro ⟨title,ts',nt,he,rfl,-⟩
    obtain ⟨-,-,rfl,i,hi,rfl⟩ := (tagWrite_mem_rowEvents_iff hp ticks).mp he
    exact ⟨i,hi,rfl⟩
  · rintro ⟨i,hi,rfl⟩
    have he := (tagWrite_mem_rowEvents_iff hp ticks).mpr ⟨rfl,rfl,rfl,i,hi,rfl⟩
    refine ⟨_,_,_,he,rfl,?_⟩
    rw [Contents.replay_eq]
    rcases OrdMap.find?_insertAll init.tag ((rowEvents env ticks row).filterMap Event.tagRow)
      (tagKey w ts (env.getMicros (ticks + i))) with ⟨r,hr,hfind⟩ | ⟨hnone,-⟩
    · obtain ⟨k',w',title',ts',nt',he',-,rfl⟩ := mem_tagRows.mp hr
      obtain ⟨rfl,rfl,-⟩ := (tagWrite_mem_rowEvents_iff hp ticks).mp he'
      exact hfind
    · exact absurd (mem_tagRows.mpr ⟨_,_,_,_,_,he,rfl,rfl⟩) (hnone _)

theorem deduplicated_of_nodup {row : Key × Record} {ts : Int} {html : Bytes} (hp : pageOf row = some (ts,html))
    (hnodup : (env.parseKeyword html).Nodup) {stored : Record}
    (hstored : column stored (bytes "tag") = positions (env.parseKeyword html)) (ticks : Nat) (init : Contents) :
    Deduplicated (env.parseKeyword html) row.1 stored (rowEvents env ticks row)
      (init.replay (rowEvents env ticks row)).tag where
  cell := by
    rw [hstored]
    exact (unique_cell_iff _).mpr hnodup
  only j w hj := by
    rw [hstored,find?_positions] at hj
    split_ifs at hj
    exact List.mem_of_getElem? hj
  row w hw := by
    obtain ⟨i,hi⟩ := List.mem_iff_getElem?.mp hw
    refine ⟨_,(added_iff env hp ticks init w _).mpr ⟨i,hi,rfl⟩,fun key hkey => ?_⟩
    obtain ⟨j,hj,rfl⟩ := (added_iff env hp ticks init w key).mp hkey
    have hlt : i < (env.parseKeyword html).length := (List.getElem?_eq_some_iff.mp hi).1
    rw [(List.getElem?_inj hlt hnodup).mp (hi.trans hj.symm)]
  apart w w' key hkey hkey' := by
    obtain ⟨i,-,rfl⟩ := (added_iff env hp ticks init w key).mp hkey
    obtain ⟨j,-,hkeys⟩ := (added_iff env hp ticks init w' _).mp hkey'
    exact keyword_of_tagKey hkeys
  view webtable hread userRow hcounts := by
    have htags : viewTags webtable [row.1] = env.parseKeyword html := by
      rw [viewTags,List.flatMap_singleton,pageTags,hread,hstored,values_positions]
    have hdefined : ∃ userRow', recordTags userRow (viewTags webtable [row.1]) = some userRow' := by
      rw [htags,recordTags_defined_iff]
      intro t
      by_cases ht : t ∈ env.parseKeyword html
      · have hlt := hcounts t ht
        rw [List.count_eq_one_of_mem hnodup ht]
        omega
      · have hlt := (rowCount_range userRow t).2
        rw [List.count_eq_zero_of_not_mem ht]
        omega
    obtain ⟨userRow',hrow⟩ := hdefined
    refine ⟨userRow',hrow,fun w hw => ?_⟩
    rw [rowCount_recordTags hrow,htags,List.count_eq_one_of_mem hnodup hw]
    rfl

variable {webRows : σ → TableSlice} {tagRows : τ → TableSlice}

/-- One pass over a page without earlier tags deals with each of its keywords
once, for any readings of the clock, exactly when `parse_keyword` repeats none. -/
theorem keywords_deduplicated_iff (hw : Stores env.table webRows) (ht : Stores env.tagTable tagRows) (st : State σ τ)
    (k : Key) (record : Record) {ts : Int} {page : Bytes} {cells : List (Int × Bytes)}
    (hyear : find (bytes "2014") k ≠ none) (hpage : (column record (bytes "page")).entries = (ts,page) :: cells)
    (hfresh : column record (bytes "tag") = ∅) :
    let after := processRow env st (k,record)
    ∃ stored events, (webRows after.web).find? k = some stored ∧ after.log = st.log ++ events ∧
      (Deduplicated (env.parseKeyword (stripCode page)) k stored events (tagRows after.tag) ↔
        (env.parseKeyword (stripCode page)).Nodup) := by
  intro after
  have hp := pageOf_of_cells hyear hpage
  have hadv := (processRow_advances hw ht st (k,record)).1
  have htags : tagRows after.tag = ((st.contents webRows tagRows).replay _).tag := congrArg Contents.tag hadv.contents
  refine ⟨_,_,find?_processRow env hw ht st hp,hadv.log,?_⟩
  have hcolumn : column (fillTags (env.parseKeyword (stripCode page)) 0 (editedRecord record ts (stripCode page)))
      (bytes "tag") = positions (env.parseKeyword (stripCode page)) :=
    column_fillTags_fresh (by rw [column_editedRecord_tag,hfresh]) _
  rw [htags]
  constructor
  · intro h
    rw [← unique_cell_iff]
    simpa [hcolumn] using h.cell
  · intro hnodup
    exact deduplicated_of_nodup env hp hnodup hcolumn _ _

end

def beforePage (record : Record) : State TableSlice TableSlice := ⟨.single (bytes "p2014") record,∅,0,[],[]⟩

def freshPage : Record := .single (bytes "page") (.single 5 (bytes "x"))

def stalePage : Record := freshPage.insert (bytes "tag") ((OrdMap.single 0 (bytes "a")).insert 1 (bytes "b"))

theorem freshPage_cells : (column freshPage (bytes "page")).entries = [(5,bytes "x")] := rfl

theorem tags_replaced_iff_sample :
    ∃ stored, (processRow sampleEnv (beforePage freshPage) (bytes "p2014",freshPage)).web.find? (bytes "p2014") =
        some stored ∧
      ∀ w, (∃ j, (column stored (bytes "tag")).find? j = some w) ↔ w ∈ [bytes "a"] := by
  obtain ⟨stored,hstored,hiff⟩ := tags_replaced_iff sampleEnv memTable_stores memTable_stores (beforePage freshPage)
    (bytes "p2014") freshPage (by decide) freshPage_cells
  exact ⟨stored,hstored,hiff.mpr (fun j w hold => nomatch hold)⟩

/-- The page now has the one keyword `a`, and `b` stays among its tags. -/
theorem stale_tag_left : find (bytes "2014") (bytes "p2014") ≠ none ∧
    (column stalePage (bytes "page")).entries = [(5,bytes "x")] ∧
    ∃ stored, (processRow sampleEnv (beforePage stalePage) (bytes "p2014",stalePage)).web.find? (bytes "p2014") =
        some stored ∧
      (column stored (bytes "tag")).find? 1 = some (bytes "b") ∧
      bytes "b" ∉ sampleEnv.parseKeyword (stripCode (bytes "x")) :=
  ⟨by decide,by decide,_,rfl,by decide,by decide⟩

theorem keywords_deduplicated_iff_sample :
    ∃ stored events, (processRow sampleEnv (beforePage freshPage) (bytes "p2014",freshPage)).web.find? (bytes "p2014") =
        some stored ∧
      Deduplicated [bytes "a"] (bytes "p2014") stored events
        (processRow sampleEnv (beforePage freshPage) (bytes "p2014",freshPage)).tag := by
  obtain ⟨stored,events,hstored,-,hiff⟩ := keywords_deduplicated_iff sampleEnv memTable_stores memTable_stores
    (beforePage freshPage) (bytes "p2014") freshPage (by decide) freshPage_cells rfl
  exact ⟨stored,events,hstored,hiff.mpr (List.nodup_singleton _)⟩

def repeatEnv : Env TableSlice TableSlice := { sampleEnv with parseKeyword := fun _ => [bytes "a",bytes "a"] }

/-- The keyword `a` gets two cells and two TagTable rows, and one view counts it twice. -/
theorem repeated_keyword_kept : column freshPage (bytes "tag") = ∅ ∧
    let after := processRow repeatEnv (beforePage freshPage) (bytes "p2014",freshPage)
    ∃ stored, after.web.find? (bytes "p2014") = some stored ∧
      (column stored (bytes "tag")).find? 0 = some (bytes "a") ∧
      (column stored (bytes "tag")).find? 1 = some (bytes "a") ∧
      after.tag.find? (tagKey (bytes "a") 5 7) = some (tagRecord (bytes "p2014") (bytes "t")) ∧
      after.tag.find? (tagKey (bytes "a") 5 8) = some (tagRecord (bytes "p2014") (bytes "t")) ∧
      (recordTags ∅ (viewTags (memTable.read after.web) [bytes "p2014"])).map (fun row => rowCount row (bytes "a")) =
        some 2 ∧
      ∀ events, ¬ Deduplicated [bytes "a",bytes "a"] (bytes "p2014") stored events after.tag := by
  refine ⟨rfl,_,rfl,by decide,by decide,by decide,by decide,by decide,fun events h => ?_⟩
  obtain ⟨j,-,huniq⟩ := h.cell (bytes "a") List.mem_cons_self
  have hfirst := huniq 0 (by decide)
  have hsecond := huniq 1 (by decide)
  omega

end Aret.Indexer
