import Aret.Indexer.Reindex

/-! A second run of the indexer right after the first. Keywords and tags are
found again where they are; what may change is the page, since each run removes
one occurrence of `code`. -/
namespace Aret.Indexer
open Lib Tera

/-- Without its first occurrence of `code` the page has none. -/
def StripsClean (page : Bytes) : Prop :=
  ∀ u v, page = u ++ code ++ v → find code page = some u.length → find code (u ++ v) = none

theorem stripCode_of_some {u v : Bytes} (h : find code (u ++ code ++ v) = some u.length) :
    stripCode (u ++ code ++ v) = u ++ v := by
  rw [stripCode,h]
  simp [List.append_assoc]

theorem stripCode_of_none {page : Bytes} (h : find code page = none) : stripCode page = page := by
  rw [stripCode,h]

theorem stripCode_eq_self_iff (page : Bytes) : stripCode page = page ↔ find code page = none := by
  refine ⟨fun h => ?_,stripCode_of_none⟩
  by_contra hsome
  obtain ⟨pos,hpos⟩ := Option.ne_none_iff_exists'.mp hsome
  obtain ⟨u,v,rfl,rfl⟩ := split_of_find hpos
  rw [stripCode_of_some hpos] at h
  have hlen := congrArg List.length h
  have hcode : code.length ≠ 0 := by decide
  simp only [List.length_append] at hlen
  omega

theorem stripsClean_iff (page : Bytes) : StripsClean page ↔ find code (stripCode page) = none := by
  cases hfind : find code page with
  | none =>
    rw [stripCode_of_none hfind]
    exact iff_of_true (fun u v _ h => nomatch hfind.symm.trans h) hfind
  | some pos =>
    obtain ⟨u,v,rfl,rfl⟩ := split_of_find hfind
    rw [stripCode_of_some hfind]
    constructor
    · exact fun h => h u v rfl hfind
    · intro h u' v' hsplit hpos
      rw [hfind] at hpos
      rw [List.append_assoc,List.append_assoc] at hsplit
      obtain ⟨rfl,hrest⟩ := List.append_inj hsplit (Option.some.inj hpos)
      rwa [← List.append_cancel_left hrest]

theorem column_fillTags_page (kws : List Bytes) (i : Nat) (record : Record) :
    column (fillTags kws i record) (bytes "page") = column record (bytes "page") := by
  have hne : bytes "page" ≠ bytes "tag" := by decide
  induction kws generalizing i record with
  | nil => rfl
  | cons kw kws ih =>
    rw [fillTags,ih,column,OrdMap.get_insert,if_neg hne]
    rfl

/-- Only the `tag` column is written, and it is there as soon as there is a keyword. -/
theorem find?_fillTags_record (kws : List Bytes) (i : Nat) (record : Record) (key : Key) :
    (fillTags kws i record).find? key = if key = bytes "tag" ∧ kws ≠ []
      then some (column (fillTags kws i record) (bytes "tag")) else record.find? key := by
  induction kws generalizing i record with
  | nil => simp [fillTags]
  | cons kw kws ih =>
    rw [fillTags,ih]
    by_cases hkey : key = bytes "tag"
    · subst hkey
      cases kws with
      | nil => simp [fillTags,column,OrdMap.get]
      | cons kw' kws => simp
    · simp [hkey,OrdMap.find?_insert]

theorem fillTags_fillTags (kws : List Bytes) (i : Nat) (record : Record) :
    fillTags kws i (fillTags kws i record) = fillTags kws i record := by
  have hcolumn : column (fillTags kws i (fillTags kws i record)) (bytes "tag") =
      column (fillTags kws i record) (bytes "tag") := by
    apply OrdMap.ext_find?
    intro j
    rw [find?_fillTags,find?_fillTags,← Option.or_assoc,Option.or_self]
  apply OrdMap.ext_find?
  intro key
  rw [find?_fillTags_record kws i (fillTags kws i record),hcolumn]
  split_ifs with hkey
  · rw [find?_fillTags_record kws i record,if_pos hkey]
  · rfl

theorem editedRecord_of_cells {record : Record} {ts : Int} {html : Bytes} {cells : List (Int × Bytes)}
    (h : (column record (bytes "page")).entries = (ts,html) :: cells) : editedRecord record ts html = record := by
  have hcell : (column record (bytes "page")).find? ts = some html :=
    OrdMap.find?_eq_some_iff.mpr (h ▸ List.mem_cons_self)
  rw [editedRecord,OrdMap.insert_of_find? hcell]
  apply OrdMap.insert_of_find?
  cases hfind : record.find? (bytes "page") with
  | none =>
    rw [column,OrdMap.get_of_find?_none hfind] at h
    exact absurd h (List.cons_ne_nil _ _).symm
  | some cells => rw [column,OrdMap.get_of_find? hfind]

section
variable {σ τ : Type} (env : Env σ τ) {k : Key} {record : Record} {ts : Int} {page : Bytes}
  {cells : List (Int × Bytes)} (hyear : find (bytes "2014") k ≠ none)
  (hpage : (column record (bytes "page")).entries = (ts,page) :: cells)
include hyear hpage

theorem indexedRecord_of_cells : indexedRecord env (k,record) =
    fillTags (env.parseKeyword (stripCode page)) 0 (editedRecord record ts (stripCode page)) := by
  rw [indexedRecord,pageOf_of_cells hyear hpage]

/-- The edited page stands where the scanned one stood. -/
theorem page_indexedRecord :
    (column (indexedRecord env (k,record)) (bytes "page")).entries = (ts,stripCode page) :: cells := by
  rw [indexedRecord_of_cells env hyear hpage,column_fillTags_page,editedRecord,column,OrdMap.get_insert,if_pos rfl]
  exact OrdMap.entries_insert_head hpage

/-- Indexing a row again leaves it alone exactly when its page stays as it is. -/
theorem indexedRecord_twice_iff :
    indexedRecord env (k,indexedRecord env (k,record)) = indexedRecord env (k,record) ↔ StripsClean page := by
  have hpage' := page_indexedRecord env hyear hpage
  rw [stripsClean_iff,← stripCode_eq_self_iff]
  constructor
  · intro h
    have hpage'' := page_indexedRecord env hyear hpage'
    rw [h,hpage'] at hpage''
    exact (congrArg Prod.snd (List.cons.inj hpage'').1).symm
  · intro h
    rw [indexedRecord_of_cells env hyear hpage',h,editedRecord_of_cells hpage',indexedRecord_of_cells env hyear hpage]
    exact fillTags_fillTags _ _ _

end

/-- A row that is not indexed stays as it is in any case. -/
theorem indexedRecord_stable_iff {σ τ : Type} (env : Env σ τ) (k : Key) (record : Record) :
    indexedRecord env (k,indexedRecord env (k,record)) = indexedRecord env (k,record) ↔
      ∀ ts page cells, find (bytes "2014") k ≠ none → (column record (bytes "page")).entries = (ts,page) :: cells →
        StripsClean page := by
  constructor
  · intro h ts page cells hyear hpage
    exact (indexedRecord_twice_iff env hyear hpage).mp h
  · intro h
    by_cases hyear : find (bytes "2014") k = none
    · simp [indexedRecord,pageOf,hyear]
    · cases hpage : (column record (bytes "page")).entries with
      | nil => simp [indexedRecord,pageOf,hpage]
      | cons p cells => exact (indexedRecord_twice_iff env hyear hpage).mpr (h p.1 p.2 cells hyear hpage)

/-- A second run over the whole table, at another time, leaves the WebTable as
the first one left it exactly when no page keeps an occurrence of `code`. -/
theorem second_run_unchanged_iff {σ τ : Type} (env : Env σ τ) {webRows : σ → TableSlice} {tagRows : τ → TableSlice}
    (hw : Stores env.table webRows) (ht : Stores env.tagTable tagRows)
    (hscan : ∀ s, ScanRuns (env.table.scan s) (webRows s)) (clock : Nat → Int) (web : σ) (tag : τ) :
    ∃ first second,
      (∀ fuel, ((webRows web).between [] (bytes "~")).size < fuel → main env [] [] fuel web tag = some first) ∧
      (∀ fuel, ((webRows first.web).between [] (bytes "~")).size < fuel →
        main { env with getMicros := clock } [] [] fuel first.web first.tag = some second) ∧
      (webRows second.web = webRows first.web ↔
        ∀ k record ts page cells, (webRows web).find? k = some record → k < bytes "~" →
          find (bytes "2014") k ≠ none → (column record (bytes "page")).entries = (ts,page) :: cells →
          StripsClean page) := by
  obtain ⟨first,hfirst,-,hweb⟩ := main_ends env hw ht hscan [] [] web tag
  obtain ⟨second,hsecond,-,hweb'⟩ := main_ends { env with getMicros := clock } hw ht hscan [] [] first.web first.tag
  refine ⟨first,second,hfirst,hsecond,?_⟩
  constructor
  · intro heq k record ts page cells hk hlt
    have hrow : (webRows second.web).find? k = (webRows first.web).find? k := by rw [heq]
    rw [hweb',hweb,hk] at hrow
    simp only [Option.map_some,nil_le,hlt,and_self,if_true,Option.some_inj] at hrow
    exact (indexedRecord_stable_iff env k record).mp hrow ts page cells
  · intro h
    apply OrdMap.ext_find?
    intro k
    rw [hweb',hweb]
    cases hk : (webRows web).find? k with
    | none => rfl
    | some record =>
      simp only [Option.map_some,nil_le,true_and]
      split_ifs with hlt
      · exact congrArg some ((indexedRecord_stable_iff env k record).mpr
          (fun ts page cells => h k record ts page cells hk hlt))
      · rfl

theorem second_run_unchanged_iff_sample : ∃ first second, main sampleEnv [] [] 2 samplePages ∅ = some first ∧
    main { sampleEnv with getMicros := fun n => 100 + n } [] [] 2 first.web first.tag = some second ∧
    second.web = first.web := by
  obtain ⟨first,second,hfirst,hsecond,hiff⟩ := second_run_unchanged_iff sampleEnv memTable_stores memTable_stores
    memTable_scanRuns (fun n => 100 + n) samplePages ∅
  have hrun := hfirst 2 (by decide)
  have hsize : (main sampleEnv [] [] 2 samplePages ∅).map (fun st => (st.web.between [] (bytes "~")).size) =
      some 1 := rfl
  rw [hrun] at hsize
  refine ⟨first,second,hrun,hsecond 2 ?_,hiff.mpr ?_⟩
  · exact (Option.some.inj hsize).trans_lt (by decide)
  · intro k record ts page cells hk _ _ hpage
    rw [id_eq,samplePages,OrdMap.find?_single] at hk
    split_ifs at hk
    obtain rfl := Option.some.inj hk
    have hcells := freshPage_cells.symm.trans hpage
    simp only [List.cons.injEq,Prod.mk.injEq] at hcells
    obtain ⟨⟨-,rfl⟩,-⟩ := hcells
    exact (stripsClean_iff _).mpr (by decide)

/-- A page that names its encoding twice: the second run removes the second. -/
def twoCodes : TableSlice := .single (bytes "p2014") (.single (bytes "page") (.single 5 (code ++ code)))

theorem second_run_edits : ∃ first second, main sampleEnv [] [] 2 twoCodes ∅ = some first ∧
    main sampleEnv [] [] 2 first.web first.tag = some second ∧
    second.web.find? (bytes "p2014") ≠ first.web.find? (bytes "p2014") :=
  ⟨_,_,rfl,rfl,by decide⟩

end Aret.Indexer
