import Aret.Engine.RecommendQuota
import Aret.Http.RecommendedLink
import Aret.Http.ResponseBody
import Aret.Site.Processes

/-! What holds in every state of a running site, whatever the order in which its
processes send their messages. An indexer may write back a row that others have
changed since it was scanned, and a worker a profile that is no longer the stored
one: the invariants say what these writes leave intact. -/
namespace Aret.Site
open Lib Tera Engine Indexer Http

/-- A row as indexers leave it: the page they read has been stripped some times,
the tags are theirs, and everything else is as it was. -/
structure Reworked (old new : Record) : Prop where
  others : ∀ name, name ≠ bytes "page" → name ≠ bytes "tag" → new.find? name = old.find? name
  page : ∃ n, (column new (bytes "page")).entries =
    (column old (bytes "page")).entries.modifyHead (fun p => (p.1,stripCode^[n] p.2))

theorem Reworked.refl (record : Record) : Reworked record record where
  others _ _ _ := rfl
  page := ⟨0,by cases (column record (bytes "page")).entries <;> rfl⟩

/-- The page that is edited is the one that was there, stripped once more. -/
theorem Reworked.edited {old record : Record} (h : Reworked old record) {ts : Int} {page : Bytes}
    {cells : List (Int × Bytes)} (hpage : (column record (bytes "page")).entries = (ts,page) :: cells) :
    Reworked old (record.insert (bytes "page") ((column record (bytes "page")).insert ts (stripCode page))) where
  others name hname htag := by
    rw [OrdMap.find?_insert,if_neg hname]
    exact h.others name hname htag
  page := by
    obtain ⟨n,hn⟩ := h.page
    refine ⟨n + 1,?_⟩
    rw [column,OrdMap.get_insert,if_pos rfl,OrdMap.entries_insert_head hpage]
    rw [hpage] at hn
    cases hold : (column old (bytes "page")).entries with
    | nil => simp [hold] at hn
    | cons p rest =>
      rw [hold,List.modifyHead_cons,List.cons.injEq,Prod.mk.injEq] at hn
      obtain ⟨⟨rfl,rfl⟩,rfl⟩ := hn
      rw [List.modifyHead_cons,Function.iterate_succ_apply']

theorem Reworked.tagged {old record : Record} (h : Reworked old record) (tags : Column) :
    Reworked old (record.insert (bytes "tag") tags) where
  others name hname htag := by
    rw [OrdMap.find?_insert,if_neg htag]
    exact h.others name hname htag
  page := by
    have hne : bytes "page" ≠ bytes "tag" := by decide
    rw [column,OrdMap.get_insert,if_neg hne]
    exact h.page

def firstPage (web : TableSlice) (key : Key) : Option (Int × Bytes) :=
  (column (web.get key ∅) (bytes "page")).entries.head?

/-- No row has come or gone, and each is a rework of what it was. -/
def WebKept (web₀ web : TableSlice) : Prop := ∀ key, Option.Rel Reworked (web₀.find? key) (web.find? key)

theorem WebKept.firstPage {web₀ web : TableSlice} (h : WebKept web₀ web) (key : Key) :
    ∃ n, firstPage web key = (firstPage web₀ key).map (fun p => (p.1,stripCode^[n] p.2)) := by
  have hkey := h key
  rw [Site.firstPage,Site.firstPage,OrdMap.get,OrdMap.get]
  generalize web₀.find? key = old,web.find? key = new at hkey
  cases hkey with
  | none => exact ⟨0,by simp [column,OrdMap.get]⟩
  | some hr =>
    obtain ⟨n,hn⟩ := hr.page
    refine ⟨n,?_⟩
    rw [Option.getD_some,Option.getD_some,hn]
    cases (column _ (bytes "page")).entries <;> rfl

/-- A TagTable that only indexers have written to, each row for a page of the site. -/
def Linked (web₀ tag : TableSlice) : Prop :=
  ∀ p ∈ tag.entries, ∃ kw rowKey title ts nt, 0 ≤ ts ∧ 0 ≤ nt ∧ p = (tagKey kw ts nt,tagRecord rowKey title) ∧
    (firstPage web₀ rowKey).isSome

theorem Linked.ecWritten {web₀ tag : TableSlice} (h : Linked web₀ tag) : EcWritten tag := by
  intro p hp
  obtain ⟨kw,rowKey,title,ts,nt,hts,hnt,heq,-⟩ := h p hp
  exact ⟨kw,rowKey,title,ts,nt,hts,hnt,heq⟩

theorem Linked.url {web₀ tag : TableSlice} (h : Linked web₀ tag) {p : Key × Record} (hp : p ∈ tag.entries) :
    (firstPage web₀ (urlCell p)).isSome := by
  obtain ⟨kw,rowKey,title,ts,nt,-,-,rfl,hpage⟩ := h p hp
  rw [urlCell,cell_url]
  exact hpage

theorem Linked.insert {web₀ tag : TableSlice} (h : Linked web₀ tag) {ts nt : Int} (hts : 0 ≤ ts) (hnt : 0 ≤ nt)
    (kw title : Bytes) {rowKey : Key} (hpage : (firstPage web₀ rowKey).isSome) :
    Linked web₀ (tag.insert (tagKey kw ts nt) (tagRecord rowKey title)) := by
  intro p hp
  have hfind := OrdMap.find?_eq_some_iff.mpr hp
  rw [OrdMap.find?_insert] at hfind
  split_ifs at hfind with hkey
  · exact ⟨kw,rowKey,title,ts,nt,hts,hnt,Prod.ext hkey (Option.some.inj hfind).symm,hpage⟩
  · exact h p (OrdMap.find?_eq_some_iff.mp hfind)

def Held (web₀ : TableSlice) (row : Key × Record) : Prop := ∃ old, web₀.find? row.1 = some old ∧ Reworked old row.2

theorem WebKept.held {web₀ web : TableSlice} (h : WebKept web₀ web) {row : Key × Record} (hrow : row ∈ web.entries) :
    Held web₀ row := by
  have hkey := h row.1
  rw [OrdMap.find?_eq_some_iff.mpr hrow] at hkey
  cases hold : web₀.find? row.1 with
  | none =>
    rw [hold] at hkey
    cases hkey
  | some old =>
    rw [hold] at hkey
    cases hkey with
    | some hr => exact ⟨old,hold,hr⟩

theorem WebKept.insert {web₀ web : TableSlice} (h : WebKept web₀ web) {row : Key × Record} (hrow : Held web₀ row) :
    WebKept web₀ (web.insert row.1 row.2) := by
  intro key
  rw [OrdMap.find?_insert]
  split_ifs with hkey
  · obtain ⟨old,hold,hr⟩ := hrow
    rw [hkey,hold]
    exact .some hr
  · exact h key

/-- A held row with a page belongs to a page of the site, with the same timestamp. -/
theorem Held.firstPage {web₀ : TableSlice} {row : Key × Record} (h : Held web₀ row) {ts : Int} {page : Bytes}
    {cells : List (Int × Bytes)} (hpage : (column row.2 (bytes "page")).entries = (ts,page) :: cells) :
    ∃ page₀, firstPage web₀ row.1 = some (ts,page₀) := by
  obtain ⟨old,hold,hr⟩ := h
  obtain ⟨n,hn⟩ := hr.page
  rw [Site.firstPage,OrdMap.get,hold,Option.getD_some]
  rw [hpage] at hn
  cases hcells : (column old (bytes "page")).entries with
  | nil => simp [hcells] at hn
  | cons p rest =>
    rw [hcells,List.modifyHead_cons,List.cons.injEq,Prod.mk.injEq] at hn
    exact ⟨p.2,by rw [List.head?_cons,hn.1.1]⟩

section
variable {σ τ υ : Type} (prog : Programs σ τ υ) (webRows : σ → TableSlice) (tagRows : τ → TableSlice)

/-- What the programs rely on in the servers of their tables. -/
structure Laws : Prop where
  webStores : Stores prog.webtable webRows
  webReads : ReadsRows prog.webtable webRows
  webScans : ∀ s, ScanRuns (prog.webtable.scan s) (webRows s)
  tagStores : Stores prog.tagtable tagRows
  tagScans : ∀ s, ScanRuns (prog.tagtable.scan s) (tagRows s)
  userReads : ReadsBack prog.usertable

/-- The stored profile counts some of the finished views, each of them as a whole. -/
def ProfileOf (row₀ : Record) (counted : List (List Bytes)) (row : Record) : Prop :=
  ∃ kept : List (List Bytes), kept.Sublist counted ∧ recordTags row₀ kept.flatten = some row

structure Sound (web₀ : TableSlice) (row₀ : Record) (s : Servers σ τ υ) : Prop where
  web : WebKept web₀ (webRows s.web)
  tag : Linked web₀ (tagRows s.tag)
  user : ProfileOf row₀ s.counted (prog.usertable.read s.user (bytes "user")).2

/-- What an indexer has in hand at each point. -/
def Pc.Sound (web₀ : TableSlice) : Pc → Prop
  | .scan => True
  | .rows todo => ∀ row ∈ todo, Held web₀ row
  | .tags rowKey _ ts _ _ record todo =>
    0 ≤ ts ∧ (firstPage web₀ rowKey).isSome ∧ Held web₀ (rowKey,record) ∧ ∀ row ∈ todo, Held web₀ row
  | .stop => True

variable {prog webRows tagRows} {web₀ : TableSlice} {row₀ : Record}

theorem indexerStep_sound (laws : Laws prog webRows tagRows) (hts : ∀ key p, firstPage web₀ key = some p → 0 ≤ p.1)
    {getMicros : Nat → Int} (hclock : ∀ n, 0 ≤ getMicros n) (endKey : Key) (st : State σ τ) {pc : Pc}
    (hweb : WebKept web₀ (webRows st.web)) (htag : Linked web₀ (tagRows st.tag)) (hpc : pc.Sound web₀) :
    let out := indexerStep (prog.env getMicros) endKey (st,pc)
    WebKept web₀ (webRows out.1.web) ∧ Linked web₀ (tagRows out.1.tag) ∧ out.2.Sound web₀ := by
  intro out
  cases pc with
  | scan =>
    have hheld : ∀ row ∈ (prog.webtable.scan st.web st.lastKey (bytes "~")).2.entries, Held web₀ row :=
      fun row hrow => hweb.held ((laws.webScans st.web).mem hrow).1
    simp only [out,indexerStep]
    split_ifs
    · exact ⟨hweb,htag,trivial⟩
    · exact ⟨hweb,htag,hheld⟩
    · exact ⟨hweb,htag,trivial⟩
  | rows todo =>
    cases todo with
    | nil => exact ⟨hweb,htag,trivial⟩
    | cons row todo =>
      obtain ⟨rowKey,record⟩ := row
      obtain ⟨hrow,htodo⟩ := List.forall_mem_cons.mp hpc
      simp only [out,indexerStep]
      split_ifs
      · exact ⟨hweb,htag,htodo⟩
      · split
        · exact ⟨hweb,htag,htodo⟩
        · rename_i ts page cells hpage
          obtain ⟨page₀,hpage₀⟩ := hrow.firstPage hpage
          obtain ⟨old,hold,hr⟩ := hrow
          exact ⟨hweb,htag,hts _ _ hpage₀,by rw [hpage₀]; rfl,⟨old,hold,hr.edited hpage⟩,htodo⟩
  | tags rowKey title ts kws i record todo =>
    obtain ⟨hts',hpage,hrow,htodo⟩ := hpc
    cases kws with
    | nil =>
      refine ⟨?_,htag,htodo⟩
      change WebKept web₀ (webRows (prog.webtable.write st.web rowKey record).2)
      rw [laws.webStores]
      exact hweb.insert hrow
    | cons kw kws =>
      obtain ⟨old,hold,hr⟩ := hrow
      refine ⟨hweb,?_,hts',hpage,⟨old,hold,hr.tagged _⟩,htodo⟩
      change Linked web₀ (tagRows (prog.tagtable.write st.tag _ _).2)
      rw [laws.tagStores]
      exact htag.insert hts' (hclock _) kw title hpage
  | stop => exact ⟨hweb,htag,trivial⟩

end

end Aret.Site
