import Aret.Engine.RandomCursor
import Aret.Engine.TagLookup
import Aret.Engine.TagQuota
import Mathlib.Data.List.Sort

/-! What `GetRecommend` returns, row by row: first the rows looked up for the
profile, then the rows of the random fill. Over an indexed TagTable its three
vectors stay aligned and every entry comes from one row. -/
namespace Aret.Engine
open Lib Tera Indexer

/-- The rows of the profile part, each with the tag it was looked up for. -/
def profilePicks (tagtable : Scan) (q : TagItem → Int) (used : List TagItem) : List (Bytes × (Key × Record)) :=
  used.flatMap (fun item => (picks tagtable item.tag (q item)).map (fun p => (item.tag,p)))

section
variable {fp : Rounding 53} (lib : CxxLib) (tagtable : Scan) {di : ℚ} {num : Int}

/-- When its casts are defined, the loop looks up the quota of each tag. -/
theorem profileLoop_spec {used : List TagItem} {q : TagItem → Int}
    (hq : ∀ item ∈ used, tagNum fp item.num di num = some (q item)) (lists : Lists) (serr : Bytes) :
    ∃ serr', profileLoop fp lib tagtable di num used (lists,serr) =
      let got := profilePicks tagtable q used
      some (⟨lists.urls ++ got.map (fun q => urlCell q.2),lists.desc ++ got.map (fun q => titleCell q.2),
        lists.tags ++ got.map Prod.fst⟩,serr') := by
  induction used generalizing lists serr with
  | nil => exact ⟨serr,by simp [profileLoop,profilePicks]⟩
  | cons item used ih =>
    obtain ⟨hitem,hused⟩ := List.forall_mem_cons.mp hq
    obtain ⟨err,hgot⟩ := getUrlForTag_spec tagtable item.tag (q item) lists.urls lists.desc serr
    obtain ⟨serr',hrest⟩ := ih hused ⟨_,_,_⟩ _
    refine ⟨serr',?_⟩
    rw [profileLoop,hitem,Option.bind_some,hgot]
    refine hrest.trans ?_
    simp [profilePicks,List.flatMap_cons,Function.comp_def]

theorem tagNum_of_profileLoop {used : List TagItem} {st out : Lists × Bytes}
    (h : profileLoop fp lib tagtable di num used st = some out) :
    ∀ item ∈ used, tagNum fp item.num di num = some ((tagNum fp item.num di num).getD 0) := by
  induction used generalizing st with
  | nil => simp
  | cons item used ih =>
    rw [profileLoop] at h
    obtain ⟨n,hn,h⟩ := Option.bind_eq_some_iff.mp h
    exact List.forall_mem_cons.mpr ⟨by rw [hn]; rfl,ih h⟩

end

def usedItems (lib : CxxLib) (usertable : Read) (user : Key) : List TagItem :=
  if (usertable user).1 && (usertable user).2.size != 0 then (lib.sort (tagItems (usertable user).2)).take 5 else []

/-- The casts to `int` are defined, and give these quotas. -/
def Quotas (fp : Rounding 53) (used : List TagItem) (num : Int) (q : TagItem → Int) : Prop :=
  ∀ item ∈ used, tagNum fp item.num (fp.round (1 / allPrio used)) num = some (q item)

theorem mem_of_mem_usedItems {lib : CxxLib} {usertable : Read} {user : Key} {item : TagItem}
    (h : item ∈ usedItems lib usertable user) : item ∈ tagItems (usertable user).2 := by
  rw [usedItems] at h
  split_ifs at h
  · exact (lib.sort_perm _).mem_iff.mp (List.mem_of_mem_take h)
  · exact absurd h List.not_mem_nil

/-- The profile part of a call: `none` when it gives up on `all_prio == 0`. -/
def profileRows (lib : CxxLib) (usertable : Read) (tagtable : Scan) (user : Key) (q : TagItem → Int) :
    Option (List (Bytes × (Key × Record))) :=
  if (usertable user).1 && (usertable user).2.size != 0 && allPrio (usedItems lib usertable user) = 0 then none
  else some (profilePicks tagtable q (usedItems lib usertable user))

/-- The rows of the random fill, after `size` urls of the profile part. -/
def fillRows (tagtable : Scan) (lastRand : Key) (num : Int) (size : Nat) : List (Key × Record) :=
  (fillStart tagtable lastRand).2.take (fillNum num size).toNat

theorem scanned_of_mem_fillRows {tagtable : Scan} {lastRand : Key} {num : Int} {size : Nat} {p : Key × Record}
    (hp : p ∈ fillRows tagtable lastRand num size) : ∃ s, p ∈ (tagtable s (bytes "~")).2.entries := by
  have hstart := (List.take_prefix _ _).subset hp
  rw [fillStart] at hstart
  split_ifs at hstart
  · exact ⟨lastRand,hstart⟩
  · exact ⟨[],hstart⟩

section
variable {fp : Rounding 53} {lib : CxxLib} {usertable : Read} {tagtable : Scan} {lastRand user : Key} {num : Int}
  {q : TagItem → Int}

theorem getRecommend_of_none (h : profileRows lib usertable tagtable user q = none) (lists : Lists) :
    getRecommendWith fp lib usertable tagtable lastRand user num lists =
      some ⟨false,lists,bytes "No url can be Recommend: all_prio == 0",lastRand⟩ := by
  simp only [profileRows] at h
  split_ifs at h with hgiven
  obtain ⟨hread,hprio⟩ := Bool.and_eq_true_iff.mp hgiven
  rw [usedItems,if_pos hread,decide_eq_true_eq] at hprio
  simp only [getRecommendWith,hread,profilePart,hprio,if_true,Option.bind_some]

variable (tagtable) in
theorem profilePart_spec {row : Record} (hprio : allPrio ((lib.sort (tagItems row)).take 5) ≠ 0)
    (hq : Quotas fp ((lib.sort (tagItems row)).take 5) num q) (lists : Lists) :
    let got := profilePicks tagtable q ((lib.sort (tagItems row)).take 5)
    ∃ serr, profilePart fp lib tagtable row num lists =
      some (.ok (⟨lists.urls ++ got.map (fun q => urlCell q.2),lists.desc ++ got.map (fun q => titleCell q.2),
        lists.tags ++ got.map Prod.fst⟩,serr)) := by
  intro got
  obtain ⟨serr,hloop⟩ := profileLoop_spec lib tagtable hq lists
    (bytes "di= " ++ lib.showDouble (fp.round (1 / allPrio ((lib.sort (tagItems row)).take 5))) ++ bytes "<br/>\n")
  refine ⟨serr,?_⟩
  simp only [profilePart,hprio,if_false,hloop]
  rfl

theorem profile_ok (hq : Quotas fp (usedItems lib usertable user) num q) {got : List (Bytes × (Key × Record))}
    (h : profileRows lib usertable tagtable user q = some got) (lists : Lists) :
    ∃ serr, (if (usertable user).1 && (usertable user).2.size != 0 then
        profilePart fp lib tagtable (usertable user).2 num lists else some (.ok (lists,[]))) =
      some (.ok (⟨lists.urls ++ got.map (fun q => urlCell q.2),lists.desc ++ got.map (fun q => titleCell q.2),
        lists.tags ++ got.map Prod.fst⟩,serr)) := by
  simp only [profileRows] at h
  split_ifs at h with hgiven
  obtain rfl := Option.some.inj h
  by_cases hread : ((usertable user).1 && (usertable user).2.size != 0) = true
  · rw [hread,Bool.true_and,decide_eq_true_eq] at hgiven
    rw [usedItems,if_pos hread] at hq hgiven ⊢
    rw [if_pos hread]
    exact profilePart_spec tagtable hgiven hq lists
  · rw [usedItems,if_neg hread,if_neg hread]
    exact ⟨[],by simp [profilePicks]⟩

/-- Otherwise the vectors list the rows of the profile part and then those of
the fill, and the call is defined exactly when the latter have their cells. -/
theorem getRecommend_of_some (hq : Quotas fp (usedItems lib usertable user) num q) {got : List (Bytes × (Key × Record))}
    (h : profileRows lib usertable tagtable user q = some got) (lastRand : Key) :
    ∃ err, ∀ out, getRecommendWith fp lib usertable tagtable lastRand user num .empty = some out ↔
      let fill := fillRows tagtable lastRand num got.length
      (∀ p ∈ fill, HasCells p.2) ∧
      ⟨true,⟨got.map (fun q => urlCell q.2) ++ fill.map (fun p => urlOf p.2),
        got.map (fun q => titleCell q.2) ++ fill.map (fun p => titleOf p.2),
        (got.map Prod.fst ++ fill.map Prod.fst).map stripKey⟩,err,
        cursorAfter (fillStart tagtable lastRand).1 fill⟩ = out := by
  obtain ⟨serr,hprofile⟩ := profile_ok hq h .empty
  simp only [Lists.empty,List.nil_append] at hprofile
  let size := got.length + (fillRows tagtable lastRand num got.length).length
  refine ⟨serr ++ bytes "url_num: " ++ decimal size ++ bytes ", title_num: " ++ decimal size ++ bytes "<br/>\n",
    fun out => ?_⟩
  simp only [getRecommendWith,Lists.empty,hprofile,Option.bind_some,List.length_map,Option.map_eq_some_iff,
    randomRecommend_some]
  constructor
  · rintro ⟨st,⟨hcells,rfl⟩,rfl⟩
    exact ⟨hcells,by simp [size,filled,fillRows]⟩
  · rintro ⟨hcells,rfl⟩
    exact ⟨_,⟨hcells,rfl⟩,by simp [size,filled,fillRows]⟩

theorem quotas_of_getRecommend {lists : Lists} {out : Recommendation}
    (h : getRecommendWith fp lib usertable tagtable lastRand user num lists = some out) :
    ∃ q, Quotas fp (usedItems lib usertable user) num q ∨ profileRows lib usertable tagtable user q = none := by
  refine ⟨fun item => (tagNum fp item.num (fp.round (1 / allPrio (usedItems lib usertable user))) num).getD 0,?_⟩
  rw [Quotas,profileRows,usedItems]
  by_cases hread : ((usertable user).1 && (usertable user).2.size != 0) = true
  · simp only [hread,if_true,Bool.true_and,decide_eq_true_eq]
    simp only [getRecommendWith,hread,if_true,profilePart] at h
    split_ifs at h ⊢ with hprio
    · exact Or.inr rfl
    · obtain ⟨part,hpart,-⟩ := Option.bind_eq_some_iff.mp h
      obtain ⟨st,hst,-⟩ := Option.map_eq_some_iff.mp hpart
      exact Or.inl (tagNum_of_profileLoop lib tagtable hst)
  · simp [hread]

end

/-- In an indexed row `begin()` and `[0]` are the same cell. -/
theorem begin_eq_of_ecRows {rows : TableSlice} (hrows : EcRows rows) {p : Key × Record} (hp : p ∈ rows.entries) :
    beginCell (column p.2 (bytes "url")) = some (urlCell p) ∧
      beginCell (column p.2 (bytes "title")) = some (titleCell p) := by
  obtain ⟨kw,rowKey,title,ts,nt,rfl⟩ := hrows p hp
  rw [urlCell,titleCell,cell_url,cell_title,column_url,column_title]
  exact ⟨rfl,rfl⟩

section
variable {tagtable : Scan} {rows : TableSlice} (hscan : ScanRuns tagtable rows)
include hscan

theorem mem_of_mem_picks {tag : Bytes} {num : Int} {p : Key × Record} (hp : p ∈ picks tagtable tag num) :
    p ∈ rows.entries := by
  rw [picks] at hp
  split_ifs at hp with hok
  · have hslice := (List.takeWhile_prefix _).subset (List.mem_filter.mp ((List.take_prefix _ _).subset hp)).1
    exact (hscan.mem hslice).1
  · exact absurd hp List.not_mem_nil

theorem mem_of_mem_fillRows {lastRand : Key} {num : Int} {size : Nat} {p : Key × Record}
    (hp : p ∈ fillRows tagtable lastRand num size) : p ∈ rows.entries := by
  obtain ⟨s,hs⟩ := scanned_of_mem_fillRows hp
  exact (hscan.mem hs).1

theorem mem_of_mem_profilePicks {q : TagItem → Int} {used : List TagItem} {p : Bytes × (Key × Record)}
    (hp : p ∈ profilePicks tagtable q used) : p.2 ∈ rows.entries := by
  obtain ⟨item,-,hp⟩ := List.mem_flatMap.mp hp
  obtain ⟨row,hrow,rfl⟩ := List.mem_map.mp hp
  exact mem_of_mem_picks hscan hrow

theorem mem_of_mem_profileRows {lib : CxxLib} {usertable : Read} {user : Key} {q : TagItem → Int}
    {got : List (Bytes × (Key × Record))} (h : profileRows lib usertable tagtable user q = some got)
    {p : Bytes × (Key × Record)} (hp : p ∈ got) : p.2 ∈ rows.entries := by
  rw [profileRows] at h
  split_ifs at h with hgiven
  obtain rfl := Option.some.inj h
  exact mem_of_mem_profilePicks hscan hp

/-- Over an indexed table a call returns: its urls and titles are the cells of
rows of the table, one row for each place, and its tags are stripped. -/
theorem getRecommend_rows (hrows : EcRows rows) {fp : Rounding 53} {lib : CxxLib} {usertable : Read} {user : Key}
    {num : Int} {q : TagItem → Int} (hq : Quotas fp (usedItems lib usertable user) num q)
    {got : List (Bytes × (Key × Record))} (h : profileRows lib usertable tagtable user q = some got) (lastRand : Key) :
    ∃ out, getRecommendWith fp lib usertable tagtable lastRand user num .empty = some out ∧ out.ret = true ∧
      ∃ taken : List (Key × Record), taken = got.map Prod.snd ++ fillRows tagtable lastRand num got.length ∧
        (∀ p ∈ taken, p ∈ rows.entries) ∧ out.lists.urls = taken.map urlCell ∧ out.lists.desc = taken.map titleCell ∧
        out.lists.tags =
          (got.map Prod.fst ++ (fillRows tagtable lastRand num got.length).map Prod.fst).map stripKey := by
  have hmem : ∀ p ∈ fillRows tagtable lastRand num got.length, p ∈ rows.entries :=
    fun p hp => mem_of_mem_fillRows hscan hp
  have hurl : ∀ p ∈ fillRows tagtable lastRand num got.length, urlOf p.2 = urlCell p := fun p hp => by
    rw [urlOf,(begin_eq_of_ecRows hrows (hmem p hp)).1,Option.getD_some]
  have htitle : ∀ p ∈ fillRows tagtable lastRand num got.length, titleOf p.2 = titleCell p := fun p hp => by
    rw [titleOf,(begin_eq_of_ecRows hrows (hmem p hp)).2,Option.getD_some]
  obtain ⟨err,hiff⟩ := getRecommend_of_some hq h lastRand
  have hcells : ∀ p ∈ fillRows tagtable lastRand num got.length, HasCells p.2 := fun p hp => by
    simp [HasCells,begin_eq_of_ecRows hrows (hmem p hp)]
  refine ⟨_,(hiff _).mpr ⟨hcells,rfl⟩,rfl,_,rfl,?_,?_,?_,rfl⟩
  · intro p hp
    rcases List.mem_append.mp hp with hp | hp
    · obtain ⟨q,hq,rfl⟩ := List.mem_map.mp hp
      exact mem_of_mem_profileRows hscan h hq
    · exact hmem p hp
  · simp [Function.comp_def,List.map_congr_left hurl]
  · simp [Function.comp_def,List.map_congr_left htitle]

/-- Over an indexed table only a cast can be undefined. -/
theorem getRecommend_defined (hrows : EcRows rows) {fp : Rounding 53} {lib : CxxLib} {usertable : Read} {user : Key}
    {num : Int} {q : TagItem → Int}
    (hq : profileRows lib usertable tagtable user q ≠ none → Quotas fp (usedItems lib usertable user) num q)
    (lastRand : Key) : ∃ out, getRecommendWith fp lib usertable tagtable lastRand user num .empty = some out := by
  cases h : profileRows lib usertable tagtable user q with
  | none => exact ⟨_,getRecommend_of_none h .empty⟩
  | some got =>
    obtain ⟨out,hout,-⟩ := getRecommend_rows hscan hrows (hq (by simp [h])) h lastRand
    exact ⟨out,hout⟩

end

theorem quotas_of_nonneg (fp : Rounding 53) {lib : CxxLib} {usertable : Read} {tagtable : Scan} {user : Key}
    (hcounts : ∀ item ∈ tagItems (usertable user).2, 0 ≤ item.num) {num : Int} (hl : -2^31 ≤ num) (hu : num < 2^31)
    {q : TagItem → Int} {got : List (Bytes × (Key × Record))}
    (h : profileRows lib usertable tagtable user q = some got) :
    Quotas fp (usedItems lib usertable user) num (quota fp (usedItems lib usertable user) num) := by
  intro item hi
  have hread : ((usertable user).1 && (usertable user).2.size != 0) = true := by
    by_contra hno
    rw [usedItems,if_neg hno] at hi
    exact absurd hi List.not_mem_nil
  have hprio : allPrio (usedItems lib usertable user) ≠ 0 := by
    intro hzero
    rw [profileRows,hread,Bool.true_and,if_pos (decide_eq_true hzero)] at h
    exact nomatch h
  exact tagNum_eq fp (fun _ hj => hcounts _ (mem_of_mem_usedItems hj)) hprio hi hl hu

/-- Over an indexed table a call reads no missing cell: it returns as soon as its
casts are defined, as they are for a profile without negative counts. Whenever a
call returns, its vectors have one length, each place of `urls` and `desc` holds the
cells of one row, and a failed call leaves them empty. -/
theorem recommend_lists_aligned (lib : CxxLib) {tagtable : Scan} {rows : TableSlice} (hrows : EcRows rows)
    (hscan : ScanRuns tagtable rows) (usertable : Read) (lastRand user : Key) (num : Int) :
    let used := usedItems lib usertable user
    ((∀ item ∈ used, tagNum double item.num (double.round (1 / allPrio used)) num ≠ none) →
      ∃ out, getRecommend lib usertable tagtable lastRand user num .empty = some out) ∧
    ((∀ item ∈ tagItems (usertable user).2, 0 ≤ item.num) → -2^31 ≤ num → num < 2^31 →
      ∃ out, getRecommend lib usertable tagtable lastRand user num .empty = some out) ∧
    ∀ out, getRecommend lib usertable tagtable lastRand user num .empty = some out →
      out.lists.desc.length = out.lists.urls.length ∧ out.lists.tags.length = out.lists.urls.length ∧
      (∀ (i : Nat) url, out.lists.urls[i]? = some url → ∃ p ∈ rows.entries,
        cell p.2 (bytes "url") 0 = url ∧ out.lists.desc[i]? = some (cell p.2 (bytes "title") 0) ∧
        beginCell (column p.2 (bytes "url")) = some (cell p.2 (bytes "url") 0) ∧
        beginCell (column p.2 (bytes "title")) = some (cell p.2 (bytes "title") 0)) ∧
      (out.ret = false → out.lists = .empty) := by
  intro used
  simp only [getRecommend]
  refine ⟨fun hcasts => ?_,fun hcounts hl hu => ?_,fun out hout => ?_⟩
  · have hq : Quotas double used num (fun item =>
        (tagNum double item.num (double.round (1 / allPrio used)) num).getD 0) := fun item hi => by
      obtain ⟨n,hn⟩ := Option.ne_none_iff_exists'.mp (hcasts item hi)
      simp only [hn,Option.getD_some]
    exact getRecommend_defined hscan hrows (fun _ => hq) lastRand
  · refine getRecommend_defined hscan hrows (q := quota double used num) (fun h => ?_) lastRand
    obtain ⟨got,hgot⟩ := Option.ne_none_iff_exists'.mp h
    exact quotas_of_nonneg double hcounts hl hu hgot
  · obtain ⟨q,hq⟩ := quotas_of_getRecommend hout
    cases h : profileRows lib usertable tagtable user q with
    | none =>
      rw [getRecommend_of_none h .empty,Option.some_inj] at hout
      subst hout
      refine ⟨rfl,rfl,?_,fun _ => rfl⟩
      intro i url hi
      exact nomatch hi
    | some got =>
      have hq := hq.resolve_right (by rw [h]; exact Option.some_ne_none got)
      obtain ⟨out',heq,hret,taken,htaken,hmem,hurls,hdesc,htags⟩ := getRecommend_rows hscan hrows hq h lastRand
      obtain rfl := Option.some.inj (hout.symm.trans heq)
      refine ⟨by simp [hurls,hdesc],by simp [hurls,htags,htaken],?_,by simp [hret]⟩
      intro i url hi
      rw [hurls,List.getElem?_map,Option.map_eq_some_iff] at hi
      obtain ⟨p,hp,rfl⟩ := hi
      have hrow := hmem p (List.mem_of_getElem? hp)
      refine ⟨p,hrow,rfl,?_,begin_eq_of_ecRows hrows hrow⟩
      rw [hdesc,List.getElem?_map,hp]
      rfl

/-- A library that sorts by insertion and prints whole numbers as they are. -/
def insertionLib : CxxLib where
  sort items := items.insertionSort (fun a b => b.num ≤ a.num)
  sort_perm items := List.perm_insertionSort _ items
  sort_sorted items := by
    have : Std.Total (fun a b : TagItem => b.num ≤ a.num) := ⟨fun a b => le_total b.num a.num⟩
    have : IsTrans TagItem (fun a b => b.num ≤ a.num) := ⟨fun a b c hab hbc => hbc.trans hab⟩
    exact (List.pairwise_insertionSort (fun a b : TagItem => b.num ≤ a.num) items).imp (fun hab => not_lt.mpr hab)
  showDouble q := showInt q.num ++ (if q.den = 1 then [] else bytes "/" ++ decimal q.den)

def viewedOnce (tags : List Bytes) : Read := memTable.read (.single (bytes "user") ((recordTags ∅ tags).getD ∅))

theorem recommend_lists_aligned_sample :
    ∃ out, getRecommend insertionLib (viewedOnce [bytes "b"]) (memTable.scan twoKeywords) [] (bytes "user") 2 .empty =
        some out ∧ out.lists.tags.length = out.lists.urls.length := by
  obtain ⟨-,hreturns,haligned⟩ := recommend_lists_aligned insertionLib twoKeywords_ecWritten.rows
    (memTable_scanRuns twoKeywords) (viewedOnce [bytes "b"]) [] (bytes "user") 2
  obtain ⟨out,hout⟩ := hreturns (by decide) (by decide) (by decide)
  exact ⟨out,hout,(haligned out hout).2.1⟩

end Aret.Engine
