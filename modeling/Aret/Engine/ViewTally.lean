import Aret.Engine.ReEngine
import Mathlib.Algebra.Order.BigOperators.Group.List
import Mathlib.Algebra.Order.Group.Multiset
import Mathlib.Data.Rat.Cast.Order

/-! A user row is the bag of tags its owner has viewed, one decimal count per
tag. `RecordActions` adds to the bag, and the profile decoding of `GetRecommend`
reads it back. -/
namespace Aret.Engine
open Lib Tera

/-- The column a tag is counted in. -/
def profileKey (tag : Bytes) : Key := bytes "tag:" ++ tag

theorem profileKey_injective {s t : Bytes} (h : profileKey s = profileKey t) : s = t :=
  List.append_cancel_left h

/-- The stored count of a tag, `0` where there is none. -/
def rowCount (row : Record) (tag : Bytes) : Int := atoi (cell row (profileKey tag) 0)

theorem rowCount_range (row : Record) (tag : Bytes) : -2^31 ≤ rowCount row tag ∧ rowCount row tag < 2^31 :=
  atoi_range _

/-- Whatever the row holds, one pass rewrites one cell and adds one to its count,
unless that is at the top of `int`. An absent column counts as `0`. -/
theorem bumpTag_eq (row : Record) (tag : Bytes) :
    bumpTag row tag = if rowCount row tag = 2^31 - 1 then none
      else some (row.insert (profileKey tag)
        ((column row (profileKey tag)).insert 0 (showInt (rowCount row tag + 1)))) := by
  cases he : (column row (profileKey tag)).isEmpty with
  | true =>
    have hc : column row (profileKey tag) = ∅ := OrdMap.entries_injective (OrdMap.isEmpty_iff.mp he)
    have hz : rowCount row tag = 0 := by
      rw [rowCount,cell,hc]
      rfl
    rw [hz,if_neg (by decide)]
    exact if_pos he
  | false => exact if_neg (Bool.eq_false_iff.mp he)

theorem rowCount_bumpTag {row row' : Record} {tag : Bytes} (h : bumpTag row tag = some row') (t : Bytes) :
    rowCount row' t = rowCount row t + if t = tag then 1 else 0 := by
  rw [bumpTag_eq] at h
  split_ifs at h with htop
  obtain rfl := Option.some.inj h
  obtain ⟨hl,hu⟩ := rowCount_range row tag
  split_ifs with ht
  · subst ht
    have hshow := atoi_showInt (z := rowCount row t + 1) (by omega) (by omega)
    simpa [rowCount,cell,column,OrdMap.get_insert] using hshow
  · have hk : profileKey t ≠ profileKey tag := fun hk => ht (profileKey_injective hk)
    simp [rowCount,cell,column,OrdMap.get_insert,hk]

theorem recordTags_append (row : Record) (s t : List Bytes) :
    recordTags row (s ++ t) = (recordTags row s).bind (fun row => recordTags row t) := List.foldlM_append

theorem recordTags_cons (row : Record) (tag : Bytes) (tags : List Bytes) :
    recordTags row (tag :: tags) = (bumpTag row tag).bind (fun row => recordTags row tags) := List.foldlM_cons

theorem rowCount_recordTags {row row' : Record} {tags : List Bytes} (h : recordTags row tags = some row') (t : Bytes) :
    rowCount row' t = rowCount row t + tags.count t := by
  induction tags generalizing row with
  | nil =>
    obtain rfl := Option.some.inj h
    simp
  | cons tag tags ih =>
    rw [recordTags_cons] at h
    obtain ⟨mid,hmid,h⟩ := Option.bind_eq_some_iff.mp h
    rw [ih h,rowCount_bumpTag hmid,List.count_cons]
    simp only [beq_iff_eq,eq_comm (a := tag)]
    split_ifs <;> push_cast <;> omega

/-- Nothing overflows exactly when every count stays an `int`. -/
theorem recordTags_defined_iff (row : Record) (tags : List Bytes) :
    (∃ row', recordTags row tags = some row') ↔ ∀ t, rowCount row t + tags.count t ≤ 2^31 - 1 := by
  induction tags generalizing row with
  | nil =>
    refine iff_of_true ⟨row,rfl⟩ (fun t => ?_)
    have hu := (rowCount_range row t).2
    simp only [List.count_nil,Nat.cast_zero]
    omega
  | cons tag tags ih =>
    rw [recordTags_cons]
    cases hmid : bumpTag row tag with
    | none =>
      rw [bumpTag_eq] at hmid
      split_ifs at hmid with htop
      refine iff_of_false (by simp) (fun h => ?_)
      have htag := h tag
      rw [htop,List.count_cons_self] at htag
      omega
    | some mid =>
      rw [Option.bind_some,ih]
      apply forall_congr'
      intro t
      rw [rowCount_bumpTag hmid,List.count_cons]
      simp only [beq_iff_eq,eq_comm (a := tag)]
      split_ifs <;> push_cast <;> constructor <;> intro _ <;> omega

/-- `row` holds exactly the bag `views`: a column per tag that occurs, with its
count as the only cell, at timestamp `0`. Every count is an `int`. -/
structure Encodes (row : Record) (views : Multiset Bytes) : Prop where
  find : ∀ key col, row.find? key = some col ↔
    ∃ tag ∈ views, key = profileKey tag ∧ col = .single 0 (decimal (views.count tag))
  bound : ∀ tag, views.count tag < 2^31

theorem Encodes.empty : Encodes ∅ 0 where
  find key col := by simp
  bound tag := by simp

theorem Encodes.find_key {row : Record} {views : Multiset Bytes} (h : Encodes row views) (tag : Bytes) :
    row.find? (profileKey tag) =
      if tag ∈ views then some (.single 0 (decimal (views.count tag))) else none := by
  apply Option.ext
  intro col
  rw [h.find]
  constructor
  · rintro ⟨t,ht,hk,rfl⟩
    obtain rfl := profileKey_injective hk
    rw [if_pos ht]
  · intro hc
    split_ifs at hc with ht
    exact ⟨tag,ht,rfl,(Option.some.inj hc).symm⟩

theorem Encodes.unique {row row' : Record} {views : Multiset Bytes} (h : Encodes row views) (h' : Encodes row' views) :
    row = row' := by
  apply OrdMap.ext_find?
  intro key
  apply Option.ext
  intro col
  rw [h.find,h'.find]

private theorem Encodes.item {row : Record} {views : Multiset Bytes} (h : Encodes row views) {tag : Bytes} :
    atoi ((OrdMap.single (0 : Int) (decimal (views.count tag))).get 0 []) = views.count tag := by
  have hb := h.bound tag
  rw [OrdMap.get_of_find? (v := decimal (views.count tag)) (by simp)]
  exact atoi_showInt (z := views.count tag) (by omega) (by omega)

theorem Encodes.rowCount_eq {row : Record} {views : Multiset Bytes} (h : Encodes row views) (tag : Bytes) :
    rowCount row tag = views.count tag := by
  have hcolumn : column row (profileKey tag) =
      if tag ∈ views then .single 0 (decimal (views.count tag)) else ∅ := by
    rw [column,OrdMap.get,h.find_key tag]
    split_ifs <;> rfl
  rw [rowCount,cell,hcolumn]
  split_ifs with ht
  · exact h.item
  · rw [Multiset.count_eq_zero_of_notMem ht]
    rfl

theorem Encodes.bumpTag {row row' : Record} {views : Multiset Bytes} (h : Encodes row views) {tag : Bytes}
    (hb : bumpTag row tag = some row') : Encodes row' (tag ::ₘ views) := by
  have hcount := h.rowCount_eq tag
  have hcolumn : (column row (profileKey tag)).insert 0 (showInt (rowCount row tag + 1)) =
      .single 0 (decimal ((tag ::ₘ views).count tag)) := by
    rw [column,OrdMap.get,h.find_key tag,hcount,Multiset.count_cons_self]
    split_ifs <;> rfl
  rw [bumpTag_eq] at hb
  split_ifs at hb with htop
  obtain rfl := Option.some.inj hb
  rw [hcolumn]
  constructor
  · intro key col
    rw [OrdMap.find?_insert]
    split_ifs with hk
    · subst hk
      constructor
      · intro hc
        exact ⟨tag,Multiset.mem_cons_self _ _,rfl,(Option.some.inj hc).symm⟩
      · rintro ⟨t,_,hk,rfl⟩
        rw [profileKey_injective hk]
    · rw [h.find]
      constructor
      · rintro ⟨t,ht,rfl,rfl⟩
        have hne : t ≠ tag := fun he => hk (he ▸ rfl)
        exact ⟨t,Multiset.mem_cons_of_mem ht,rfl,by rw [Multiset.count_cons_of_ne hne]⟩
      · rintro ⟨t,ht,rfl,rfl⟩
        have hne : t ≠ tag := fun he => hk (he ▸ rfl)
        exact ⟨t,(Multiset.mem_cons.mp ht).resolve_left hne,rfl,by rw [Multiset.count_cons_of_ne hne]⟩
  · intro t
    have hold := h.bound t
    by_cases ht : t = tag
    · rw [ht,Multiset.count_cons_self]
      rw [ht] at hold
      omega
    · rwa [Multiset.count_cons_of_ne ht]

theorem Encodes.recordTags {row row' : Record} {views : Multiset Bytes} (h : Encodes row views) {tags : List Bytes}
    (hr : recordTags row tags = some row') : Encodes row' (views + ↑tags) := by
  induction tags generalizing row views with
  | nil =>
    obtain rfl := Option.some.inj hr
    simpa using h
  | cons tag tags ih =>
    rw [recordTags_cons] at hr
    obtain ⟨mid,hmid,hr⟩ := Option.bind_eq_some_iff.mp hr
    have he : (tag ::ₘ views) + (tags : Multiset Bytes) = views + ((tag :: tags : List Bytes) : Multiset Bytes) := by
      rw [← Multiset.cons_coe,Multiset.add_cons,Multiset.cons_add]
    exact he ▸ ih (h.bumpTag hmid) hr

/-- Views of one user: each call reads the WebTable as it is at that moment. -/
structure ViewCall where
  webtable : Read
  content : List Key

def runViews {σ : Type} (usertable : Table σ) (user : Key) (s : σ) (calls : List ViewCall) : Option σ :=
  calls.foldlM (fun s call => (recordActions call.webtable usertable s user .view call.content []).map Prod.fst) s

def tagCells (record : Record) : List Bytes := (column record (bytes "tag")).entries.map Prod.snd

/-- The tag cells that the given urls have in the WebTable. -/
def contentTags (webtable : Read) (content : List Key) : List Bytes :=
  content.flatMap (fun url => tagCells (webtable url).2)

/-- Every tag cell of every url viewed in a run. -/
def viewed (calls : List ViewCall) : List Bytes :=
  calls.flatMap (fun call => contentTags call.webtable call.content)

/-- The tags that a call collects are those of its urls. -/
theorem viewTags_eq (webtable : Read) (content : List Key) : viewTags webtable content = contentTags webtable content :=
  rfl

theorem recordActions_row {σ : Type} {usertable : Table σ} (hT : ReadsBack usertable) (webtable : Read) (s : σ)
    (user : Key) (content : List Key) (err : Bytes) :
    (recordActions webtable usertable s user .view content err).map (fun out => (usertable.read out.1 user).2) =
      recordTags (usertable.read s user).2 (contentTags webtable content) := by
  rw [← viewTags_eq]
  simp only [recordActions,ne_eq,not_true_eq_false,if_false,Option.map_map]
  convert Option.map_id' using 2
  exact funext fun row => (hT _ _ _).1

theorem recordActions_defined {σ : Type} {usertable : Table σ} {webtable : Read} {s : σ} {user : Key}
    {content : List Key}
    (hb : ∀ t, rowCount (usertable.read s user).2 t + (contentTags webtable content).count t ≤ 2^31 - 1) (err : Bytes) :
    ∃ out, recordActions webtable usertable s user .view content err = some out := by
  obtain ⟨row,hrow⟩ := (recordTags_defined_iff _ _).mpr hb
  rw [← viewTags_eq] at hrow
  simp only [recordActions,ne_eq,not_true_eq_false,if_false,hrow]
  exact ⟨_,rfl⟩

theorem runViews_row {σ : Type} {usertable : Table σ} (hT : ReadsBack usertable) (user : Key) (s : σ)
    (calls : List ViewCall) :
    (runViews usertable user s calls).map (fun s' => (usertable.read s' user).2) =
      recordTags (usertable.read s user).2 (viewed calls) := by
  induction calls generalizing s with
  | nil => rfl
  | cons call calls ih =>
    have hv : viewed (call :: calls) = contentTags call.webtable call.content ++ viewed calls := List.flatMap_cons
    rw [hv,recordTags_append,← recordActions_row hT call.webtable s user call.content [],runViews,List.foldlM_cons]
    cases recordActions call.webtable usertable s user .view call.content [] with
    | none => rfl
    | some out => exact ih out.1

/-- Rows that views can build up from an absent row. -/
def Reachable (row : Record) : Prop := ∃ tags : List Bytes, recordTags ∅ tags = some row

/-- Bags and lists count alike; their equality tests differ only as instances. -/
theorem coe_count (tags : List Bytes) (t : Bytes) : (tags : Multiset Bytes).count t = tags.count t := by
  induction tags with
  | nil => rfl
  | cons a tags ih =>
    rw [← Multiset.cons_coe,Multiset.count_cons,List.count_cons,ih]
    simp only [beq_iff_eq,eq_comm (a := t)]

theorem encodes_of_tags {tags : List Bytes} {row : Record} (h : recordTags ∅ tags = some row) : Encodes row tags := by
  simpa using Encodes.empty.recordTags h

private theorem profileKey_range (tag : Bytes) :
    ¬ profileKey tag < bytes "tag" ∧ profileKey tag < bytes "tag~" := by
  refine ⟨not_lt.mpr (le_append (bytes "tag") (58 :: tag)),?_⟩
  change 116 :: 97 :: 103 :: 58 :: tag < [116,97,103,126]
  simp only [cons_lt_cons,true_and]
  exact .inr (.inr (.inr (.inl (by decide))))

private theorem afterColon_profileKey (tag : Bytes) : afterColon (profileKey tag) = tag := by
  have hf : find [58] (profileKey tag) = some 3 := find_letter (bytes "tag") tag (by decide)
  rw [afterColon,hf]
  rfl

private theorem tagItemsFrom_eq (l : List (Key × Column)) :
    tagItemsFrom l = (l.takeWhile (fun p => p.1 < bytes "tag~")).map
      (fun p => ⟨atoi (p.2.get 0 []),afterColon p.1⟩) := by
  induction l with
  | nil => rfl
  | cons p l ih =>
    rw [tagItemsFrom,List.takeWhile_cons]
    by_cases hlt : p.1 < bytes "tag~"
    · rw [if_pos hlt,if_pos (decide_eq_true hlt),ih,List.map_cons]
    · rw [if_neg hlt,if_neg (by simpa using hlt),List.map_nil]

/-- The decoding reads the columns in `["tag","tag~")`. -/
theorem tagItems_eq_between (row : Record) :
    tagItems row = (row.between (bytes "tag") (bytes "tag~")).entries.map
      (fun p => ⟨atoi (p.2.get 0 []),afterColon p.1⟩) := by
  rw [tagItems,tagItemsFrom_eq,OrdMap.entries_between]
  congr!

/-- The range catches every column of a profile. -/
theorem tagItems_eq {row : Record} (hr : ∀ p ∈ row.entries, ∃ tag, p.1 = profileKey tag) :
    tagItems row = row.entries.map (fun p => ⟨atoi (p.2.get 0 []),afterColon p.1⟩) := by
  have hall : (row.between (bytes "tag") (bytes "tag~")).entries = row.entries := by
    apply List.filter_eq_self.mpr
    intro p hp
    obtain ⟨tag,htag⟩ := hr p hp
    obtain ⟨hlo,hhi⟩ := profileKey_range tag
    rw [htag]
    simpa using ⟨not_lt.mp hlo,hhi⟩
  rw [tagItems_eq_between,hall]

section NonNegative
variable {row row' : Record} (h : ∀ item ∈ tagItems row, 0 ≤ item.num)
include h

theorem rowCount_nonneg (tag : Bytes) : 0 ≤ rowCount row tag := by
  rw [rowCount,cell,column]
  cases hcol : row.find? (profileKey tag) with
  | none =>
    rw [OrdMap.get_of_find?_none hcol]
    exact le_rfl
  | some col =>
    obtain ⟨hlo,hhi⟩ := profileKey_range tag
    have hmem : (profileKey tag,col) ∈ (row.between (bytes "tag") (bytes "tag~")).entries :=
      OrdMap.mem_between.mpr ⟨OrdMap.find?_eq_some_iff.mp hcol,not_lt.mp hlo,hhi⟩
    rw [OrdMap.get_of_find? hcol]
    exact h ⟨_,_⟩ (tagItems_eq_between row ▸ List.mem_map_of_mem hmem)

/-- Counting leaves no count negative that was not. -/
theorem bumpTag_nonneg {tag : Bytes} (hb : bumpTag row tag = some row') : ∀ item ∈ tagItems row', 0 ≤ item.num := by
  have hcount := rowCount_bumpTag hb tag
  have hold := rowCount_nonneg h tag
  rw [bumpTag_eq] at hb
  split_ifs at hb
  obtain rfl := Option.some.inj hb
  intro item hi
  rw [tagItems_eq_between] at hi
  obtain ⟨p,hp,rfl⟩ := List.mem_map.mp hi
  obtain ⟨hmem,hrange⟩ := OrdMap.mem_between.mp hp
  have hfind := OrdMap.find?_eq_some_iff.mpr hmem
  by_cases hkey : p.1 = profileKey tag
  · rw [hkey] at hfind
    rw [rowCount,cell,column,OrdMap.get_of_find? hfind,if_pos rfl] at hcount
    simp only [hcount]
    omega
  · rw [OrdMap.find?_insert,if_neg hkey] at hfind
    have hin : p ∈ (row.between (bytes "tag") (bytes "tag~")).entries :=
      OrdMap.mem_between.mpr ⟨OrdMap.find?_eq_some_iff.mp hfind,hrange⟩
    exact h ⟨_,_⟩ (tagItems_eq_between row ▸ List.mem_map_of_mem hin)

theorem recordTags_nonneg {tags : List Bytes} (hr : recordTags row tags = some row') :
    ∀ item ∈ tagItems row', 0 ≤ item.num := by
  induction tags generalizing row with
  | nil => exact Option.some.inj hr ▸ h
  | cons tag tags ih =>
    rw [recordTags_cons] at hr
    obtain ⟨mid,hmid,hr⟩ := Option.bind_eq_some_iff.mp hr
    exact ih (bumpTag_nonneg h hmid) hr

end NonNegative

section Decoding
variable {row : Record} {views : Multiset Bytes}

theorem Encodes.keys (h : Encodes row views) : ∀ p ∈ row.entries, ∃ tag, p.1 = profileKey tag := by
  intro p hp
  obtain ⟨tag,_,hk,_⟩ := (h.find p.1 p.2).mp (OrdMap.find?_eq_some_iff.mpr hp)
  exact ⟨tag,hk⟩

/-- The decoded items are the pairs of the bag. -/
theorem Encodes.mem_tagItems (h : Encodes row views) {item : TagItem} :
    item ∈ tagItems row ↔ item.tag ∈ views ∧ item.num = views.count item.tag := by
  rw [tagItems_eq h.keys,List.mem_map]
  constructor
  · rintro ⟨p,hp,rfl⟩
    obtain ⟨tag,ht,hk,hc⟩ := (h.find p.1 p.2).mp (OrdMap.find?_eq_some_iff.mpr hp)
    rw [hk,hc,afterColon_profileKey]
    exact ⟨ht,h.item⟩
  · rintro ⟨ht,hn⟩
    refine ⟨(profileKey item.tag,.single 0 (decimal (views.count item.tag))),?_,?_⟩
    · exact OrdMap.find?_eq_some_iff.mp ((h.find _ _).mpr ⟨item.tag,ht,rfl,rfl⟩)
    · rw [afterColon_profileKey,h.item,← hn]

theorem Encodes.tagItems_nodup (h : Encodes row views) : ((tagItems row).map TagItem.tag).Nodup := by
  rw [tagItems_eq h.keys,List.map_map,List.nodup_iff_pairwise_ne,List.pairwise_map]
  refine row.sorted.imp_of_mem ?_
  intro p q hp hq hlt he
  obtain ⟨s,hs⟩ := h.keys p hp
  obtain ⟨t,ht⟩ := h.keys q hq
  simp only [Function.comp,hs,ht,afterColon_profileKey] at he
  exact absurd hlt (by simp [hs,ht,he])

theorem Encodes.num_pos (h : Encodes row views) : ∀ item ∈ tagItems row, 1 ≤ item.num ∧ item.num < 2^31 := by
  intro item hi
  obtain ⟨ht,hn⟩ := h.mem_tagItems.mp hi
  have hp := Multiset.count_pos.mpr ht
  have hb := h.bound item.tag
  omega

theorem Encodes.tagItems_ne_nil (h : Encodes row views) (hr : row.size ≠ 0) : tagItems row ≠ [] := by
  rw [tagItems_eq h.keys]
  simpa [OrdMap.size] using hr

end Decoding

theorem allPrio_pos {used : List TagItem} (hne : used ≠ []) (hu : ∀ item ∈ used, 1 ≤ item.num) :
    0 < allPrio used := by
  refine List.sum_pos _ ?_ (by simpa using hne)
  intro q hq
  obtain ⟨item,hi,rfl⟩ := List.mem_map.mp hq
  exact_mod_cast lt_of_lt_of_le zero_lt_one (hu item hi)

theorem mem_used {lib : CxxLib} {items : List TagItem} {item : TagItem} (h : item ∈ (lib.sort items).take 5) :
    item ∈ items := (lib.sort_perm items).mem_iff.mp (List.mem_of_mem_take h)

/-- No profile that views can build up falls into the `all_prio == 0` branch. -/
theorem Encodes.allPrio_pos {row : Record} {views : Multiset Bytes} (h : Encodes row views) (hr : row.size ≠ 0)
    (lib : CxxLib) : 0 < allPrio ((lib.sort (tagItems row)).take 5) := by
  have hs : lib.sort (tagItems row) ≠ [] := by
    intro he
    have hl := (lib.sort_perm (tagItems row)).length_eq
    rw [he] at hl
    exact h.tagItems_ne_nil hr (List.length_eq_zero_iff.mp hl.symm)
  exact Engine.allPrio_pos (by simpa using hs) (fun item hi => (h.num_pos item (mem_used hi)).1)

private theorem randomRecommend_ret {tagtable : Scan} {num : Int} {lists : Lists} {lastRand : Key}
    {out : Bool × Lists × Key} (h : randomRecommend tagtable num lists lastRand = some out) : out.1 = true := by
  obtain ⟨st,_,rfl⟩ := Option.map_eq_some_iff.mp h
  rfl

/-- Only the profile part can make `GetRecommend` fail. -/
theorem getRecommend_ret {lib : CxxLib} {usertable : Read} {tagtable : Scan} {lastRand user : Key} {num : Int}
    {lists : Lists} {out : Recommendation}
    (h : getRecommend lib usertable tagtable lastRand user num lists = some out)
    (hp : (usertable user).2.size ≠ 0 → allPrio ((lib.sort (tagItems (usertable user).2)).take 5) ≠ 0) :
    out.ret = true := by
  have hok : ∀ text, (if (usertable user).1 && (usertable user).2.size != 0 then
      profilePart double lib tagtable (usertable user).2 num lists else some (.ok (lists,[]))) ≠
        some (.error text) := by
    intro text
    split_ifs with hc
    · simp only [Bool.and_eq_true,bne_iff_ne] at hc
      simp [profilePart,hp hc.2]
    · simp
  simp only [getRecommend,getRecommendWith] at h
  obtain ⟨part,hpart,h⟩ := Option.bind_eq_some_iff.mp h
  cases part with
  | error text => exact absurd hpart (hok text)
  | ok st =>
    obtain ⟨fill,hf,rfl⟩ := Option.map_eq_some_iff.mp h
    exact randomRecommend_ret hf

/-- After any run of views the row is the exact tally of the run, and the
decoding of `GetRecommend` returns that tally and never fails on it. -/
theorem view_tally_exact {σ : Type} (usertable : Table σ) (hT : ReadsBack usertable) (user : Key) (s : σ)
    (hs : (usertable.read s user).2 = ∅) (calls : List ViewCall)
    (hb : ∀ t, (viewed calls).count t ≤ 2^31 - 1) :
    ∃ s', runViews usertable user s calls = some s' ∧
      let row := (usertable.read s' user).2
      (∀ t, (row.find? (profileKey t)).isSome ↔ t ∈ viewed calls) ∧
      (∀ t ∈ viewed calls, row.find? (profileKey t) = some (.single 0 (decimal ((viewed calls).count t)))) ∧
      (∀ p ∈ row.entries, ∃ t, p.1 = profileKey t) ∧
      ((tagItems row).map TagItem.tag).Nodup ∧
      (∀ item, item ∈ tagItems row ↔ item.tag ∈ viewed calls ∧ item.num = (viewed calls).count item.tag) ∧
      (row.size ≠ 0 → ∀ lib : CxxLib, allPrio ((lib.sort (tagItems row)).take 5) ≠ 0) ∧
      ∀ lib tagtable lastRand num lists out,
        getRecommend lib (usertable.read s') tagtable lastRand user num lists = some out → out.ret = true := by
  have hdefined : ∃ row, recordTags ∅ (viewed calls) = some row := by
    rw [recordTags_defined_iff]
    intro t
    have hzero : rowCount ∅ t = 0 := rfl
    have := hb t
    omega
  obtain ⟨row,hrow⟩ := hdefined
  have hrun := runViews_row hT user s calls
  rw [hs,hrow] at hrun
  obtain ⟨s',hs',rfl⟩ := Option.map_eq_some_iff.mp hrun
  have h : Encodes (usertable.read s' user).2 (viewed calls : Multiset Bytes) := encodes_of_tags hrow
  have hp (hne : (usertable.read s' user).2.size ≠ 0) (lib : CxxLib) :
      allPrio ((lib.sort (tagItems (usertable.read s' user).2)).take 5) ≠ 0 := (h.allPrio_pos hne lib).ne'
  refine ⟨s',hs',?_,?_,h.keys,h.tagItems_nodup,?_,hp,?_⟩
  · intro t
    rw [h.find_key]
    simp
  · intro t ht
    rw [h.find_key,if_pos (Multiset.mem_coe.mpr ht),coe_count]
  · intro item
    rw [h.mem_tagItems,Multiset.mem_coe,coe_count]
  · intro lib tagtable lastRand num lists out ho
    exact getRecommend_ret ho (fun hne => hp hne lib)

/-- One page with the tags `a`, the empty tag and `a` again, viewed twice. -/
def sampleCalls : List ViewCall :=
  let page : Record := .single (bytes "tag") (((OrdMap.single 0 (bytes "a")).insert 1 []).insert 2 (bytes "a"))
  let web : TableSlice := .single (bytes "u") page
  [⟨memTable.read web,[bytes "u"]⟩,⟨memTable.read web,[bytes "u"]⟩]

theorem view_tally_exact_sample :
    ∃ s', runViews memTable (bytes "user") ∅ sampleCalls = some s' ∧
      (memTable.read s' (bytes "user")).2.find? (profileKey (bytes "a")) = some (.single 0 (decimal 4)) := by
  have hb (t : Bytes) : (viewed sampleCalls).count t ≤ 2^31 - 1 :=
    List.count_le_length.trans (by decide)
  obtain ⟨s',hs',-,hcells,-⟩ := view_tally_exact memTable memTable_readsBack (bytes "user") ∅ rfl sampleCalls hb
  exact ⟨s',hs',hcells (bytes "a") (by decide)⟩

end Aret.Engine
