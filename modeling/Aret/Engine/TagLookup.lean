import Aret.Indexer.TagRow
import Mathlib.Data.List.TakeWhile

/-! Which rows `GetUrlForTag` takes its urls from, and what that says about the
keyword it was asked for: it may take rows of other keywords, and it misses the
keywords whose first byte is not below the upper bound of its scan. -/
namespace Aret.Engine
open Lib Tera Indexer

/-- The rows of a slice that the loop accepts: up to the first key without `tag`
in it, less the empty ones. -/
def accepted (tag : Bytes) (slice : List (Key × Record)) : List (Key × Record) :=
  (slice.takeWhile (fun p => (find tag p.1).isSome)).filter (fun p => !p.2.isEmpty)

def urlCell (p : Key × Record) : Bytes := cell p.2 (bytes "url") 0

def titleCell (p : Key × Record) : Bytes := cell p.2 (bytes "title") 0

private theorem accepted_cons (tag : Bytes) (p : Key × Record) (rest : List (Key × Record)) :
    accepted tag (p :: rest) = if find tag p.1 = none then [] else
      if p.2.isEmpty then accepted tag rest else p :: accepted tag rest := by
  cases hfind : find tag p.1 with
  | none => simp [accepted,hfind]
  | some pos => cases hempty : p.2.isEmpty <;> simp [accepted,hfind,hempty]

theorem getUrlForTagLoop_spec (tag : Bytes) (num : Int) (slice : List (Key × Record)) (st : TagScan) :
    ∃ err, getUrlForTagLoop tag num slice st =
      let got := (accepted tag slice).take (num - st.ret).toNat
      ⟨st.ret + got.length,st.urls ++ got.map urlCell,st.titles ++ got.map titleCell,err,st.picked ++ got⟩ := by
  induction slice generalizing st with
  | nil => exact ⟨st.err,by simp [accepted,getUrlForTagLoop]⟩
  | cons p rest ih =>
    obtain ⟨rowKey,row⟩ := p
    rw [getUrlForTagLoop,accepted_cons]
    split_ifs with hnum hfind hempty hfind hempty
    · exact ⟨_,by simp; rfl⟩
    · exact ih { st with err := st.err ++ bytes "Empty row in user table<br/>" }
    · obtain ⟨err,heq⟩ := ih { st with
        ret := st.ret + 1
        urls := st.urls ++ [cell row (bytes "url") 0]
        titles := st.titles ++ [cell row (bytes "title") 0]
        picked := st.picked ++ [(rowKey,row)] }
      have hsucc : (num - st.ret).toNat = (num - (st.ret + 1)).toNat + 1 := by omega
      refine ⟨err,heq.trans ?_⟩
      simp [hsucc,urlCell,titleCell]
      omega
    all_goals
      have hzero : (num - st.ret).toNat = 0 := by omega
      exact ⟨st.err,by simp [hzero]⟩

def picks (tagtable : Scan) (tag : Bytes) (num : Int) : List (Key × Record) :=
  if (tagtable tag (bytes "~")).1 then (accepted tag (tagtable tag (bytes "~")).2.entries).take num.toNat else []

theorem getUrlForTag_spec (tagtable : Scan) (tag : Bytes) (num : Int) (urls titles : List Bytes) (err : Bytes) :
    ∃ err', getUrlForTag tagtable tag num urls titles err =
      let got := picks tagtable tag num
      ⟨got.length,urls ++ got.map urlCell,titles ++ got.map titleCell,err',got⟩ := by
  rw [getUrlForTag,picks]
  cases hok : (tagtable tag (bytes "~")).1 with
  | false => exact ⟨_,by simp [hok]; rfl⟩
  | true =>
    cases hempty : (tagtable tag (bytes "~")).2.isEmpty with
    | true =>
      have hnil := OrdMap.isEmpty_iff.mp hempty
      exact ⟨_,by simp [hok,hempty,hnil,accepted]; rfl⟩
    | false =>
      obtain ⟨err',heq⟩ := getUrlForTagLoop_spec tag num (tagtable tag (bytes "~")).2.entries ⟨0,urls,titles,err,[]⟩
      refine ⟨err',?_⟩
      simpa [hok,hempty] using heq

/-- In an indexed table no row is skipped as empty. -/
theorem picks_of_ecRows {tagtable : Scan} {rows : TableSlice} (hrows : EcRows rows) {tag : Bytes}
    (hinit : (tagtable tag (bytes "~")).2.entries <+: (rows.between tag (bytes "~")).entries)
    (hanswer : (rows.between tag (bytes "~")).entries ≠ [] → (tagtable tag (bytes "~")).1 = true) (num : Int) :
    picks tagtable tag num =
      ((tagtable tag (bytes "~")).2.entries.takeWhile (fun p => (find tag p.1).isSome)).take num.toNat := by
  have hacc : accepted tag (tagtable tag (bytes "~")).2.entries =
      (tagtable tag (bytes "~")).2.entries.takeWhile (fun p => (find tag p.1).isSome) := by
    rw [accepted,List.filter_eq_self]
    intro p hp
    have hmem := OrdMap.mem_between.mp (hinit.subset ((List.takeWhile_prefix _).subset hp))
    rw [hrows.nonempty hmem.1]
    rfl
  rw [picks,hacc]
  split_ifs with hok
  · rfl
  · rw [not_not.mp (fun hne => hok (hanswer hne)),List.prefix_nil] at hinit
    simp [hinit]

theorem find_isSome_of_extends {tag key : Bytes} (h : tag <+: key) : (find tag key).isSome = true := by
  rw [Option.isSome_iff_ne_none,ne_eq,find_eq_none_iff,not_not]
  exact h.isInfix

theorem prefix_of_hasKeyword {key : Key} {w : Bytes} (h : HasKeyword key w) : w <+: key := by
  obtain ⟨ts,nt,-,-,rfl⟩ := h
  rw [tagKey,List.append_assoc,List.append_assoc,List.append_assoc]
  exact List.prefix_append _ _

/-- The first row of another keyword, if any, either stops the loop or comes
after it has taken `num` rows. -/
def OtherKeywordStops (tag : Bytes) (num : Int) (slice : List (Key × Record)) : Prop :=
  ∀ front row back, slice = front ++ row :: back → (∀ p ∈ front, HasKeyword p.1 tag) → ¬ HasKeyword row.1 tag →
    num ≤ front.length ∨ find tag row.1 = none

private theorem first_failure {α : Type} (P : α → Prop) {l : List α} {a : α} (ha : a ∈ l) (hP : ¬ P a) :
    ∃ front b back, l = front ++ b :: back ∧ (∀ x ∈ front, P x) ∧ ¬ P b := by
  induction l with
  | nil => exact nomatch ha
  | cons b l ih =>
    by_cases hb : P b
    · have hal : a ∈ l := (List.mem_cons.mp ha).resolve_left (fun hab => hP (hab ▸ hb))
      obtain ⟨front,c,back,rfl,hfront,hc⟩ := ih hal
      exact ⟨b :: front,c,back,rfl,List.forall_mem_cons.mpr ⟨hb,hfront⟩,hc⟩
    · exact ⟨[],b,l,rfl,by simp,hb⟩

private theorem take_takeWhile_sound_iff (tag : Bytes) (num : Int) (slice : List (Key × Record)) :
    (∀ p ∈ (slice.takeWhile (fun p => (find tag p.1).isSome)).take num.toNat, HasKeyword p.1 tag) ↔
      OtherKeywordStops tag num slice := by
  constructor
  · rintro hall front row back rfl hfront hrow
    by_contra hno
    obtain ⟨hlen,hfind⟩ := not_or.mp hno
    have hsome : ∀ p ∈ front, (find tag p.1).isSome = true :=
      fun p hp => find_isSome_of_extends (prefix_of_hasKeyword (hfront p hp))
    have hreach : row ∈ (List.takeWhile (fun p => (find tag p.1).isSome) (front ++ row :: back)).take num.toNat := by
      have hidx : num.toNat - front.length = (num.toNat - front.length - 1) + 1 := by omega
      rw [List.takeWhile_append_of_pos hsome,List.takeWhile_cons,if_pos (Option.isSome_iff_ne_none.mpr hfind),
        List.take_append,hidx,List.take_succ_cons]
      simp
    exact hrow (hall row hreach)
  · intro hstop p hp
    by_contra hno
    obtain ⟨front,row,rest,htake,hfront,hbad⟩ := first_failure (fun q : Key × Record => HasKeyword q.1 tag) hp hno
    have hpre := (List.take_prefix num.toNat _).trans (List.takeWhile_prefix (l := slice)
      (fun p => (find tag p.1).isSome))
    have hmem : row ∈ slice.takeWhile (fun p => (find tag p.1).isSome) :=
      (List.take_prefix num.toNat _).subset (htake ▸ by simp)
    obtain ⟨back,hback⟩ := hpre
    have hlen := congrArg List.length htake
    rw [htake,List.append_assoc] at hback
    rcases hstop front row (rest ++ back) hback.symm hfront hbad with hnum | hnone
    · simp only [List.length_take,List.length_append,List.length_cons] at hlen
      omega
    · exact absurd (List.mem_takeWhile_imp hmem) (by simp [hnone])

/-- The urls and titles of a call come from the rows it takes, rows of the table
in the range, and all of these belong to `tag` exactly when the first row of
another keyword stops it or is out of its reach. -/
theorem tag_lookup_sound_iff {tagtable : Scan} {rows : TableSlice} (hrows : EcRows rows)
    (hscan : ScanCuts tagtable rows) (tag : Bytes) (num : Int) (urls titles : List Bytes) (err : Bytes) :
    let got := getUrlForTag tagtable tag num urls titles err
    got.urls = urls ++ got.picked.map urlCell ∧ got.titles = titles ++ got.picked.map titleCell ∧
      (∀ p ∈ got.picked, p ∈ rows.entries) ∧
      ((∀ p ∈ got.picked, HasKeyword p.1 tag) ↔ OtherKeywordStops tag num (tagtable tag (bytes "~")).2.entries) := by
  obtain ⟨err',heq⟩ := getUrlForTag_spec tagtable tag num urls titles err
  have hpicks := picks_of_ecRows hrows (hscan.initial tag (bytes "~")) (hscan.answer tag (bytes "~")).mpr num
  rw [heq,hpicks]
  refine ⟨rfl,rfl,fun p hp => ?_,take_takeWhile_sound_iff tag num _⟩
  have hslice := ((List.take_prefix _ _).trans (List.takeWhile_prefix _)).subset hp
  exact (hscan.mem hslice).1

def twoKeywords : TableSlice :=
  ((∅ : TableSlice).insert (tagKey (bytes "ab") 1 2) (tagRecord (bytes "u") (bytes "t"))).insert
    (tagKey (bytes "b") 1 2) (tagRecord (bytes "v") (bytes "t"))

theorem twoKeywords_ecWritten : EcWritten twoKeywords := by
  apply EcWritten.insert _ (by omega) (by omega)
  apply EcWritten.insert _ (by omega) (by omega)
  exact ecWritten_empty

theorem tag_lookup_sound_iff_sample :
    (getUrlForTag (memTable.scan twoKeywords) (bytes "ab") 2 [] [] []).urls = [bytes "u"] ∧
      OtherKeywordStops (bytes "ab") 2 (memTable.scan twoKeywords (bytes "ab") (bytes "~")).2.entries := by
  refine ⟨by decide,(tag_lookup_sound_iff twoKeywords_ecWritten.rows (memTable_scanAll twoKeywords).cuts
    (bytes "ab") 2 [] [] []).2.2.2.mp ?_⟩
  have hpicked : (getUrlForTag (memTable.scan twoKeywords) (bytes "ab") 2 [] [] []).picked =
      [(tagKey (bytes "ab") 1 2,tagRecord (bytes "u") (bytes "t"))] := by decide
  rw [hpicked]
  intro p hp
  rw [List.mem_singleton.mp hp]
  exact ⟨1,2,by decide,by decide,rfl⟩

/-- The row of keyword `ab` is recommended for the tag `a`. -/
theorem longer_keyword_taken : EcWritten twoKeywords ∧
    (getUrlForTag (memTable.scan twoKeywords) (bytes "a") 1 [] [] []).urls = [bytes "u"] ∧
    ∃ p ∈ (getUrlForTag (memTable.scan twoKeywords) (bytes "a") 1 [] [] []).picked, ¬ HasKeyword p.1 (bytes "a") := by
  refine ⟨twoKeywords_ecWritten,by decide,(tagKey (bytes "ab") 1 2,tagRecord (bytes "u") (bytes "t")),by decide,?_⟩
  rintro ⟨ts,nt,hdec⟩
  exact absurd hdec.stripKey (by decide)

theorem lt_of_stripKey {key : Key} (h : stripKey key < bytes "~") : key < bytes "~" := by
  apply lt_singleton_iff.mpr
  intro b hb
  obtain ⟨rest,hrest⟩ := stripKey_prefix key
  cases hkey : stripKey key with
  | nil =>
    obtain rfl := head_of_stripKey_nil hkey b hb
    decide
  | cons a tag =>
    rw [hkey] at h hrest
    rw [← hrest] at hb
    exact lt_singleton_iff.mp h b hb

/-- The rows from `tag` on, up to the first key without `tag` in it. -/
def leadingRun (rows : TableSlice) (tag : Bytes) : List (Key × Record) :=
  (rows.between tag (bytes "~")).entries.takeWhile (fun p => (find tag p.1).isSome)

/-- All rows of a keyword below `"~"` are in the range that is scanned for it. -/
theorem countP_range (rows : TableSlice) {tag : Bytes} (htag : tag < bytes "~") :
    (rows.between tag (bytes "~")).entries.countP (fun p => stripKey p.1 = tag) =
      rows.entries.countP (fun p => stripKey p.1 = tag) := by
  rw [OrdMap.between,List.countP_filter]
  apply List.countP_congr
  intro p hp
  have hin : stripKey p.1 = tag → tag ≤ p.1 ∧ p.1 < bytes "~" := by
    rintro rfl
    obtain ⟨x,hx⟩ := stripKey_prefix p.1
    exact ⟨by nth_rewrite 2 [← hx]; exact le_append (stripKey p.1) x,lt_of_stripKey htag⟩
  simpa using hin

/-- Every key up to the last one of keyword `tag` is an extension of `tag`, so
behind the first key without `tag` in it there is none left. -/
theorem countP_dropWhile (rows : TableSlice) (tag : Bytes) :
    ((rows.between tag (bytes "~")).entries.dropWhile (fun p => (find tag p.1).isSome)).countP
      (fun p => stripKey p.1 = tag) = 0 := by
  cases hdrop : (rows.between tag (bytes "~")).entries.dropWhile (fun p => (find tag p.1).isSome) with
  | nil => rfl
  | cons x rest =>
    have hsub : x :: rest <:+ (rows.between tag (bytes "~")).entries := hdrop ▸ List.dropWhile_suffix _
    have hx : ¬ (find tag x.1).isSome = true := by
      have hhead := List.head?_dropWhile_not (fun p : Key × Record => (find tag p.1).isSome)
        (rows.between tag (bytes "~")).entries
      rw [hdrop] at hhead
      simpa using hhead
    have hlo := (OrdMap.mem_between.mp (hsub.subset List.mem_cons_self)).2.1
    have hsorted := (rows.between tag (bytes "~")).sorted.sublist hsub.sublist
    apply List.countP_eq_zero.mpr
    intro q hq hkw
    have hle : x.1 ≤ q.1 := by
      rcases List.mem_cons.mp hq with rfl | hq
      · exact le_rfl
      · exact ((List.pairwise_cons.mp hsorted).1 q hq).le
    have hkey : stripKey q.1 = tag := of_decide_eq_true hkw
    obtain ⟨y,hy⟩ := hkey ▸ stripKey_prefix q.1
    exact hx (find_isSome_of_extends (prefix_of_between hlo (hy ▸ hle)))

theorem countP_le_leadingRun (rows : TableSlice) {tag : Bytes} (htag : tag < bytes "~") :
    rows.entries.countP (fun p => stripKey p.1 = tag) ≤ (leadingRun rows tag).length := by
  rw [leadingRun,← countP_range rows htag]
  nth_rewrite 1 [← List.takeWhile_append_dropWhile (p := fun p : Key × Record => (find tag p.1).isSome)
    (l := (rows.between tag (bytes "~")).entries)]
  rw [List.countP_append,countP_dropWhile rows,Nat.add_zero]
  exact List.countP_le_length

/-- A call finds `n` of the rows of its keyword, or all of them, exactly when
there are none or the keyword sorts below the upper bound of the scan. -/
theorem tag_lookup_complete_iff {tagtable : Scan} {rows : TableSlice} (hrows : EcRows rows) {n : Nat} (hn : 1 ≤ n)
    (hscan : ScanFirst n tagtable rows) (tag : Bytes) (urls titles : List Bytes) (err : Bytes) :
    urls.length + min n (rows.entries.countP (fun p => stripKey p.1 = tag)) ≤
        (getUrlForTag tagtable tag n urls titles err).urls.length ↔
      rows.entries.countP (fun p => stripKey p.1 = tag) = 0 ∨ ∀ b ∈ tag.head?, b < 126 := by
  obtain ⟨err',heq⟩ := getUrlForTag_spec tagtable tag n urls titles err
  have htake : (tagtable tag (bytes "~")).2.entries.take n = (rows.between tag (bytes "~")).entries.take n := by
    have hlen := (hscan.initial tag (bytes "~")).length_le
    rw [List.prefix_iff_eq_take.mp (hscan.first tag (bytes "~")),List.length_take,← List.take_take,
      List.take_of_length_le hlen]
  have hpicks : picks tagtable tag n = (leadingRun rows tag).take n := by
    rw [picks_of_ecRows hrows (hscan.initial tag (bytes "~")) (hscan.answer tag (bytes "~")),Int.toNat_natCast,
      leadingRun,List.take_takeWhile,List.take_takeWhile,htake]
  have hbound : tag < bytes "~" ↔ ∀ b ∈ tag.head?, b < 126 := lt_singleton_iff
  rw [heq,hpicks,← hbound]
  simp only [List.length_append,List.length_map,List.length_take]
  constructor
  · intro hle
    by_contra hno
    obtain ⟨hzero,htag⟩ := not_or.mp hno
    have hnil : (rows.between tag (bytes "~")).entries = [] := by
      apply List.eq_nil_iff_forall_not_mem.mpr
      intro p hp
      obtain ⟨-,hlo,hhi⟩ := OrdMap.mem_between.mp hp
      exact htag (hlo.trans_lt hhi)
    simp only [leadingRun,hnil,List.takeWhile_nil,List.length_nil] at hle
    omega
  · rintro (hzero | htag)
    · omega
    · have hle := countP_le_leadingRun rows htag
      omega

theorem tag_lookup_complete_iff_sample :
    min 1 (twoKeywords.entries.countP (fun p => stripKey p.1 = bytes "ab")) ≤
      (getUrlForTag (memTable.scan twoKeywords) (bytes "ab") 1 [] [] []).urls.length := by
  have hfirst : ∀ b ∈ (bytes "ab").head?, b < 126 := by
    intro b hb
    obtain rfl : 97 = b := Option.some.inj hb
    decide
  have hle := (tag_lookup_complete_iff twoKeywords_ecWritten.rows (le_refl 1) ((memTable_scanAll twoKeywords).first 1)
    (bytes "ab") [] [] []).mpr (Or.inr hfirst)
  simpa using hle

def chineseKeyword : TableSlice :=
  (∅ : TableSlice).insert (tagKey [0xE4,0xB8,0xAD] 1 2) (tagRecord (bytes "u") (bytes "t"))

/-- Its key sorts above the upper bound of the scan, and no url is found. -/
theorem chinese_keyword_missed : EcWritten chineseKeyword ∧ ScanFirst 1 (memTable.scan chineseKeyword) chineseKeyword ∧
    ¬ min 1 (chineseKeyword.entries.countP (fun p => stripKey p.1 = [0xE4,0xB8,0xAD])) ≤
      (getUrlForTag (memTable.scan chineseKeyword) [0xE4,0xB8,0xAD] 1 [] [] []).urls.length := by
  refine ⟨?_,(memTable_scanAll _).first 1,by decide⟩
  apply EcWritten.insert _ (by omega) (by omega)
  exact ecWritten_empty

end Aret.Engine
