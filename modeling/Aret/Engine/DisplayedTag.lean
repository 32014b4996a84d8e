import Aret.Engine.RecommendFill

/-! The tag shown beside an item. The loop at the end of `GetRecommend` strips
every entry of `tags`: it recovers the keyword of a row key, and it also cuts
the profile's own tags where these hold dashes. -/
namespace Aret.Engine
open Lib Tera Indexer

/-- At most one dash, and none in front. -/
def DashSafe (tag : Bytes) : Prop := tag.count 45 ≤ 1 ∧ tag.head? ≠ some 45

instance dashSafeDecidable (tag : Bytes) : Decidable (DashSafe tag) := inferInstanceAs (Decidable (_ ∧ _))

theorem stripKey_eq_self_iff (tag : Bytes) : stripKey tag = tag ↔ DashSafe tag := by
  by_cases hmem : 45 ∈ tag
  · obtain ⟨u,v,rfl,hv⟩ := exists_last_of_mem hmem
    by_cases hu : u = []
    · subst hu
      rw [List.nil_append,stripKey_of_front hv]
      simp [DashSafe]
    · rw [stripKey_of_last hu hv]
      have hhead : (u ++ 45 :: v).head? = u.head? := List.head?_append_of_ne_nil u hu
      by_cases hdash : 45 ∈ u
      · obtain ⟨u',v',rfl,hv'⟩ := exists_last_of_mem hdash
        rw [rfind_npos u' v' hv',Option.map_some,Option.getD_some]
        constructor
        · intro h
          have hlen := congrArg List.length h
          simp only [List.length_take,List.length_append,List.length_cons] at hlen
          omega
        · rintro ⟨hcount,-⟩
          simp only [List.count_append,List.count_cons_self] at hcount
          omega
      · rw [rfind_notMem hdash]
        have hcount : (u ++ 45 :: v).count 45 = 1 := by
          rw [List.count_append,List.count_cons_self,List.count_eq_zero_of_not_mem hdash,
            List.count_eq_zero_of_not_mem hv]
        refine iff_of_true rfl ⟨hcount.le,?_⟩
        rw [hhead]
        exact fun h => hdash (List.mem_of_mem_head? h)
  · rw [stripKey,rfind_notMem hmem]
    refine iff_of_true rfl ⟨?_,fun h => hmem (List.mem_of_mem_head? h)⟩
    rw [List.count_eq_zero_of_not_mem hmem]
    exact Nat.zero_le 1

/-- A tag gets a row: its scan is answered, and the first row of the range has
the tag in its key. -/
def Found (tagtable : Scan) (rows : TableSlice) (tag : Bytes) : Prop :=
  (tagtable tag (bytes "~")).1 = true ∧
    ∃ p, (rows.between tag (bytes "~")).entries.head? = some p ∧ tag <:+: p.1

theorem picks_ne_nil_iff {tagtable : Scan} {rows : TableSlice} (hrows : EcRows rows)
    (hscan : ScanRuns tagtable rows) (tag : Bytes) (num : Int) :
    picks tagtable tag num ≠ [] ↔ 0 < num ∧ Found tagtable rows tag := by
  have hinit := hscan.initial tag (bytes "~")
  have hprog := hscan.progress tag (bytes "~")
  rw [picks,Found]
  split_ifs with hok
  · simp only [hok,true_and]
    cases hslice : (tagtable tag (bytes "~")).2.entries with
    | nil =>
      have hnil : (rows.between tag (bytes "~")).entries = [] := not_not.mp (fun h => hprog h hslice)
      simp [accepted,hnil]
    | cons p rest =>
      rw [hslice] at hinit
      obtain ⟨t,ht⟩ := hinit
      have hmem : p ∈ rows.entries := (hscan.mem (hslice ▸ List.mem_cons_self)).1
      rw [← ht,accepted,List.takeWhile_cons]
      by_cases hfind : find tag p.1 = none
      · have hinf : ¬ tag <:+: p.1 := find_eq_none_iff.mp hfind
        simp [hfind,hinf]
      · have hinf : tag <:+: p.1 := not_not.mp (fun h => hfind (find_eq_none_iff.mpr h))
        simp [Option.isSome_iff_ne_none,hfind,hinf,hrows.nonempty hmem]
  · simp [hok]

theorem quota_pos_iff (fp : Rounding 53) (used : List TagItem) (num : Int) (item : TagItem) :
    0 < quota fp used num item ↔ 1 ≤ share fp (total used) item.num num := by
  rw [quota,lt_min_iff,truncate_pos_iff]
  exact and_iff_right (by decide)

/-- The profile's tags survive the stripping exactly when every one of them that
has items is free of the dashes that mislead it. -/
theorem profilePicks_kept_iff (fp : Rounding 53) (used : List TagItem) {tagtable : Scan} {rows : TableSlice}
    (hrows : EcRows rows) (hscan : ScanRuns tagtable rows) (num : Int) :
    (∀ p ∈ profilePicks tagtable (quota fp used num) used, stripKey p.1 = p.1) ↔
      ∀ item ∈ used, 1 ≤ share fp (total used) item.num num → Found tagtable rows item.tag → DashSafe item.tag := by
  simp only [profilePicks,List.mem_flatMap,List.mem_map]
  constructor
  · intro h item hi hshare hfound
    have hne := (picks_ne_nil_iff hrows hscan item.tag (quota fp used num item)).mpr
      ⟨(quota_pos_iff fp used num item).mpr hshare,hfound⟩
    obtain ⟨p,hp⟩ := List.exists_mem_of_ne_nil _ hne
    exact (stripKey_eq_self_iff item.tag).mp (h (item.tag,p) ⟨item,hi,p,hp,rfl⟩)
  · rintro h p ⟨item,hi,row,hrow,rfl⟩
    obtain ⟨hquota,hfound⟩ := (picks_ne_nil_iff hrows hscan item.tag _).mp (List.ne_nil_of_mem hrow)
    exact (stripKey_eq_self_iff item.tag).mpr (h item hi ((quota_pos_iff fp used num item).mp hquota) hfound)

/-- The tag beside an item of the profile part is the tag it was looked up for,
and beside an item of the fill it is the keyword of its row. -/
def ShowsKeywords (got : List (Bytes × (Key × Record))) (fill : List (Key × Record)) (tags : List Bytes) : Prop :=
  (∀ (i : Nat) q, got[i]? = some q → tags[i]? = some q.1) ∧
    ∀ (i : Nat) p, fill[i]? = some p → ∃ kw, tags[got.length + i]? = some kw ∧ HasKeyword p.1 kw

theorem showsKeywords_iff {rows : TableSlice} (hrows : EcWritten rows) {got : List (Bytes × (Key × Record))}
    {fill : List (Key × Record)} (hfill : ∀ p ∈ fill, p ∈ rows.entries) :
    ShowsKeywords got fill ((got.map Prod.fst ++ fill.map Prod.fst).map stripKey) ↔
      ∀ q ∈ got, stripKey q.1 = q.1 := by
  rw [List.map_append,List.map_map,List.map_map]
  have hplace : ∀ (i : Nat) q, got[i]? = some q →
      (got.map (stripKey ∘ Prod.fst) ++ fill.map (stripKey ∘ Prod.fst))[i]? = some (stripKey q.1) := by
    intro i q hi
    have hlt : i < (got.map (stripKey ∘ Prod.fst)).length := by
      rw [List.length_map]
      exact (List.getElem?_eq_some_iff.mp hi).1
    rw [List.getElem?_append_left hlt,List.getElem?_map,hi]
    rfl
  constructor
  · rintro ⟨hgot,-⟩ q hq
    obtain ⟨i,hi⟩ := List.mem_iff_getElem?.mp hq
    exact Option.some.inj ((hplace i q hi).symm.trans (hgot i q hi))
  · intro h
    refine ⟨fun i q hi => ?_,fun i p hi => ?_⟩
    · rw [hplace i q hi,h q (List.mem_of_getElem? hi)]
    · refine ⟨stripKey p.1,?_,(hrows.hasKeyword_iff (hfill p (List.mem_of_getElem? hi))).mpr rfl⟩
      rw [List.getElem?_append_right (by simp),List.length_map,Nat.add_sub_cancel_left,List.getElem?_map,hi]
      rfl

/-- Every place shows its keyword exactly when each tag of the profile that gets
a row, its share of `num` being large enough, is safe from the stripping. -/
theorem displayed_tag_iff (lib : CxxLib) {tagtable : Scan} {rows : TableSlice} (hrows : EcWritten rows)
    (hscan : ScanRuns tagtable rows) (usertable : Read) (lastRand user : Key) (num : Int)
    (hrow : Reachable (usertable user).2) (hl : -2^31 ≤ num) (hu : num < 2^31) :
    let used := usedItems lib usertable user
    let got := profilePicks tagtable (quota double used num) used
    let fill := fillRows tagtable lastRand num got.length
    ∃ out, getRecommend lib usertable tagtable lastRand user num .empty = some out ∧ out.ret = true ∧
      out.lists.urls = (got.map Prod.snd ++ fill).map urlCell ∧
      (ShowsKeywords got fill out.lists.tags ↔
        ∀ item ∈ used, 1 ≤ share double (total used) item.num num → Found tagtable rows item.tag →
          DashSafe item.tag) := by
  intro used got fill
  obtain ⟨out,hout,hret,taken,rfl,-,hurls,-,htags⟩ := getRecommend_rows hscan hrows.rows
    (quotas_of_reachable lib hrow double hl hu) (profileRows_of_reachable hrow tagtable _) lastRand
  refine ⟨out,hout,hret,hurls,?_⟩
  rw [htags,showsKeywords_iff hrows (fun p hp => mem_of_mem_fillRows hscan hp)]
  exact profilePicks_kept_iff double used hrows.rows hscan num

def dashedKeyword : TableSlice :=
  (∅ : TableSlice).insert (tagKey (bytes "a-b-c") 1 2) (tagRecord (bytes "u") (bytes "t"))

theorem dashedKeyword_ecWritten : EcWritten dashedKeyword := by
  apply EcWritten.insert _ (by omega) (by omega)
  exact ecWritten_empty

theorem displayed_tag_iff_sample :
    let used := usedItems insertionLib (viewedOnce [bytes "b"]) (bytes "user")
    let got := profilePicks (memTable.scan twoKeywords) (quota double used 2) used
    ∃ out, getRecommend insertionLib (viewedOnce [bytes "b"]) (memTable.scan twoKeywords) [] (bytes "user") 2 .empty =
      some out ∧ ShowsKeywords got (fillRows (memTable.scan twoKeywords) [] 2 got.length) out.lists.tags := by
  obtain ⟨out,hout,-,-,hiff⟩ := displayed_tag_iff insertionLib twoKeywords_ecWritten
    (memTable_scanRuns twoKeywords) (viewedOnce [bytes "b"]) [] (bytes "user") 2
    (viewedOnce_reachable (by decide)) (by decide) (by decide)
  have hsafe : ∀ item ∈ usedItems insertionLib (viewedOnce [bytes "b"]) (bytes "user"), DashSafe item.tag := by decide
  exact ⟨out,hout,hiff.mpr (fun item hi _ _ => hsafe item hi)⟩

/-- The one row is looked up for the tag `a-b-c` and shown under `a`. -/
theorem dashed_tag_cut : EcWritten dashedKeyword ∧ Reachable (viewedOnce [bytes "a-b-c"] (bytes "user")).2 ∧
    ∃ out, getRecommend insertionLib (viewedOnce [bytes "a-b-c"]) (memTable.scan dashedKeyword) [] (bytes "user") 2
        .empty = some out ∧ out.ret = true ∧
      profilePicks (memTable.scan dashedKeyword)
          (quota double (usedItems insertionLib (viewedOnce [bytes "a-b-c"]) (bytes "user")) 2)
          (usedItems insertionLib (viewedOnce [bytes "a-b-c"]) (bytes "user")) =
        [(bytes "a-b-c",(tagKey (bytes "a-b-c") 1 2,tagRecord (bytes "u") (bytes "t")))] ∧
      out.lists.urls.head? = some (bytes "u") ∧ out.lists.tags.head? = some (bytes "a") := by
  have hrun : (getRecommend insertionLib (viewedOnce [bytes "a-b-c"]) (memTable.scan dashedKeyword) [] (bytes "user") 2
      .empty).map (fun out => (out.ret,out.lists.urls.head?,out.lists.tags.head?)) =
        some (true,some (bytes "u"),some (bytes "a")) := by decide +kernel
  obtain ⟨out,hout,heq⟩ := Option.map_eq_some_iff.mp hrun
  simp only [Prod.mk.injEq] at heq
  exact ⟨dashedKeyword_ecWritten,viewedOnce_reachable (by decide),out,hout,heq.1,by decide +kernel,heq.2⟩

end Aret.Engine
