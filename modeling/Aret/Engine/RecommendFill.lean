import Aret.Engine.RecommendQuota

/-! Whether a recommendation reaches the requested number: the fill starts again
at the front of the table only when nothing is left behind the cursor, so a
short rest of the table gives a short answer. -/
namespace Aret.Engine
open Lib Tera Indexer

/-- How many rows the table has for a profile: for each item its quota, or all
of its rows if there are fewer. -/
def profileSupply (rows : TableSlice) (used : List TagItem) (num : Int) : Int :=
  (used.map (fun item => min (quota double used num item) (leadingRun rows item.tag).length)).sum

section
variable {tagtable : Scan} {rows : TableSlice} (hrows : EcRows rows) (hscan : ScanAll tagtable rows)
include hrows hscan

theorem picks_eq_leadingRun (tag : Bytes) (num : Int) :
    picks tagtable tag num = (leadingRun rows tag).take num.toNat := by
  rw [picks_of_ecRows hrows (hscan.cuts.initial tag (bytes "~")) (hscan.answer tag (bytes "~")).mpr,hscan.slice]
  rfl

theorem profilePicks_length {lib : CxxLib} {usertable : Read} {user : Key} (hrow : Reachable (usertable user).2)
    {num : Int} (hnum : 0 ≤ num) :
    let used := usedItems lib usertable user
    ((profilePicks tagtable (quota double used num) used).length : Int) = profileSupply rows used num := by
  intro used
  rw [profilePicks,List.length_flatMap,Nat.cast_list_sum,List.map_map,profileSupply]
  apply congrArg List.sum
  apply List.map_congr_left
  intro item hi
  have hq : 0 ≤ quota double used num item :=
    quota_nonneg double (usedItems_nonneg hrow) hnum (allPrio_usedItems hrow hi) hi
  simp only [Function.comp_apply,List.length_map,picks_eq_leadingRun hrows hscan,List.length_take]
  omega

omit hrows in
theorem fillRows_length_iff {num : Int} {size : Nat} (hsize : size ≤ num) (hint : num < 2^31) (lastRand : Key)
    (hmany : num ≤ (rows.between [] (bytes "~")).size) :
    size + (fillRows tagtable lastRand num size).length = num ↔
      (rows.between lastRand (bytes "~")).entries = [] ∨ num ≤ (rows.between lastRand (bytes "~")).size + size := by
  have hanswer := hscan.answer lastRand (bytes "~")
  rw [fillRows,fillStart,fillNum_eq hsize hint,List.length_take]
  simp only [OrdMap.size] at hmany ⊢
  by_cases hend : (rows.between lastRand (bytes "~")).entries = []
  · rw [if_neg (fun hok => hanswer.mp hok hend),hscan.slice]
    simp only [hend,true_or,iff_true]
    omega
  · rw [if_pos (hanswer.mpr hend),hscan.slice]
    simp only [hend,false_or]
    omega

end

/-- With at least `num` rows below `"~"` a call returns, and it returns exactly
`num` urls if and only if nothing is left behind the cursor, or what is left
there makes up `num` together with the rows the profile gets. -/
theorem recommend_filled_iff (lib : CxxLib) {tagtable : Scan} {rows : TableSlice} (hrows : EcRows rows)
    (hscan : ScanAll tagtable rows) (usertable : Read) (lastRand user : Key) (num : Int)
    (hrow : Reachable (usertable user).2) (hnum : 0 ≤ num) (hint : num < 2^31)
    (hmany : num ≤ (rows.between [] (bytes "~")).size) :
    ∃ out, getRecommend lib usertable tagtable lastRand user num .empty = some out ∧
      ((out.ret = true ∧ (out.lists.urls.length : Int) = num) ↔
        (rows.between lastRand (bytes "~")).entries = [] ∨
        num ≤ (rows.between lastRand (bytes "~")).size +
          profileSupply rows (usedItems lib usertable user) num) := by
  have hq := quotas_of_reachable lib hrow double (by omega : -2^31 ≤ num) hint
  have hle := profilePicks_le_num lib hrow double tagtable hnum
  obtain ⟨out,hout,hret,taken,rfl,-,hurls,-,-⟩ := getRecommend_rows hscan.cuts.toScanRuns hrows hq
    (profileRows_of_reachable hrow tagtable _) lastRand
  refine ⟨out,hout,?_⟩
  rw [← profilePicks_length hrows hscan hrow hnum,← fillRows_length_iff hscan hle hint lastRand hmany,hurls]
  simp [hret]

def threeKeywords : TableSlice :=
  (((∅ : TableSlice).insert (tagKey (bytes "a") 1 1) (tagRecord (bytes "u") (bytes "t"))).insert
    (tagKey (bytes "b") 1 2) (tagRecord (bytes "v") (bytes "t"))).insert
    (tagKey (bytes "c") 1 3) (tagRecord (bytes "w") (bytes "t"))

theorem threeKeywords_ecWritten : EcWritten threeKeywords := by
  apply EcWritten.insert _ (by omega) (by omega)
  apply EcWritten.insert _ (by omega) (by omega)
  apply EcWritten.insert _ (by omega) (by omega)
  exact ecWritten_empty

theorem recommend_filled_iff_sample :
    ∃ out, getRecommend insertionLib (memTable.read ∅) (memTable.scan threeKeywords) [] (bytes "user") 2 .empty =
      some out ∧ (out.lists.urls.length : Int) = 2 := by
  obtain ⟨out,hout,hiff⟩ := recommend_filled_iff insertionLib threeKeywords_ecWritten.rows
    (memTable_scanAll threeKeywords)
    (memTable.read ∅) [] (bytes "user") 2 ⟨[],rfl⟩ (by decide) (by decide) (by decide)
  exact ⟨out,hout,(hiff.mpr (Or.inr (by decide))).2⟩

/-- Two calls for two urls each: the second one finds a single row left behind
the cursor of the first and returns one url. -/
theorem short_rest_not_filled : EcWritten threeKeywords ∧ ScanAll (memTable.scan threeKeywords) threeKeywords ∧
    2 ≤ (threeKeywords.between [] (bytes "~")).size ∧ Reachable (memTable.read ∅ (bytes "user")).2 ∧
    ∃ first second,
      getRecommend insertionLib (memTable.read ∅) (memTable.scan threeKeywords) [] (bytes "user") 2 .empty =
        some first ∧
      getRecommend insertionLib (memTable.read ∅) (memTable.scan threeKeywords) first.lastRand (bytes "user") 2 .empty =
        some second ∧ second.lists.urls = [bytes "w"] ∧ second.lists.urls.length ≠ 2 :=
  ⟨threeKeywords_ecWritten,memTable_scanAll _,by decide,⟨[],rfl⟩,_,_,rfl,rfl,by decide,by decide⟩

end Aret.Engine
