import Aret.Engine.RecommendLists
import Aret.Engine.ViewTally

/-! How much of a recommendation the profile supplies. A profile that views have
built up has positive counts; in exact arithmetic its quotas fit into seven tenths
of `num`, and in any case they leave no less than nothing to fill. -/
namespace Aret.Engine
open Lib Tera

theorem picks_length_le (tagtable : Scan) (tag : Bytes) (num : Int) :
    (picks tagtable tag num).length ≤ num.toNat := by
  rw [picks]
  split_ifs
  · exact List.length_take_le _ _
  · simp

/-- What the profile part appends stays within the quotas. -/
theorem profilePicks_length_le (tagtable : Scan) {used : List TagItem} {q : TagItem → Int}
    (hq : ∀ item ∈ used, 0 ≤ q item) : ((profilePicks tagtable q used).length : Int) ≤ (used.map q).sum := by
  have hlen : ((profilePicks tagtable q used).length : Int) =
      (used.map (fun item => ((picks tagtable item.tag (q item)).length : Int))).sum := by
    simp [profilePicks,List.length_flatMap,Function.comp_def,Nat.cast_list_sum]
  rw [hlen]
  apply List.sum_le_sum
  intro item hi
  have hle := picks_length_le tagtable item.tag (q item)
  have hpos := hq item hi
  omega

/-- Nothing wraps when the profile part stayed within `num`. -/
theorem fillNum_eq {num : Int} {size : Nat} (hsize : size ≤ num) (hnum : num < 2^31) :
    fillNum num size = num - size := by
  have hmod : (num - size) % 2^64 = num - size := Int.emod_eq_of_lt (by omega) (by omega)
  rw [fillNum,hmod]
  exact toInt32_eq (by omega) (by omega)

theorem fillRows_length_le (tagtable : Scan) (lastRand : Key) (num : Int) (size : Nat) :
    (fillRows tagtable lastRand num size).length ≤ (fillNum num size).toNat := List.length_take_le _ _

theorem sort_decreases (lib : CxxLib) (items : List TagItem) :
    (lib.sort items).Pairwise (fun a b => b.num ≤ a.num) :=
  (lib.sort_sorted items).imp (fun h => not_lt.mp h)

section
variable {row : Record} (hrow : Reachable row)
include hrow

theorem Reachable.num_pos : ∀ item ∈ tagItems row, 1 ≤ item.num := by
  obtain ⟨tags,htags⟩ := hrow
  exact fun item hi => ((encodes_of_tags htags).num_pos item hi).1

theorem Reachable.num_nonneg : ∀ item ∈ tagItems row, 0 ≤ item.num :=
  fun item hi => zero_le_one.trans (hrow.num_pos item hi)

theorem Reachable.allPrio_ne_zero (hsize : row.size ≠ 0) (lib : CxxLib) :
    allPrio ((lib.sort (tagItems row)).take 5) ≠ 0 := by
  obtain ⟨tags,htags⟩ := hrow
  exact ((encodes_of_tags htags).allPrio_pos hsize lib).ne'

end

section
variable {lib : CxxLib} {usertable : Read} {user : Key} (hrow : Reachable (usertable user).2)
include hrow

theorem usedItems_pos : ∀ item ∈ usedItems lib usertable user, 1 ≤ item.num :=
  fun item hi => hrow.num_pos item (mem_of_mem_usedItems hi)

theorem usedItems_nonneg : ∀ item ∈ usedItems lib usertable user, 0 ≤ item.num :=
  fun item hi => zero_le_one.trans (usedItems_pos hrow item hi)

theorem allPrio_usedItems {item : TagItem} (hi : item ∈ usedItems lib usertable user) :
    allPrio (usedItems lib usertable user) ≠ 0 :=
  (allPrio_pos (List.ne_nil_of_mem hi) (usedItems_pos hrow)).ne'

/-- A profile that views have built up is never given up on. -/
theorem profileRows_of_reachable (tagtable : Scan) (q : TagItem → Int) :
    profileRows lib usertable tagtable user q = some (profilePicks tagtable q (usedItems lib usertable user)) := by
  rw [profileRows,if_neg]
  rw [Bool.and_eq_true_iff,decide_eq_true_eq]
  rintro ⟨hread,hprio⟩
  have hsize : (usertable user).2.size ≠ 0 := by simpa using (Bool.and_eq_true_iff.mp hread).2
  rw [usedItems,if_pos hread] at hprio
  exact hrow.allPrio_ne_zero hsize lib hprio

variable (lib) in
theorem quotas_of_reachable (fp : Rounding 53) {num : Int} (hl : -2^31 ≤ num) (hu : num < 2^31) :
    Quotas fp (usedItems lib usertable user) num (quota fp (usedItems lib usertable user) num) :=
  quotas_of_nonneg fp hrow.num_nonneg hl hu (profileRows_of_reachable hrow (fun _ _ => (false,∅)) (fun _ => 0))

variable (lib) in
/-- The profile part leaves room for the fill. -/
theorem profilePicks_le_num (fp : Rounding 53) (tagtable : Scan) {num : Int} (hnum : 0 ≤ num) :
    let used := usedItems lib usertable user
    ((profilePicks tagtable (quota fp used num) used).length : Int) ≤ num := by
  intro used
  by_cases hne : used = []
  · rw [hne]
    exact hnum
  · have hprio := (allPrio_pos hne (usedItems_pos hrow)).ne'
    exact (profilePicks_length_le tagtable (fun item hi =>
      quota_nonneg fp (usedItems_nonneg hrow) hnum hprio hi)).trans
        (sum_quotas_le fp (usedItems_nonneg hrow) hnum hprio)

end

section
variable {used : List TagItem} (hpos : ∀ item ∈ used, 1 ≤ item.num) {num : Int} (hnum : 0 ≤ num)
include hpos hnum

/-- The quotas of exact arithmetic in whole numbers. -/
theorem quota_exact {item : TagItem} (hi : item ∈ used) :
    quota (.exact 53) used num item = min 2 (7 * item.num * num / (10 * total used)) := by
  have hcounts : ∀ item ∈ used, 0 ≤ item.num := fun item hi => zero_le_one.trans (hpos item hi)
  have htotal := total_pos hcounts (allPrio_pos (List.ne_nil_of_mem hi) hpos).ne'
  obtain ⟨d,hd⟩ := Int.eq_ofNat_of_zero_le (a := 10 * total used) (by omega)
  rw [quota,truncate_of_nonneg (share_nonneg _ (hcounts item hi) htotal hnum),share_exact,hd]
  congr 1
  exact Rat.floor_intCast_div_natCast _ d

/-- All quotas together stay within seven tenths of `num`. -/
theorem sum_quotas_exact_le : (used.map (quota (.exact 53) used num)).sum ≤ 7 * num / 10 := by
  by_cases hne : used = []
  · subst hne
    simp
    omega
  · have hcounts : ∀ item ∈ used, 0 ≤ item.num := fun item hi => zero_le_one.trans (hpos item hi)
    have hprio := (allPrio_pos hne hpos).ne'
    have hs : (0 : ℚ) < total used := by exact_mod_cast total_pos hcounts hprio
    have hshares : (used.map (fun item => share (.exact 53) (total used) item.num num)).sum = 7 * num / 10 := by
      have hpart : ∀ item : TagItem, share (.exact 53) (total used) item.num num =
          item.num * (7 * num / (10 * total used)) := by
        intro item
        rw [share_exact]
        push_cast
        ring
      simp only [hpart]
      rw [List.sum_map_mul_right,← allPrio,allPrio_eq]
      field_simp
    have hle := sum_quotas_le_shares (.exact 53) hcounts hnum hprio
    rw [hshares,le_div_iff₀ (by norm_num)] at hle
    have hint : (used.map (quota (.exact 53) used num)).sum * 10 ≤ 7 * num := by exact_mod_cast hle
    omega

/-- The larger count comes first, so it gets the larger quota. -/
theorem quotas_exact_decrease (hsorted : used.Pairwise (fun a b => b.num ≤ a.num)) :
    (used.map (quota (.exact 53) used num)).Pairwise (· ≥ ·) := by
  rw [List.pairwise_map]
  refine hsorted.imp_of_mem (fun {a b} ha hb hab => ?_)
  rw [quota_exact hpos hnum ha,quota_exact hpos hnum hb]
  have hcounts : ∀ item ∈ used, 0 ≤ item.num := fun item hi => zero_le_one.trans (hpos item hi)
  have hd : 0 < 10 * total used := by
    have htotal := total_pos hcounts (allPrio_pos (List.ne_nil_of_mem ha) hpos).ne'
    omega
  have hle : 7 * b.num * num ≤ 7 * a.num * num := by gcongr
  exact min_le_min_left 2 (Int.ediv_le_ediv hd hle)

end

/-- The quotas of a profile that views have built up, in exact arithmetic. The
largest counts are used, their quotas fall along the list and fit into seven tenths
of `num`; the profile part takes just the rows of these quotas, so that the fill is
asked for what is left, and a call returns at most `num` urls. -/
theorem recommend_quota (lib : CxxLib) (usertable : Read) (tagtable : Scan) (lastRand user : Key) (num : Int)
    (hrow : Reachable (usertable user).2) (hnum : 0 ≤ num) (hint : num < 2^31) :
    let items := lib.sort (tagItems (usertable user).2)
    let used := items.take 5
    let q := fun item => min 2 (7 * item.num * num / (10 * total used))
    let got := profilePicks tagtable q used
    items.Perm (tagItems (usertable user).2) ∧
    (∀ a ∈ used, ∀ b ∈ items.drop 5, b.num ≤ a.num) ∧
    (∀ item ∈ used, tagNum (.exact 53) item.num (1 / allPrio used) num = some (q item)) ∧
    (used.map q).Pairwise (· ≥ ·) ∧ (∀ n ∈ used.map q, 0 ≤ n) ∧ (used.map q).sum ≤ 7 * num / 10 ∧
    ((usertable user).2.size ≠ 0 → ∃ lists serr,
      profilePart (.exact 53) lib tagtable (usertable user).2 num .empty = some (.ok (lists,serr)) ∧
      lists.urls = got.map (fun p => urlCell p.2) ∧ lists.desc = got.map (fun p => titleCell p.2) ∧
      lists.tags = got.map Prod.fst ∧
      (lists.urls.length : Int) ≤ 7 * num / 10 ∧ fillNum num lists.urls.length = num - lists.urls.length ∧
      0 ≤ fillNum num lists.urls.length) ∧
    (∀ out, getRecommendWith (.exact 53) lib usertable tagtable lastRand user num .empty = some out →
      (out.lists.urls.length : Int) ≤ num) ∧
    ((∀ s e, ∀ p ∈ (tagtable s e).2.entries, HasCells p.2) →
      ∃ out, getRecommendWith (.exact 53) lib usertable tagtable lastRand user num .empty = some out) := by
  intro items used q got
  have hpos : ∀ item ∈ used, 1 ≤ item.num := fun item hi => hrow.num_pos item (mem_used hi)
  have hcounts : ∀ item ∈ used, 0 ≤ item.num := fun item hi => zero_le_one.trans (hpos item hi)
  have hquota : ∀ item ∈ used, q item = quota (.exact 53) used num item :=
    fun item hi => (quota_exact hpos hnum hi).symm
  have hmap : used.map q = used.map (quota (.exact 53) used num) := List.map_congr_left hquota
  have hnonneg : ∀ item ∈ used, 0 ≤ q item := by
    intro item hi
    rw [hquota item hi]
    exact quota_nonneg _ hcounts hnum (allPrio_pos (List.ne_nil_of_mem hi) hpos).ne' hi
  have htagNum : ∀ item ∈ used, tagNum (.exact 53) item.num (1 / allPrio used) num = some (q item) := by
    intro item hi
    rw [hquota item hi]
    exact tagNum_eq (.exact 53) hcounts (allPrio_pos (List.ne_nil_of_mem hi) hpos).ne' hi (by omega) hint
  have hsorted : (used ++ items.drop 5).Pairwise (fun a b => b.num ≤ a.num) := by
    rw [List.take_append_drop]
    exact sort_decreases lib _
  obtain ⟨hused,-,hcross⟩ := List.pairwise_append.mp hsorted
  have hsum : (used.map q).sum ≤ 7 * num / 10 := hmap ▸ sum_quotas_exact_le hpos hnum
  have hlen : (got.length : Int) ≤ 7 * num / 10 := (profilePicks_length_le tagtable hnonneg).trans hsum
  have hq := quotas_of_reachable lib hrow (.exact 53) (by omega : -2^31 ≤ num) hint
  obtain ⟨err,hiff⟩ := getRecommend_of_some hq (profileRows_of_reachable hrow tagtable _) lastRand
  refine ⟨lib.sort_perm _,hcross,htagNum,hmap ▸ quotas_exact_decrease hpos hnum hused,?_,hsum,?_,?_,?_⟩
  · intro n hn
    obtain ⟨item,hi,rfl⟩ := List.mem_map.mp hn
    exact hnonneg item hi
  · intro hsize
    obtain ⟨serr,hpart⟩ := profilePart_spec tagtable (hrow.allPrio_ne_zero hsize lib) htagNum .empty
    refine ⟨⟨got.map (fun p => urlCell p.2),got.map (fun p => titleCell p.2),got.map Prod.fst⟩,serr,?_,rfl,rfl,rfl,?_⟩
    · exact hpart
    · simp only [List.length_map]
      rw [fillNum_eq (by omega) hint]
      omega
  · intro out hout
    obtain ⟨-,rfl⟩ := (hiff out).mp hout
    have hle := profilePicks_le_num lib hrow (.exact 53) tagtable hnum
    have hfill := fillRows_length_le tagtable lastRand num
      (profilePicks tagtable (quota (.exact 53) (usedItems lib usertable user) num)
        (usedItems lib usertable user)).length
    rw [fillNum_eq hle hint] at hfill
    simp only [List.length_append,List.length_map,Nat.cast_add]
    omega
  · intro hcells
    refine ⟨_,(hiff _).mpr ⟨fun p hp => ?_,rfl⟩⟩
    obtain ⟨s,hs⟩ := scanned_of_mem_fillRows hp
    exact hcells s _ p hs

theorem viewedOnce_reachable {tags : List Bytes} (hb : tags.length ≤ 2^31 - 1) :
    Reachable (viewedOnce tags (bytes "user")).2 := by
  have hdefined : ∃ row, recordTags ∅ tags = some row := by
    rw [recordTags_defined_iff]
    intro t
    have hzero : rowCount ∅ t = 0 := rfl
    have hle : tags.count t ≤ tags.length := List.count_le_length
    omega
  obtain ⟨row,hrow⟩ := hdefined
  exact ⟨tags,by simp [viewedOnce,memTable,hrow]⟩

theorem recommend_quota_sample :
    ∃ out, getRecommendWith (.exact 53) insertionLib (viewedOnce [bytes "b"]) (memTable.scan twoKeywords) []
        (bytes "user") 2 .empty = some out ∧ (out.lists.urls.length : Int) ≤ 2 := by
  obtain ⟨-,-,-,-,-,-,-,hle,hreturns⟩ := recommend_quota insertionLib (viewedOnce [bytes "b"])
    (memTable.scan twoKeywords) [] (bytes "user") 2 (viewedOnce_reachable (by decide)) (by decide) (by decide)
  have hcells : ∀ p ∈ twoKeywords.entries, HasCells p.2 := by decide
  obtain ⟨out,hout⟩ := hreturns (fun s e p hp => hcells p (OrdMap.mem_between.mp hp).1)
  exact ⟨out,hout,hle out hout⟩

end Aret.Engine
