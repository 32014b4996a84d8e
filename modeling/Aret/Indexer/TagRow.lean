import Aret.Engine.ReEngine
import Aret.Indexer.Ec

/-! The row format the indexer and the engine share: a TagTable key is
`keyword-ts-nt`, and the suffix stripping of `GetRecommend` undoes it. -/
namespace Aret.Indexer
open Lib Tera Engine

theorem dash_notMem_decimal (n : Nat) : (45 : UInt8) ∉ decimal n := by
  intro h
  exact absurd (isDigit_of_mem_decimal h) (by decide)

theorem showInt_of_nonneg {z : Int} (hz : 0 ≤ z) : showInt z = decimal z.toNat := by
  cases z with
  | ofNat n => rfl
  | negSucc n => exact absurd hz (by omega)

theorem tagKey_eq {kw : Bytes} {ts nt : Int} (hts : 0 ≤ ts) (hnt : 0 ≤ nt) :
    tagKey kw ts nt = (kw ++ 45 :: decimal ts.toNat) ++ 45 :: decimal nt.toNat := by
  rw [tagKey,showInt_of_nonneg hts,showInt_of_nonneg hnt]
  simp [bytes]

/-- A dash in front is found twice, since `pos - 1` wraps, and empties the word. -/
theorem stripKey_of_front {v : Bytes} (hv : 45 ∉ v) : stripKey (45 :: v) = [] := by
  have hlast := rfind_npos [] v hv
  rw [List.nil_append] at hlast
  rw [stripKey,hlast]
  simp [hlast]

/-- Elsewhere the last dash but one ends the word, if there is one. -/
theorem stripKey_of_last {u v : Bytes} (hu : u ≠ []) (hv : 45 ∉ v) :
    stripKey (u ++ 45 :: v) = ((rfind 45 u none).map (u ++ 45 :: v).take).getD (u ++ 45 :: v) := by
  have hlen : u.length ≠ 0 := by simpa using hu
  have hfront : (u ++ 45 :: v).take (u.length - 1 + 1) = u := by
    rw [Nat.sub_add_cancel (Nat.pos_of_ne_zero hlen),List.take_left]
  rw [stripKey,rfind_npos u v hv]
  simp only [if_neg hlen]
  rw [rfind_some hfront]
  cases rfind 45 u none <;> rfl

theorem stripKey_prefix (key : Key) : stripKey key <+: key := by
  rw [stripKey]
  split
  · exact List.prefix_rfl
  · split
    · exact List.prefix_rfl
    · exact List.take_prefix _ _

theorem head_of_stripKey_nil {key : Key} (h : stripKey key = []) : ∀ b ∈ key.head?, b = 45 := by
  by_cases hmem : 45 ∈ key
  · obtain ⟨u,v,rfl,hv⟩ := exists_last_of_mem hmem
    cases u with
    | nil => simp
    | cons b u =>
      rw [stripKey_of_last (List.cons_ne_nil b u) hv] at h
      by_cases hdash : 45 ∈ b :: u
      · obtain ⟨u',v',hsplit,hv'⟩ := exists_last_of_mem hdash
        rw [hsplit,rfind_npos u' v' hv',Option.map_some,Option.getD_some,List.append_assoc,List.take_left] at h
        subst h
        have hb : b = 45 := (List.cons.inj hsplit).1
        simpa using hb
      · rw [rfind_notMem hdash] at h
        exact absurd h (by simp)
  · rw [stripKey,rfind_notMem hmem] at h
    simp [h]

/-- Stripping recovers the keyword, whatever dashes and digits it holds. -/
theorem stripKey_tagKey {kw : Bytes} {ts nt : Int} (hts : 0 ≤ ts) (hnt : 0 ≤ nt) :
    stripKey (tagKey kw ts nt) = kw := by
  rw [tagKey_eq hts hnt,stripKey_of_last (by simp) (dash_notMem_decimal _),rfind_npos kw _ (dash_notMem_decimal _)]
  simp

theorem tagKey_injective {kw kw' : Bytes} {ts nt ts' nt' : Int} (hts : 0 ≤ ts) (hnt : 0 ≤ nt) (hts' : 0 ≤ ts')
    (hnt' : 0 ≤ nt') (h : tagKey kw ts nt = tagKey kw' ts' nt') : kw = kw' ∧ ts = ts' ∧ nt = nt' := by
  have hk := congrArg stripKey h
  rw [stripKey_tagKey hts hnt,stripKey_tagKey hts' hnt'] at hk
  subst hk
  rw [tagKey_eq hts hnt,tagKey_eq hts' hnt'] at h
  obtain ⟨hl,hr⟩ := split_last_unique (dash_notMem_decimal _) (dash_notMem_decimal _) h
  have hts'' : decimal ts.toNat = decimal ts'.toNat := (List.cons.inj (List.append_cancel_left hl)).2
  have hd := decimal_injective hts''
  have hn := decimal_injective hr
  exact ⟨rfl,by omega,by omega⟩

/-- A key leads back to its keyword, and no other triple has it. -/
theorem tagKey_decodable (kw : Bytes) {ts nt : Int} (hts : 0 ≤ ts ∧ ts < 2^63) (hnt : 0 ≤ nt ∧ nt < 2^63) :
    stripKey (tagKey kw ts nt) = kw ∧ ∀ kw' ts' nt', 0 ≤ ts' ∧ ts' < 2^63 → 0 ≤ nt' ∧ nt' < 2^63 →
      tagKey kw ts nt = tagKey kw' ts' nt' → (kw,ts,nt) = (kw',ts',nt') := by
  refine ⟨stripKey_tagKey hts.1 hnt.1,fun kw' ts' nt' hts' hnt' h => ?_⟩
  obtain ⟨hkw,hts'',hnt''⟩ := tagKey_injective hts.1 hnt.1 hts'.1 hnt'.1 h
  rw [hkw,hts'',hnt'']

theorem tagKey_decodable_dash : tagKey (bytes "a-1-") 0 7 = bytes "a-1--0-7" ∧
    stripKey (tagKey (bytes "a-1-") 0 7) = bytes "a-1-" ∧
    ∀ kw' ts' nt', 0 ≤ ts' ∧ ts' < 2^63 → 0 ≤ nt' ∧ nt' < 2^63 →
      tagKey (bytes "a-1-") 0 7 = tagKey kw' ts' nt' → (bytes "a-1-",0,7) = (kw',ts',nt') :=
  ⟨by decide,tagKey_decodable (bytes "a-1-") (by decide) (by decide)⟩

/-- The printed number behind the last dash of a key; the dash of a negative one
stays in front. -/
theorem tagKey_split (kw : Bytes) (ts nt : Int) : ∃ sign n, (sign = [] ∨ sign = [45]) ∧
    tagKey kw ts nt = (kw ++ 45 :: showInt ts ++ sign) ++ 45 :: decimal n := by
  cases nt with
  | ofNat n => exact ⟨[],n,Or.inl rfl,by simp [tagKey,showInt,bytes]⟩
  | negSucc n => exact ⟨[45],n + 1,Or.inr rfl,by simp [tagKey,showInt,bytes]⟩

private theorem showInt_getLast (z : Int) : ∃ front d, showInt z = front ++ [d] ∧ d ≠ 45 := by
  have hlast : ∀ n, ∃ front d, decimal n = front ++ [d] ∧ d ≠ 45 := by
    intro n
    refine ⟨_,_,(List.dropLast_append_getLast (decimal_ne_nil n)).symm,fun h => ?_⟩
    exact dash_notMem_decimal n (h ▸ List.getLast_mem (decimal_ne_nil n))
  cases z with
  | ofNat n => exact hlast n
  | negSucc n =>
    obtain ⟨front,d,hd,hne⟩ := hlast (n + 1)
    exact ⟨45 :: front,d,congrArg (45 :: ·) hd,hne⟩

/-- For one timestamp the keys of different keywords differ, whatever the signs. -/
theorem keyword_of_tagKey {kw kw' : Bytes} {ts nt nt' : Int} (h : tagKey kw ts nt = tagKey kw' ts nt') : kw = kw' := by
  obtain ⟨sign,n,hsign,hkey⟩ := tagKey_split kw ts nt
  obtain ⟨sign',n',hsign',hkey'⟩ := tagKey_split kw' ts nt'
  obtain ⟨front,d,hd,hne⟩ := showInt_getLast ts
  rw [hkey,hkey'] at h
  have hfront := (split_last_unique (dash_notMem_decimal n) (dash_notMem_decimal n') h).1
  -- a digit stands before the dash of a positive number, a dash before that of a negative one
  have hdigit : ∀ u v : Bytes, u ++ 45 :: showInt ts ≠ v ++ [45] := by
    intro u v he
    have hshift : u ++ 45 :: (front ++ [d]) = (u ++ 45 :: front) ++ [d] := by simp
    rw [hd,hshift] at he
    exact hne (List.cons.inj (List.append_inj' he rfl).2).1
  rcases hsign with rfl | rfl <;> rcases hsign' with rfl | rfl
  · simpa using hfront
  · exact absurd ((List.append_nil _).symm.trans hfront) (hdigit _ _)
  · exact absurd ((List.append_nil _).symm.trans hfront.symm) (hdigit _ _)
  · simpa using hfront

theorem column_url (rowKey title : Bytes) : column (tagRecord rowKey title) (bytes "url") = .single 0 rowKey := by
  have hne : bytes "url" ≠ bytes "title" := by decide
  simp [column,tagRecord,OrdMap.get,OrdMap.find?_insert,hne]

theorem column_title (rowKey title : Bytes) : column (tagRecord rowKey title) (bytes "title") = .single 0 title := by
  simp [column,tagRecord,OrdMap.get]

theorem cell_url (rowKey title : Bytes) : cell (tagRecord rowKey title) (bytes "url") 0 = rowKey := by
  rw [cell,column_url]
  simp [OrdMap.get]

theorem cell_title (rowKey title : Bytes) : cell (tagRecord rowKey title) (bytes "title") 0 = title := by
  rw [cell,column_title]
  simp [OrdMap.get]

/-- A TagTable key read as `w-ts-nt`. -/
def Decodes (key : Key) (w : Bytes) (ts nt : Int) : Prop := 0 ≤ ts ∧ 0 ≤ nt ∧ key = tagKey w ts nt

/-- The key belongs to keyword `w`. -/
def HasKeyword (key : Key) (w : Bytes) : Prop := ∃ ts nt, Decodes key w ts nt

theorem Decodes.stripKey {key : Key} {w : Bytes} {ts nt : Int} (h : Decodes key w ts nt) : stripKey key = w :=
  h.2.2 ▸ stripKey_tagKey h.1 h.2.1

/-- A TagTable with rows of the indexer's form. -/
def EcRows (rows : TableSlice) : Prop :=
  ∀ p ∈ rows.entries, ∃ kw rowKey title ts nt, p = (tagKey kw ts nt,tagRecord rowKey title)

/-- A TagTable that only the indexer has written to, with clocks that show no
negative time. -/
def EcWritten (rows : TableSlice) : Prop :=
  ∀ p ∈ rows.entries, ∃ kw rowKey title ts nt, 0 ≤ ts ∧ 0 ≤ nt ∧
    p = (tagKey kw ts nt,tagRecord rowKey title)

theorem EcWritten.rows {rows : TableSlice} (h : EcWritten rows) : EcRows rows := by
  intro p hp
  obtain ⟨kw,rowKey,title,ts,nt,-,-,heq⟩ := h p hp
  exact ⟨kw,rowKey,title,ts,nt,heq⟩

theorem ecWritten_empty : EcWritten ∅ := fun _ hp => absurd hp List.not_mem_nil

theorem EcWritten.insert {rows : TableSlice} (h : EcWritten rows) {ts nt : Int} (hts : 0 ≤ ts) (hnt : 0 ≤ nt)
    (kw rowKey title : Bytes) : EcWritten (rows.insert (tagKey kw ts nt) (tagRecord rowKey title)) := by
  intro p hp
  have hfind := OrdMap.find?_eq_some_iff.mpr hp
  rw [OrdMap.find?_insert] at hfind
  split_ifs at hfind with hkey
  · exact ⟨kw,rowKey,title,ts,nt,hts,hnt,Prod.ext hkey (Option.some.inj hfind).symm⟩
  · exact h p (OrdMap.find?_eq_some_iff.mp hfind)

/-- In such a table the engine's suffix stripping finds the keyword of every row. -/
theorem EcWritten.hasKeyword_iff {rows : TableSlice} (h : EcWritten rows) {p : Key × Record} (hp : p ∈ rows.entries)
    {w : Bytes} : HasKeyword p.1 w ↔ stripKey p.1 = w := by
  obtain ⟨kw,rowKey,title,ts,nt,hts,hnt,rfl⟩ := h p hp
  have hdec : Decodes (tagKey kw ts nt) kw ts nt := ⟨hts,hnt,rfl⟩
  constructor
  · rintro ⟨ts',nt',hd⟩
    exact hd.stripKey
  · intro hw
    rw [hdec.stripKey] at hw
    exact ⟨ts,nt,hw ▸ hdec⟩

theorem EcRows.nonempty {rows : TableSlice} (h : EcRows rows) {p : Key × Record} (hp : p ∈ rows.entries) :
    p.2.isEmpty = false := by
  obtain ⟨kw,rowKey,title,ts,nt,rfl⟩ := h p hp
  rfl

end Aret.Indexer
