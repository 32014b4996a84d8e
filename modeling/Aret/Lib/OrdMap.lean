import Mathlib.Data.List.Infix
import Mathlib.Data.List.Pairwise
import Mathlib.Order.Lattice
import Mathlib.Tactic.Common

/-! Finite maps kept as their increasing list of bindings, the order in which
`std::map` iterates. The order invariant is a field, so two maps with the same
lookups are equal. -/
namespace Aret.Lib

structure OrdMap (κ ν : Type) [LinearOrder κ] where
  entries : List (κ × ν)
  sorted : entries.Pairwise (fun a b => a.1 < b.1)
  deriving DecidableEq

namespace OrdMap
variable {κ ν : Type} [LinearOrder κ]

def empty : OrdMap κ ν := ⟨[],.nil⟩

instance : EmptyCollection (OrdMap κ ν) := ⟨empty⟩
instance : Inhabited (OrdMap κ ν) := ⟨empty⟩

def isEmpty (m : OrdMap κ ν) : Bool := m.entries.isEmpty

def size (m : OrdMap κ ν) : Nat := m.entries.length

def find? (m : OrdMap κ ν) (k : κ) : Option ν :=
  (m.entries.find? (fun p => p.1 = k)).map Prod.snd

/-- `operator[]`, which creates a default value where there is none. -/
def get (m : OrdMap κ ν) (k : κ) (default : ν) : ν := (m.find? k).getD default

private def insertEntries (k : κ) (v : ν) : List (κ × ν) → List (κ × ν)
  | [] => [(k,v)]
  | p :: l => if k < p.1 then (k,v) :: p :: l else if k = p.1 then (k,v) :: l else p :: insertEntries k v l

private theorem mem_insertEntries {k : κ} {v : ν} {l : List (κ × ν)}
    (hl : l.Pairwise (fun a b => a.1 < b.1)) {q : κ × ν} :
    q ∈ insertEntries k v l ↔ q = (k,v) ∨ q.1 ≠ k ∧ q ∈ l := by
  induction l with
  | nil => simp [insertEntries]
  | cons p l ih =>
    obtain ⟨hp,hl⟩ := List.pairwise_cons.mp hl
    have hne (hk : k ≤ p.1) : ∀ r ∈ l, r.1 ≠ k := fun r hr => (hk.trans_lt (hp r hr)).ne'
    unfold insertEntries
    split_ifs with hlt heq
    · simp only [List.mem_cons]
      constructor
      · rintro (h | rfl | h)
        · exact .inl h
        · exact .inr ⟨hlt.ne',.inl rfl⟩
        · exact .inr ⟨hne hlt.le q h,.inr h⟩
      · rintro (h | ⟨-,h⟩)
        · exact .inl h
        · exact .inr h
    · simp only [List.mem_cons]
      constructor
      · rintro (h | h)
        · exact .inl h
        · exact .inr ⟨hne heq.le q h,.inr h⟩
      · rintro (h | ⟨hq,rfl | h⟩)
        · exact .inl h
        · exact absurd heq.symm hq
        · exact .inr h
    · rw [List.mem_cons,ih hl,List.mem_cons]
      constructor
      · rintro (rfl | h | h)
        · exact .inr ⟨fun he => heq he.symm,.inl rfl⟩
        · exact .inl h
        · exact .inr ⟨h.1,.inr h.2⟩
      · rintro (h | ⟨hq,rfl | h⟩)
        · exact .inr (.inl h)
        · exact .inl rfl
        · exact .inr (.inr ⟨hq,h⟩)

private theorem insertEntries_sorted {k : κ} {v : ν} {l : List (κ × ν)}
    (hl : l.Pairwise (fun a b => a.1 < b.1)) :
    (insertEntries k v l).Pairwise (fun a b => a.1 < b.1) := by
  induction l with
  | nil => simp [insertEntries]
  | cons p l ih =>
    have hs := hl
    obtain ⟨hp,hl⟩ := List.pairwise_cons.mp hl
    unfold insertEntries
    split_ifs with hlt heq
    · refine List.pairwise_cons.mpr ⟨?_,hs⟩
      intro q hq
      rcases List.mem_cons.mp hq with rfl | hq
      · exact hlt
      · exact hlt.trans (hp q hq)
    · exact List.pairwise_cons.mpr ⟨fun q hq => heq ▸ hp q hq,hl⟩
    · refine List.pairwise_cons.mpr ⟨?_,ih hl⟩
      intro q hq
      rcases (mem_insertEntries hl).mp hq with rfl | ⟨_,hq⟩
      · exact lt_of_le_of_ne (not_lt.mp hlt) (Ne.symm heq)
      · exact hp q hq

def insert (m : OrdMap κ ν) (k : κ) (v : ν) : OrdMap κ ν :=
  ⟨insertEntries k v m.entries,insertEntries_sorted m.sorted⟩

def single (k : κ) (v : ν) : OrdMap κ ν := ⟨[(k,v)],List.pairwise_singleton _ _⟩

/-- The bindings with `lo ≤ key < hi`. -/
def between (m : OrdMap κ ν) (lo hi : κ) : OrdMap κ ν :=
  ⟨m.entries.filter (fun p => lo ≤ p.1 ∧ p.1 < hi),m.sorted.filter _⟩

theorem entries_injective {m n : OrdMap κ ν} (h : m.entries = n.entries) : m = n := by
  cases m
  cases n
  cases h
  rfl

private theorem find_some_iff {l : List (κ × ν)} (hl : l.Pairwise (fun a b => a.1 < b.1)) {k : κ} {v : ν} :
    (l.find? (fun p => p.1 = k)).map Prod.snd = some v ↔ (k,v) ∈ l := by
  induction l with
  | nil => simp
  | cons p l ih =>
    obtain ⟨hp,hl⟩ := List.pairwise_cons.mp hl
    rw [List.find?_cons,List.mem_cons]
    by_cases hk : p.1 = k
    · subst hk
      have hn : (p.1,v) ∉ l := fun h => absurd (hp (p.1,v) h) (lt_irrefl p.1)
      simp [hn,Prod.ext_iff,eq_comm]
    · have hn : (k,v) ≠ p := fun h => hk (h ▸ rfl)
      simpa [hk,hn] using ih hl

theorem find?_eq_some_iff {m : OrdMap κ ν} {k : κ} {v : ν} :
    m.find? k = some v ↔ (k,v) ∈ m.entries := find_some_iff m.sorted

@[simp] theorem find?_empty (k : κ) : (∅ : OrdMap κ ν).find? k = none := rfl

@[simp] theorem entries_empty : (∅ : OrdMap κ ν).entries = [] := rfl

theorem isEmpty_iff {m : OrdMap κ ν} : m.isEmpty = true ↔ m.entries = [] := List.isEmpty_iff

theorem find?_insert (m : OrdMap κ ν) (k : κ) (v : ν) (j : κ) :
    (m.insert k v).find? j = if j = k then some v else m.find? j := by
  apply Option.ext
  intro w
  rw [find?_eq_some_iff,insert,mem_insertEntries m.sorted]
  split_ifs with h
  · simp [h,eq_comm]
  · simp [h,find?_eq_some_iff]

@[simp] theorem find?_insert_self (m : OrdMap κ ν) (k : κ) (v : ν) : (m.insert k v).find? k = some v := by
  simp [find?_insert]

@[simp] theorem find?_single (k : κ) (v : ν) (j : κ) :
    (single k v).find? j = if j = k then some v else none := by
  by_cases h : k = j <;> simp [single,find?,h,eq_comm]

theorem get_of_find? {m : OrdMap κ ν} {k : κ} {v : ν} (h : m.find? k = some v) (d : ν) :
    m.get k d = v := by simp [get,h]

theorem get_of_find?_none {m : OrdMap κ ν} {k : κ} (h : m.find? k = none) (d : ν) :
    m.get k d = d := by simp [get,h]

theorem get_insert (m : OrdMap κ ν) (k : κ) (v : ν) (j : κ) (d : ν) :
    (m.insert k v).get j d = if j = k then v else m.get j d := by
  simp only [get,find?_insert]
  split_ifs <;> rfl

/-- The invariant makes maps extensional. -/
theorem ext_find? {m n : OrdMap κ ν} (h : ∀ k, m.find? k = n.find? k) : m = n := by
  have hm (p : κ × ν) : p ∈ m.entries ↔ p ∈ n.entries := by
    rw [← find?_eq_some_iff,← find?_eq_some_iff,h]
  have hd (l : OrdMap κ ν) : l.entries.Nodup := l.sorted.imp (fun hab he => (he ▸ hab).ne rfl)
  apply entries_injective
  refine ((List.perm_ext_iff_of_nodup (hd m) (hd n)).mpr hm).eq_of_pairwise ?_ m.sorted n.sorted
  exact fun a b _ _ hab hba => absurd hab hba.not_gt

/-- Writing what is there changes nothing. -/
theorem insert_of_find? {m : OrdMap κ ν} {k : κ} {v : ν} (h : m.find? k = some v) : m.insert k v = m := by
  apply ext_find?
  intro j
  rw [find?_insert]
  split_ifs with hj
  · rw [hj,h]
  · rfl

/-- A write to the first key keeps its place. -/
theorem entries_insert_head {m : OrdMap κ ν} {k : κ} {v w : ν} {rest : List (κ × ν)}
    (h : m.entries = (k,w) :: rest) : (m.insert k v).entries = (k,v) :: rest := by
  simp [insert,h,insertEntries]

theorem mem_between {m : OrdMap κ ν} {lo hi : κ} {p : κ × ν} :
    p ∈ (m.between lo hi).entries ↔ p ∈ m.entries ∧ lo ≤ p.1 ∧ p.1 < hi := by
  simp [between]

/-- Several bindings, one after another. -/
def insertAll (m : OrdMap κ ν) (writes : List (κ × ν)) : OrdMap κ ν := writes.foldl (fun m p => m.insert p.1 p.2) m

/-- After several writes a key holds one of the values written to it, if there are any. -/
theorem find?_insertAll (m : OrdMap κ ν) (writes : List (κ × ν)) (k : κ) :
    (∃ v, (k,v) ∈ writes ∧ (m.insertAll writes).find? k = some v) ∨
      (∀ v, (k,v) ∉ writes) ∧ (m.insertAll writes).find? k = m.find? k := by
  induction writes using List.reverseRecOn with
  | nil => exact Or.inr ⟨by simp,rfl⟩
  | append_singleton writes p ih =>
    have hlast : (m.insertAll (writes ++ [p])).find? k =
        if k = p.1 then some p.2 else (m.insertAll writes).find? k := by
      rw [insertAll,List.foldl_append]
      exact find?_insert _ _ _ _
    rw [hlast]
    split_ifs with hk
    · exact Or.inl ⟨p.2,by simp [hk],rfl⟩
    · rcases ih with ⟨v,hv,hfind⟩ | ⟨hnone,hfind⟩
      · exact Or.inl ⟨v,List.mem_append_left _ hv,hfind⟩
      · refine Or.inr ⟨fun v hv => ?_,hfind⟩
        rcases List.mem_append.mp hv with hv | hv
        · exact hnone v hv
        · exact hk (congrArg Prod.fst (List.mem_singleton.mp hv))

/-- An initial run of a sorted list holds everything up to any of its keys. -/
theorem mem_of_prefix_of_le {l r : List (κ × ν)} (hr : r.Pairwise (fun a b => a.1 < b.1)) (hl : l <+: r)
    {p q : κ × ν} (hq : q ∈ l) (hp : p ∈ r) (hle : p.1 ≤ q.1) : p ∈ l := by
  obtain ⟨t,rfl⟩ := hl
  rcases List.mem_append.mp hp with hp | hp
  · exact hp
  · exact absurd ((List.pairwise_append.mp hr).2.2 q hq p hp) (not_lt.mpr hle)

theorem find?_between (m : OrdMap κ ν) (lo hi k : κ) :
    (m.between lo hi).find? k = if lo ≤ k ∧ k < hi then m.find? k else none := by
  apply Option.ext
  intro v
  rw [find?_eq_some_iff,mem_between]
  split_ifs with h
  · rw [find?_eq_some_iff]
    exact ⟨fun hm => hm.1,fun hm => ⟨hm,h⟩⟩
  · exact ⟨fun hm => absurd hm.2 h,fun hm => nomatch hm⟩

theorem mem_keys_between {m : OrdMap κ ν} {lo hi k : κ} :
    k ∈ (m.between lo hi).entries.map Prod.fst ↔ m.find? k ≠ none ∧ lo ≤ k ∧ k < hi := by
  rw [List.mem_map,Option.ne_none_iff_exists']
  constructor
  · rintro ⟨p,hp,rfl⟩
    obtain ⟨hmem,hrange⟩ := mem_between.mp hp
    exact ⟨⟨p.2,find?_eq_some_iff.mpr hmem⟩,hrange⟩
  · rintro ⟨⟨v,hv⟩,hrange⟩
    exact ⟨(k,v),mem_between.mpr ⟨find?_eq_some_iff.mp hv,hrange⟩,rfl⟩

private theorem takeWhile_dropWhile {l : List (κ × ν)} (hl : l.Pairwise (fun a b => a.1 < b.1)) (lo hi : κ) :
    (l.dropWhile (fun p => p.1 < lo)).takeWhile (fun p => p.1 < hi) = l.filter (fun p => lo ≤ p.1 ∧ p.1 < hi) := by
  induction l with
  | nil => rfl
  | cons p l ih =>
    obtain ⟨hp,hs⟩ := List.pairwise_cons.mp hl
    by_cases hlo : p.1 < lo
    · rw [List.dropWhile_cons,if_pos (decide_eq_true hlo),ih hs,List.filter_cons_of_neg]
      simp [hlo]
    · have hrest : l.dropWhile (fun p => p.1 < lo) = l := by
        cases l with
        | nil => rfl
        | cons q l =>
          have hq : ¬ q.1 < lo := fun h => hlo ((hp q List.mem_cons_self).trans h)
          simp [hq]
      rw [List.dropWhile_cons,if_neg (by simpa using hlo)]
      by_cases hhi : p.1 < hi
      · rw [List.takeWhile_cons,if_pos (decide_eq_true hhi),List.filter_cons_of_pos (by simp [not_lt.mp hlo,hhi]),
        ← ih hs,
          hrest]
      · rw [List.takeWhile_cons,if_neg (by simpa using hhi),eq_comm,List.filter_eq_nil_iff]
        intro q hq
        have hge : p.1 ≤ q.1 := by
          rcases List.mem_cons.mp hq with rfl | hq
          · exact le_rfl
          · exact (hp q hq).le
        simp [(not_lt.mp hhi).trans hge]

/-- Iterating from `lower_bound(lo)` up to `hi` passes through the range. -/
theorem entries_between (m : OrdMap κ ν) (lo hi : κ) :
    (m.between lo hi).entries = (m.entries.dropWhile (fun p => p.1 < lo)).takeWhile (fun p => p.1 < hi) :=
  (takeWhile_dropWhile m.sorted lo hi).symm

/-- A range only depends on the bindings inside it. -/
theorem between_congr {m n : OrdMap κ ν} {lo hi : κ} (h : ∀ k, lo ≤ k → m.find? k = n.find? k) :
    m.between lo hi = n.between lo hi := by
  apply ext_find?
  intro k
  rw [find?_between,find?_between]
  split_ifs with hk
  · exact h k hk.1
  · rfl

theorem le_last {front : List (κ × ν)} {p q : κ × ν} (h : (front ++ [q]).Pairwise (fun a b => a.1 < b.1))
    (hp : p ∈ front ++ [q]) : p.1 ≤ q.1 := by
  rcases List.mem_append.mp hp with hp | hp
  · exact ((List.pairwise_append.mp h).2.2 p hp q (by simp)).le
  · exact (List.mem_singleton.mp hp) ▸ le_rfl

/-- An initial run that ends at `q` is what a raised lower bound cuts off. -/
theorem between_split (m : OrdMap κ ν) {lo lo' hi : κ} {front : List (κ × ν)} {q : κ × ν}
    (hp : front ++ [q] <+: (m.between lo hi).entries) (hl : ∀ k, k < lo' ↔ k ≤ q.1) :
    (m.between lo hi).entries = (front ++ [q]) ++ (m.between lo' hi).entries := by
  have hq : lo ≤ lo' := (mem_between.mp (hp.subset (by simp : q ∈ front ++ [q]))).2.1.trans ((hl q.1).mpr le_rfl).le
  have he : (m.between lo' hi).entries = (m.between lo hi).entries.filter (fun p => lo' ≤ p.1) := by
    rw [between,between,List.filter_filter]
    apply List.filter_congr
    intro p _
    simp only [← Bool.decide_and,decide_eq_decide]
    exact ⟨fun h => ⟨h.1,hq.trans h.1,h.2⟩,fun h => ⟨h.1,h.2.2⟩⟩
  obtain ⟨t,ht⟩ := hp
  have hs := (m.between lo hi).sorted
  rw [← ht] at hs he ⊢
  obtain ⟨hf,_,hft⟩ := List.pairwise_append.mp hs
  have hfront : (front ++ [q]).filter (fun p => lo' ≤ p.1) = [] := by
    rw [List.filter_eq_nil_iff]
    intro p hp
    simpa using (hl p.1).mpr (le_last hf hp)
  have htail : t.filter (fun p => lo' ≤ p.1) = t := by
    rw [List.filter_eq_self]
    intro p hp
    have hlt : q.1 < p.1 := hft q (by simp) p hp
    have hge : lo' ≤ p.1 := not_lt.mp (fun h => absurd hlt (not_lt.mpr ((hl p.1).mp h)))
    simpa using hge
  rw [he,List.filter_append,hfront,htail,List.nil_append]

end OrdMap
end Aret.Lib
