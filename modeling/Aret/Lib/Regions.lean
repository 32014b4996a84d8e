import Mathlib.Order.Nat

/-! Memory handed out from arenas, each from its start upwards, and by the system. -/
namespace Aret.Lib

structure Region where
  addr : Nat
  size : Nat
  deriving DecidableEq, Repr

def Region.Apart (r s : Region) : Prop := r.addr + r.size ≤ s.addr ∨ s.addr + s.size ≤ r.addr

instance (r s : Region) : Decidable (r.Apart s) := inferInstanceAs (Decidable (_ ∨ _))

theorem Region.Apart.symm {r s : Region} (h : r.Apart s) : s.Apart r := h.elim .inr .inl

def Region.Within (r s : Region) : Prop := s.addr ≤ r.addr ∧ r.addr + r.size ≤ s.addr + s.size

theorem Region.Apart.within {r s r' s' : Region} (h : r.Apart s) (hr : r'.Within r) (hs : s'.Within s) :
    r'.Apart s' := by
  obtain ⟨hr1,hr2⟩ := hr
  obtain ⟨hs1,hs2⟩ := hs
  rcases h with hlt | hlt
  · exact .inl (by omega)
  · exact .inr (by omega)

theorem Region.Within.refl (r : Region) : r.Within r := ⟨le_rfl,le_rfl⟩

/-- An arena: its bytes up to `last` are taken, the first `header` of them by itself. -/
structure Arena where
  start : Nat
  header : Nat
  last : Nat
  stop : Nat
  deriving DecidableEq, Repr

def Arena.region (a : Arena) : Region := ⟨a.start,a.stop - a.start⟩

def Arena.Fits (a : Arena) : Prop := a.start + a.header ≤ a.last ∧ a.last ≤ a.stop

/-- Behind the header, among the bytes that are taken. -/
def Arena.Holds (a : Arena) (r : Region) : Prop := a.start + a.header ≤ r.addr ∧ r.addr + r.size ≤ a.last

theorem Arena.Holds.within {a : Arena} {r : Region} (h : a.Holds r) (hfits : a.Fits) : r.Within a.region := by
  obtain ⟨hstart,hlast⟩ := h
  obtain ⟨hheader,hstop⟩ := hfits
  refine ⟨?_,?_⟩
  · change a.start ≤ r.addr
    omega
  · change r.addr + r.size ≤ a.start + (a.stop - a.start)
    omega

/-- What is handed out (`small` from the arenas, `large` by the system itself) stays apart. -/
structure HandedOut (arenas : List Arena) (large small : List Region) : Prop where
  fits : ∀ a ∈ arenas, a.Fits
  system : (arenas.map Arena.region ++ large).Pairwise Region.Apart
  held : ∀ r ∈ small, ∃ a ∈ arenas, a.Holds r
  apart : small.Pairwise Region.Apart

namespace HandedOut
variable {arenas front back : List Arena} {a : Arena} {large small : List Region} {r : Region}

/-- All of it is apart, and none of it is in a header. -/
theorem all (h : HandedOut arenas large small) : (small ++ large).Pairwise Region.Apart := by
  obtain ⟨-,hlarge,hcross⟩ := List.pairwise_append.mp h.system
  refine List.pairwise_append.mpr ⟨h.apart,hlarge,fun r hr s hs => ?_⟩
  obtain ⟨a,ha,hholds⟩ := h.held r hr
  exact (hcross a.region (List.mem_map_of_mem ha) s hs).within (hholds.within (h.fits a ha)) (.refl s)

/-- An arena gives bytes behind those that are taken. -/
theorem take {m size : Nat} (h : HandedOut (front ++ a :: back) large small) (hlast : a.last ≤ m)
    (hstop : m + size ≤ a.stop) :
    HandedOut (front ++ { a with last := m + size } :: back) large (⟨m,size⟩ :: small) := by
  have hmem : a ∈ front ++ a :: back := List.mem_append_right front List.mem_cons_self
  have hfits := h.fits a hmem
  have hregion : ((front ++ { a with last := m + size } :: back).map Arena.region) =
      (front ++ a :: back).map Arena.region := by
    simp [Arena.region]
  have hheld (b : Arena) (hb : b ∈ front ++ a :: back) (s : Region) (hs : b.Holds s) :
      ∃ b' ∈ front ++ { a with last := m + size } :: back, b'.Holds s := by
    rcases List.mem_append.mp hb with hfront | htail
    · exact ⟨b,List.mem_append_left _ hfront,hs⟩
    · rcases List.mem_cons.mp htail with rfl | hback
      · exact ⟨_,List.mem_append_right _ List.mem_cons_self,hs.1,(hs.2.trans hlast).trans (Nat.le_add_right m size)⟩
      · exact ⟨b,List.mem_append_right _ (List.mem_cons_of_mem _ hback),hs⟩
  constructor
  · intro b hb
    rcases List.mem_append.mp hb with hfront | htail
    · exact h.fits b (List.mem_append_left _ hfront)
    · rcases List.mem_cons.mp htail with rfl | hback
      · exact ⟨(hfits.1.trans hlast).trans (Nat.le_add_right m size),hstop⟩
      · exact h.fits b (List.mem_append_right _ (List.mem_cons_of_mem _ hback))
  · rw [hregion]
    exact h.system
  · intro s hs
    rcases List.mem_cons.mp hs with rfl | hs
    · exact ⟨_,List.mem_append_right _ List.mem_cons_self,hfits.1.trans hlast,le_rfl⟩
    · obtain ⟨b,hb,hholds⟩ := h.held s hs
      exact hheld b hb s hholds
  · refine List.pairwise_cons.mpr ⟨fun s hs => ?_,h.apart⟩
    obtain ⟨b,hb,hholds⟩ := h.held s hs
    have hnew : (⟨m,size⟩ : Region).Within a.region := by
      refine ⟨?_,?_⟩
      · change a.start ≤ m
        have := hfits.1
        omega
      · change m + size ≤ a.start + (a.stop - a.start)
        omega
    -- in the same arena it lies behind what is taken, and the others are elsewhere
    have harenas := (List.pairwise_append.mp h.system).1
    rw [List.map_append,List.map_cons,List.pairwise_middle Region.Apart.symm,List.pairwise_cons] at harenas
    have hother (hb' : b.region ∈ front.map Arena.region ++ back.map Arena.region) : (⟨m,size⟩ : Region).Apart s :=
      (harenas.1 b.region hb').within hnew (hholds.within (h.fits b hb))
    rcases List.mem_append.mp hb with hfront | htail
    · exact hother (List.mem_append_left _ (List.mem_map_of_mem hfront))
    · rcases List.mem_cons.mp htail with rfl | hback
      · exact .inr (hholds.2.trans hlast)
      · exact hother (List.mem_append_right _ (List.mem_map_of_mem hback))

/-- The system gives an arena. -/
theorem arena (h : HandedOut arenas large small) (hfits : a.Fits)
    (hfresh : ∀ s ∈ arenas.map Arena.region ++ large, a.region.Apart s) : HandedOut (arenas ++ [a]) large small := by
  constructor
  · intro b hb
    rcases List.mem_append.mp hb with hold | hnew
    · exact h.fits b hold
    · rwa [List.mem_singleton.mp hnew]
  · rw [List.map_append,List.append_assoc,List.map_singleton,List.singleton_append,
      List.pairwise_middle Region.Apart.symm]
    exact List.pairwise_cons.mpr ⟨hfresh,h.system⟩
  · intro s hs
    obtain ⟨b,hb,hholds⟩ := h.held s hs
    exact ⟨b,List.mem_append_left _ hb,hholds⟩
  · exact h.apart

/-- The system gives memory that is handed on. -/
theorem give {large' : List Region} (h : HandedOut arenas large small) (hlarge : large'.Perm (r :: large))
    (hfresh : ∀ s ∈ arenas.map Arena.region ++ large, r.Apart s) : HandedOut arenas large' small := by
  refine ⟨h.fits,?_,h.held,h.apart⟩
  have hperm : (arenas.map Arena.region ++ large').Perm (arenas.map Arena.region ++ r :: large) := hlarge.append_left _
  rw [hperm.pairwise_iff Region.Apart.symm,List.pairwise_middle Region.Apart.symm]
  exact List.pairwise_cons.mpr ⟨hfresh,h.system⟩

theorem giveBack {large' : List Region} (h : HandedOut arenas large small) (hlarge : large'.Sublist large) :
    HandedOut arenas large' small :=
  ⟨h.fits,h.system.sublist (hlarge.append_left _),h.held,h.apart⟩

theorem reset {last : Arena → Nat} (h : HandedOut arenas large small)
    (hlast : ∀ a ∈ arenas, a.start + a.header ≤ last a ∧ last a ≤ a.stop) :
    HandedOut (arenas.map fun a => { a with last := last a }) [] [] := by
  constructor
  · intro b hb
    obtain ⟨a,ha,rfl⟩ := List.mem_map.mp hb
    exact hlast a ha
  · rw [List.append_nil,List.map_map]
    exact (List.pairwise_append.mp h.system).1
  · exact fun s hs => absurd hs List.not_mem_nil
  · exact .nil

end HandedOut

end Aret.Lib
