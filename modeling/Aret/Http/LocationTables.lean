import Aret.Http.LocationLookup
import Mathlib.Data.List.Nodup
import Mathlib.Data.Prod.Lex

/-! From the locations as they are declared to the tree: sorting keeps the static
ones together in the order of their names, an exact location before an inclusive
one of the same name, and joining rejects a name that is declared twice. -/
namespace Aret.Http
open Lib

section Sorting
variable {β : Type} {compare : β → β → Ordering}

theorem queueInsert_perm (sorted : List β) (q : β) : (queueInsert compare sorted q).Perm (q :: sorted) := by
  have hall := List.takeWhile_append_dropWhile (p := fun prev => compare prev q == .gt) (l := sorted.reverse)
  refine List.perm_middle.trans (List.Perm.cons q ?_)
  rw [← List.reverse_append,hall,List.reverse_reverse]

theorem queueSort_perm (queue : List β) : (queueSort compare queue).Perm queue := by
  have hgo : ∀ sorted : List β, (queue.foldl (queueInsert compare) sorted).Perm (sorted ++ queue) := by
    induction queue with
    | nil => simp
    | cons q queue ih =>
      intro sorted
      refine (ih _).trans (((queueInsert_perm sorted q).append_right queue).trans ?_)
      exact List.perm_middle.symm
  exact hgo []

/-- Sorting by a comparison that a linear order of keys decides. -/
theorem queueSort_sorted {κ : Type} [LinearOrder κ] {key : β → κ} (hkey : ∀ a b, compare a b = .gt ↔ key b < key a)
    (queue : List β) : (queueSort compare queue).Pairwise (fun a b => key a ≤ key b) := by
  have hinsert : ∀ (sorted : List β) q, sorted.Pairwise (fun a b => key a ≤ key b) →
      (queueInsert compare sorted q).Pairwise (fun a b => key a ≤ key b) := by
    intro sorted q hsorted
    rw [← List.reverse_reverse sorted,List.pairwise_reverse] at hsorted
    have hback : ∀ x ∈ sorted.reverse.takeWhile (fun prev => compare prev q == .gt), key q < key x := fun x hx => by
      simpa [hkey] using List.mem_takeWhile_imp hx
    have hfront : ∀ x ∈ sorted.reverse.dropWhile (fun prev => compare prev q == .gt), key x ≤ key q := by
      cases hdrop : sorted.reverse.dropWhile (fun prev => compare prev q == .gt) with
      | nil => simp
      | cons z rest =>
        have hz : key z ≤ key q := by
          have := List.head_dropWhile_not (fun prev => compare prev q == .gt) (l := sorted.reverse) (by simp [hdrop])
          simpa [hdrop,hkey] using this
        have hrest := hsorted.sublist (List.dropWhile_sublist (fun prev => compare prev q == .gt))
        rw [hdrop] at hrest
        intro x hx
        rcases List.mem_cons.mp hx with rfl | hx
        · exact hz
        · exact ((List.pairwise_cons.mp hrest).1 x hx).trans hz
    have hsplit := hsorted
    rw [← List.takeWhile_append_dropWhile (p := fun prev => compare prev q == .gt) (l := sorted.reverse),
      List.pairwise_append] at hsplit
    obtain ⟨htake,hdrop,hcross⟩ := hsplit
    rw [queueInsert,List.pairwise_append,List.pairwise_cons,List.pairwise_reverse,List.pairwise_reverse]
    refine ⟨hdrop,⟨fun x hx => (hback x (List.mem_reverse.mp hx)).le,htake⟩,fun x hx y hy => ?_⟩
    have hx := hfront x (List.mem_reverse.mp hx)
    rcases List.mem_cons.mp hy with rfl | hy
    · exact hx
    · exact hx.trans (hback y (List.mem_reverse.mp hy)).le
  have hgo : ∀ sorted : List β, sorted.Pairwise (fun a b => key a ≤ key b) →
      (queue.foldl (queueInsert compare) sorted).Pairwise (fun a b => key a ≤ key b) := by
    induction queue with
    | nil => exact fun sorted h => h
    | cons q queue ih => exact fun sorted h => ih _ (hinsert sorted q h)
  exact hgo [] .nil

end Sorting

section
variable {α : Type}

def LocationQueue.rank (lq : LocationQueue α) : Nat :=
  match lq.kind with
  | some .noname => 3
  | some .named => 2
  | some .regex => 1
  | _ => 0

def LocationQueue.key (lq : LocationQueue α) : Nat ×ₗ (Bytes ×ₗ Nat) :=
  toLex (lq.rank,match lq.kind with
    | some .noname | some .regex => toLex ([],0)
    | some .named => toLex (cString lq.name,0)
    | some .exact => toLex (cString lq.name,0)
    | _ => toLex (cString lq.name,1))

theorem cmpLocations_gt_iff (one two : LocationQueue α) : cmpLocations one two = .gt ↔ two.key < one.key := by
  have hor : ∀ s t : Bytes, (¬ s = t → t < s) ↔ t < s ∨ t = s := fun s t => by
    rw [or_iff_not_imp_right,eq_comm]
  simp only [cmpLocations,LocationQueue.key,LocationQueue.rank,Prod.Lex.toLex_lt_toLex]
  generalize hfirst : one.kind = first,htwo : two.kind = second
  rcases first with _ | (_ | _ | _ | _ | _)
  all_goals
    rcases second with _ | (_ | _ | _ | _ | _)
    all_goals simp [Prod.Lex.toLex_lt_toLex,strcmp,order_eq_gt_iff,order_eq_iff,hor]

def CoreLocConf.Static (clcf : CoreLocConf α) : Prop := clcf.kind = .exact ∨ clcf.kind = .inclusive

/-- The element `ngx_http_add_location` makes. -/
def CoreLocConf.queued (clcf : CoreLocConf α) : LocationQueue α :=
  match clcf.kind with
  | .inclusive => ⟨clcf.name,none,some clcf⟩
  | _ => ⟨clcf.name,some clcf,none⟩

theorem foldl_addLocation (locs : List (CoreLocConf α)) : locs.foldl addLocation [] = locs.map CoreLocConf.queued := by
  have hgo : ∀ queue : List (LocationQueue α), locs.foldl addLocation queue = queue ++ locs.map CoreLocConf.queued := by
    induction locs with
    | nil => simp
    | cons clcf locs ih =>
      intro queue
      rw [List.foldl_cons,ih,addLocation,List.append_assoc]
      rfl
  exact hgo []

theorem queued_kind (clcf : CoreLocConf α) : clcf.queued.kind = some clcf.kind := by
  rw [CoreLocConf.queued]
  split <;> simp [LocationQueue.kind,LocationQueue.clcf]

theorem queued_name (clcf : CoreLocConf α) : clcf.queued.name = clcf.name := by
  rw [CoreLocConf.queued]
  split <;> rfl

theorem rank_queued (clcf : CoreLocConf α) : clcf.queued.rank = 0 ↔ clcf.Static := by
  rw [LocationQueue.rank,queued_kind,CoreLocConf.Static]
  cases clcf.kind <;> simp

/-- In a sorted list, what passes a predicate that earlier elements pass too comes first. -/
theorem takeWhile_eq_filter_of_sorted {β : Type} {R : β → β → Prop} {l : List β} (hl : l.Pairwise R) {p : β → Bool}
    (hdown : ∀ x y, R x y → p y = true → p x = true) : l.takeWhile p = l.filter p := by
  induction l with
  | nil => rfl
  | cons a l ih =>
    obtain ⟨ha,hl⟩ := List.pairwise_cons.mp hl
    rw [List.takeWhile_cons,List.filter_cons,ih hl]
    split_ifs with hpa
    · rfl
    · exact (List.filter_eq_nil_iff.mpr (fun x hx hpx => hpa (hdown a x (ha x hx) hpx))).symm

theorem rank_le_of_key_le {one two : LocationQueue α} (h : one.key ≤ two.key) : one.rank ≤ two.rank := by
  rw [LocationQueue.key,LocationQueue.key,Prod.Lex.toLex_le_toLex] at h
  rcases h with h | h
  · exact h.le
  · exact h.1.le

theorem initLocations_eq (locations : List (LocationQueue α)) :
    initLocations locations = (queueSort cmpLocations locations).filter (fun e => e.rank = 0) := by
  have hrank : ∀ e : LocationQueue α, (e.kind ≠ some .noname ↔ e.rank < 3) ∧
      (e.rank < 3 → (e.kind ≠ some .named ↔ e.rank < 2)) ∧ (e.rank < 2 → (e.kind ≠ some .regex ↔ e.rank = 0)) := by
    intro e
    rw [LocationQueue.rank]
    rcases e.kind with _ | (_ | _ | _ | _ | _) <;> simp
  have hsorted : (queueSort cmpLocations locations).Pairwise (fun x y => x.rank ≤ y.rank) :=
    (queueSort_sorted cmpLocations_gt_iff locations).imp rank_le_of_key_le
  have hnamed : ((queueSort cmpLocations locations).filter (fun e => e.kind ≠ some .noname)).Pairwise
      (fun x y => x.rank ≤ y.rank ∧ y.rank < 3) :=
    (hsorted.sublist List.filter_sublist).imp_of_mem
      (fun _ hy hle => ⟨hle,(hrank _).1.mp (by simpa using List.of_mem_filter hy)⟩)
  have hregex : (((queueSort cmpLocations locations).filter (fun e => e.kind ≠ some .noname)).filter
      (fun e => e.kind ≠ some .named)).Pairwise (fun x y => x.rank ≤ y.rank ∧ y.rank < 2) :=
    (hnamed.sublist List.filter_sublist).imp_of_mem
      (fun _ hy hle => ⟨hle.1,((hrank _).2.1 hle.2).mp (by simpa using List.of_mem_filter hy)⟩)
  rw [initLocations,takeWhile_eq_filter_of_sorted hsorted,takeWhile_eq_filter_of_sorted hnamed,
    takeWhile_eq_filter_of_sorted hregex,List.filter_filter,List.filter_filter]
  · apply List.filter_congr
    intro e _
    have := hrank e
    grind
  all_goals
    intro x y hle hy
    have := hrank x
    have := hrank y
    grind

/-- An element holds locations of its own name, each in the place for its kind. -/
structure LocationQueue.Valid (e : LocationQueue α) : Prop where
  exact : ∀ c, e.exact = some c → c.kind = .exact ∧ c.name = e.name
  inclusive : ∀ c, e.inclusive = some c → c.kind = .inclusive ∧ c.name = e.name
  some : e.exact ≠ none ∨ e.inclusive ≠ none

def Ordered (a b : LocationQueue α) : Prop :=
  a.name < b.name ∨ a.name = b.name ∧ (a.inclusive ≠ none → b.exact = none)

/-- No two elements hold locations of one name and kind. -/
def Distinct (a b : LocationQueue α) : Prop :=
  a.name = b.name → (a.exact = none ∨ b.exact = none) ∧ (a.inclusive = none ∨ b.inclusive = none)

def LocationQueue.held (e : LocationQueue α) : List (CoreLocConf α) := e.exact.toList ++ e.inclusive.toList

theorem Ordered.le {a b : LocationQueue α} (h : Ordered a b) : a.name ≤ b.name :=
  h.elim le_of_lt (fun h => h.1.le)

section
variable {lq lx : LocationQueue α} {rest : List (LocationQueue α)}

theorem exact_first (hlq : lq.Valid) (hlx : lx.Valid) (hname : lq.name = lx.name) (hle : Ordered lq lx)
    (hdup : ¬ ((lq.exact.isSome && lx.exact.isSome) || (lq.inclusive.isSome && lx.inclusive.isSome)) = true) :
    lq.inclusive = none ∧ lx.exact = none := by
  have hor := hle.resolve_left (fun h => absurd hname h.ne)
  simp only [Bool.or_eq_true,Bool.and_eq_true,Option.isSome_iff_ne_none,not_or,not_and] at hdup
  by_cases hincl : lq.inclusive = none
  · refine ⟨hincl,?_⟩
    by_contra hexact
    exact hdup.1 (hlq.some.resolve_right (fun h => h hincl)) hexact
  · have hexact := hor.2 hincl
    exact absurd (hlx.some.resolve_left (fun h => h hexact)) (hdup.2 hincl)

/-- The joined queue: one element for each name, with the same locations. -/
structure Joined (lq : LocationQueue α) (rest joined : List (LocationQueue α)) : Prop where
  sorted : joined.Pairwise (fun a b => a.name < b.name)
  valid : ∀ e ∈ joined, e.Valid ∧ lq.name ≤ e.name
  held : ∀ c, c ∈ joined.flatMap LocationQueue.held ↔ c ∈ (lq :: rest).flatMap LocationQueue.held

theorem Joined.merge (hincl : lq.inclusive = none) (hexact : lx.exact = none)
    {joined : List (LocationQueue α)} (h : Joined { lq with inclusive := lx.inclusive } rest joined) :
    Joined lq (lx :: rest) joined where
  sorted := h.sorted
  valid := h.valid
  held c := by
    rw [h.held]
    simp [LocationQueue.held,hincl,hexact]

theorem Joined.cons (hlq : lq.Valid) (hlt : lq.name < lx.name) {joined : List (LocationQueue α)}
    (h : Joined lx rest joined) : Joined lq (lx :: rest) (lq :: joined) where
  sorted := List.pairwise_cons.mpr ⟨fun e he => lt_of_lt_of_le hlt (h.valid e he).2,h.sorted⟩
  valid := by
    intro e he
    rcases List.mem_cons.mp he with rfl | he
    · exact ⟨hlq,le_rfl⟩
    · exact ⟨(h.valid e he).1,(lt_of_lt_of_le hlt (h.valid e he).2).le⟩
  held c := by
    rw [List.flatMap_cons,List.flatMap_cons,List.mem_append,List.mem_append,h.held]

theorem distinct_merge (hname : lq.name = lx.name) (hincl : lq.inclusive = none) (hexact : lx.exact = none) :
    ({ lq with inclusive := lx.inclusive } :: rest).Pairwise Distinct ↔ (lq :: lx :: rest).Pairwise Distinct := by
  have hhead : ∀ e : LocationQueue α,
      Distinct { lq with inclusive := lx.inclusive } e ↔ Distinct lq e ∧ Distinct lx e := by
    intro e
    simp only [Distinct,← hname,hincl,hexact,true_or,true_and,and_true]
    exact imp_and
  have hboth : Distinct lq lx := fun _ => ⟨.inr hexact,.inl hincl⟩
  simp only [List.pairwise_cons,List.forall_mem_cons,hhead,forall₂_and,hboth,true_and,and_assoc]

/-- Joining fails exactly on a name that is declared twice for one kind. -/
theorem joinExactLocations_spec (hnul : ∀ e ∈ lq :: rest, 0 ∉ e.name) (hlq : lq.Valid) (hrest : ∀ e ∈ rest, e.Valid)
    (hsorted : (lq :: rest).Pairwise Ordered) :
    match joinExactLocations lq rest with
    | none => ¬ (lq :: rest).Pairwise Distinct
    | some joined => (lq :: rest).Pairwise Distinct ∧ Joined lq rest joined := by
  induction rest generalizing lq with
  | nil => exact ⟨List.pairwise_singleton _ _,List.pairwise_singleton _ _,by simp [hlq],by simp⟩
  | cons lx rest ih =>
    obtain ⟨hle,hsorted'⟩ := List.pairwise_cons.mp hsorted
    obtain ⟨hlx,hrest'⟩ := List.forall_mem_cons.mp hrest
    obtain ⟨hnlq,hnul'⟩ := List.forall_mem_cons.mp hnul
    have hstrcmp : strcmp lq.name lx.name = .eq ↔ lq.name = lx.name := by
      rw [strcmp,order_eq_iff,cString_of_notMem hnlq,cString_of_notMem (hnul' lx List.mem_cons_self)]
    rw [joinExactLocations]
    by_cases hname : lq.name = lx.name
    · rw [if_pos (hstrcmp.mpr hname)]
      split_ifs with hdup
      · intro hdistinct
        have := (List.pairwise_cons.mp hdistinct).1 lx List.mem_cons_self hname
        simp only [Bool.or_eq_true,Bool.and_eq_true,Option.isSome_iff_ne_none] at hdup
        tauto
      · obtain ⟨hincl,hexact⟩ := exact_first hlq hlx hname (hle lx List.mem_cons_self) hdup
        have hvalid : ({ lq with inclusive := lx.inclusive } : LocationQueue α).Valid :=
          ⟨hlq.exact,fun c hc => hname ▸ hlx.inclusive c hc,.inl (hlq.some.resolve_right (fun h => h hincl))⟩
        have hordered : ({ lq with inclusive := lx.inclusive } :: rest : List (LocationQueue α)).Pairwise Ordered := by
          obtain ⟨hlater,hsorted''⟩ := List.pairwise_cons.mp hsorted'
          exact List.pairwise_cons.mpr ⟨fun e he => by simpa [Ordered,hname] using hlater e he,hsorted''⟩
        have hnul'' : ∀ e ∈ ({ lq with inclusive := lx.inclusive } :: rest : List (LocationQueue α)), 0 ∉ e.name :=
          List.forall_mem_cons.mpr ⟨hnlq,fun e he => hnul' e (List.mem_cons_of_mem _ he)⟩
        have hgo := ih hnul'' hvalid hrest' hordered
        rw [distinct_merge hname hincl hexact] at hgo
        cases hjoin : joinExactLocations { lq with inclusive := lx.inclusive } rest with
        | none =>
          rw [hjoin] at hgo
          exact hgo
        | some joined =>
          rw [hjoin] at hgo
          exact ⟨hgo.1,hgo.2.merge hincl hexact⟩
    · rw [if_neg (fun h => hname (hstrcmp.mp h))]
      have hlt : lq.name < lx.name := lt_of_le_of_ne (hle lx List.mem_cons_self).le hname
      have hapart : ∀ e ∈ lx :: rest, Distinct lq e := by
        intro e he heq
        have hlxe : lx.name ≤ e.name := by
          rcases List.mem_cons.mp he with rfl | he
          · exact le_rfl
          · exact ((List.pairwise_cons.mp hsorted').1 e he).le
        exact absurd heq (lt_of_lt_of_le hlt hlxe).ne
      have hgo := ih hnul' hlx hrest' hsorted'
      cases hjoin : joinExactLocations lx rest with
      | none =>
        rw [hjoin] at hgo
        exact fun h => hgo (List.pairwise_cons.mp h).2
      | some joined =>
        rw [hjoin] at hgo
        exact ⟨List.pairwise_cons.mpr ⟨hapart,hgo.1⟩,hgo.2.cons hlq hlt⟩

end

/-- A request for the uri would be redirected to this location. -/
def CoreLocConf.RedirectFor (clcf : CoreLocConf α) (uri : Bytes) : Prop :=
  clcf.Static ∧ clcf.autoRedirect = true ∧ ∃ b, clcf.name = uri ++ [b]

/-- The location a request is for, as the configuration means it: the exact one of
that name, the inclusive one of that name, a redirect to the name with one byte
more, or the inclusive one with the longest name in front of the uri. -/
inductive Chosen (locs : List (CoreLocConf α)) (uri : Bytes) : LocationRc × Option (CoreLocConf α) → Prop where
  | exact {c : CoreLocConf α} (hc : c ∈ locs) (hkind : c.kind = .exact) (hname : c.name = uri) :
      Chosen locs uri (.ok,some c)
  | inclusive {c : CoreLocConf α} (hno : ∀ d ∈ locs, d.kind = .exact → d.name ≠ uri) (hc : c ∈ locs)
      (hkind : c.kind = .inclusive) (hname : c.name = uri) : Chosen locs uri (.again,some c)
  | redirect {c d : CoreLocConf α} (hno : ∀ d ∈ locs, d.Static → d.name ≠ uri) (hd : d ∈ locs)
      (hredirect : d.RedirectFor uri) (hc : c ∈ locs) (hstatic : c.Static) (hname : c.name = d.name)
      (hkind : c.kind = .inclusive → ∀ e ∈ locs, e.kind = .exact → e.name ≠ c.name) : Chosen locs uri (.done,some c)
  | longest {c : CoreLocConf α} (hno : ∀ d ∈ locs, d.Static → d.name ≠ uri)
      (hredirect : ∀ d ∈ locs, ¬ d.RedirectFor uri) (hc : c ∈ locs) (hkind : c.kind = .inclusive)
        (hpre : c.name <+: uri)
      (hlongest : ∀ d ∈ locs, d.kind = .inclusive → d.name <+: uri → d.name.length ≤ c.name.length) :
      Chosen locs uri (.again,some c)
  | declined (hno : ∀ d ∈ locs, d.Static → d.name ≠ uri) (hredirect : ∀ d ∈ locs, ¬ d.RedirectFor uri)
      (hpre : ∀ d ∈ locs, d.kind = .inclusive → ¬ d.name <+: uri) : Chosen locs uri (.declined,none)

/-- Where no location has the uri for its name, one that is redirected to comes
first among those whose names extend it. -/
def RedirectLeads (locs : List (CoreLocConf α)) (uri : Bytes) : Prop :=
  (∀ c ∈ locs, c.Static → c.name ≠ uri) → ∀ d ∈ locs, d.RedirectFor uri → ∀ e ∈ locs, e.Static → uri <+: e.name →
    d.name ≤ e.name

section
variable {locs : List (CoreLocConf α)} {queue : List (LocationQueue α)} (hvalid : ∀ e ∈ queue, e.Valid)
  (hheld : ∀ c, c ∈ queue.flatMap LocationQueue.held ↔ c ∈ locs ∧ c.Static)
include hvalid hheld

theorem exact_iff (c : CoreLocConf α) :
    (∃ e ∈ queue, e.exact = some c ∧ e.name = c.name) ↔ c ∈ locs ∧ c.kind = .exact := by
  constructor
  · rintro ⟨e,he,hc,hname⟩
    have hmem := (hheld c).mp (List.mem_flatMap.mpr ⟨e,he,by simp [LocationQueue.held,hc]⟩)
    exact ⟨hmem.1,((hvalid e he).exact c hc).1⟩
  · rintro ⟨hc,hkind⟩
    obtain ⟨e,he,hmem⟩ := List.mem_flatMap.mp ((hheld c).mpr ⟨hc,.inl hkind⟩)
    rcases List.mem_append.mp hmem with hmem | hmem
    · have hexact := Option.mem_toList.mp hmem
      exact ⟨e,he,hexact,((hvalid e he).exact c hexact).2.symm⟩
    · have := ((hvalid e he).inclusive c (Option.mem_toList.mp hmem)).1
      rw [hkind] at this
      exact absurd this (by decide)

theorem inclusive_iff (c : CoreLocConf α) :
    (∃ e ∈ queue, e.inclusive = some c ∧ e.name = c.name) ↔ c ∈ locs ∧ c.kind = .inclusive := by
  constructor
  · rintro ⟨e,he,hc,hname⟩
    have hmem := (hheld c).mp (List.mem_flatMap.mpr ⟨e,he,by simp [LocationQueue.held,hc]⟩)
    exact ⟨hmem.1,((hvalid e he).inclusive c hc).1⟩
  · rintro ⟨hc,hkind⟩
    obtain ⟨e,he,hmem⟩ := List.mem_flatMap.mp ((hheld c).mpr ⟨hc,.inr hkind⟩)
    rcases List.mem_append.mp hmem with hmem | hmem
    · have := ((hvalid e he).exact c (Option.mem_toList.mp hmem)).1
      rw [hkind] at this
      exact absurd this (by decide)
    · have hincl := Option.mem_toList.mp hmem
      exact ⟨e,he,hincl,((hvalid e he).inclusive c hincl).2.symm⟩

theorem name_iff (u : Bytes) : (∃ e ∈ queue, e.name = u) ↔ ∃ c ∈ locs, c.Static ∧ c.name = u := by
  constructor
  · rintro ⟨e,he,rfl⟩
    rcases (hvalid e he).some with h | h
    · obtain ⟨c,hc⟩ := Option.ne_none_iff_exists'.mp h
      have hname := ((hvalid e he).exact c hc).2
      obtain ⟨hmem,hkind⟩ := (exact_iff hvalid hheld c).mp ⟨e,he,hc,hname.symm⟩
      exact ⟨c,hmem,.inl hkind,hname⟩
    · obtain ⟨c,hc⟩ := Option.ne_none_iff_exists'.mp h
      have hname := ((hvalid e he).inclusive c hc).2
      obtain ⟨hmem,hkind⟩ := (inclusive_iff hvalid hheld c).mp ⟨e,he,hc,hname.symm⟩
      exact ⟨c,hmem,.inr hkind,hname⟩
  · rintro ⟨c,hc,hstatic,rfl⟩
    rcases hstatic with hkind | hkind
    · obtain ⟨e,he,-,hname⟩ := (exact_iff hvalid hheld c).mpr ⟨hc,hkind⟩
      exact ⟨e,he,hname⟩
    · obtain ⟨e,he,-,hname⟩ := (inclusive_iff hvalid hheld c).mpr ⟨hc,hkind⟩
      exact ⟨e,he,hname⟩

theorem redirects_iff (u uri : Bytes) :
    (∃ e ∈ queue, e.name = u ∧ Redirects e uri) ↔ ∃ c ∈ locs, c.RedirectFor uri ∧ c.name = u := by
  constructor
  · rintro ⟨e,he,rfl,⟨b,hb⟩,hauto⟩
    rcases Bool.or_eq_true_iff.mp hauto with h | h
    · obtain ⟨c,hc,hr⟩ := (Option.any_eq_true _ _).mp h
      have hname := ((hvalid e he).exact c hc).2
      obtain ⟨hmem,hkind⟩ := (exact_iff hvalid hheld c).mp ⟨e,he,hc,hname.symm⟩
      exact ⟨c,hmem,⟨.inl hkind,hr,b,hname.trans hb⟩,hname⟩
    · obtain ⟨c,hc,hr⟩ := (Option.any_eq_true _ _).mp h
      have hname := ((hvalid e he).inclusive c hc).2
      obtain ⟨hmem,hkind⟩ := (inclusive_iff hvalid hheld c).mp ⟨e,he,hc,hname.symm⟩
      exact ⟨c,hmem,⟨.inr hkind,hr,b,hname.trans hb⟩,hname⟩
  · rintro ⟨c,hc,⟨hstatic,hr,hb⟩,rfl⟩
    rcases hstatic with hkind | hkind
    · obtain ⟨e,he,hexact,hname⟩ := (exact_iff hvalid hheld c).mpr ⟨hc,hkind⟩
      exact ⟨e,he,hname,hname ▸ hb,by simp [hexact,hr]⟩
    · obtain ⟨e,he,hincl,hname⟩ := (inclusive_iff hvalid hheld c).mpr ⟨hc,hkind⟩
      exact ⟨e,he,hname,hname ▸ hb,by simp [hincl,hr]⟩

end

theorem Best.chosen {locs : List (CoreLocConf α)} {queue : List (LocationQueue α)}
    (hsorted : queue.Pairwise (fun a b => a.name < b.name)) (hvalid : ∀ e ∈ queue, e.Valid)
    (hheld : ∀ c, c ∈ queue.flatMap LocationQueue.held ↔ c ∈ locs ∧ c.Static) {uri : Bytes}
    {out : LocationRc × Option (CoreLocConf α)} (h : Best queue uri (.declined,none) out) : Chosen locs uri out := by
  have hno : (∀ e ∈ queue, e.name ≠ uri) → ∀ d ∈ locs, d.Static → d.name ≠ uri := by
    intro hno d hd hstatic hname
    obtain ⟨e,he,heq⟩ := (name_iff hvalid hheld uri).mpr ⟨d,hd,hstatic,hname⟩
    exact hno e he heq
  have hredirect : (∀ e ∈ queue, ¬ Redirects e uri) → ∀ d ∈ locs, ¬ d.RedirectFor uri := by
    intro hr d hd hfor
    obtain ⟨e,he,-,heq⟩ := (redirects_iff hvalid hheld d.name uri).mpr ⟨d,hd,hfor,rfl⟩
    exact hr e he heq
  have hnodup : (queue.map LocationQueue.name).Nodup := by
    rw [List.nodup_iff_pairwise_ne,List.pairwise_map]
    exact hsorted.imp (fun h => h.ne)
  -- an element without an exact location has no namesake that is exact
  have hnoexact : ∀ e ∈ queue, e.exact = none → ∀ d ∈ locs, d.kind = .exact → d.name ≠ e.name := by
    intro e he hexact d hd hkind hname
    obtain ⟨f,hf,hfd,hfname⟩ := (exact_iff hvalid hheld d).mpr ⟨hd,hkind⟩
    rw [List.inj_on_of_nodup_map hnodup hf he (hfname.trans hname),hexact] at hfd
    exact absurd hfd.symm (Option.some_ne_none d)
  cases h with
  | @exact e c he hname hexact =>
    have hcname := ((hvalid e he).exact c hexact).2
    obtain ⟨hc,hkind⟩ := (exact_iff hvalid hheld c).mp ⟨e,he,hexact,hcname.symm⟩
    exact .exact hc hkind (hcname.trans hname)
  | @inclusive e he hname hexact =>
    obtain ⟨c,hclcf⟩ := Option.ne_none_iff_exists'.mp ((hvalid e he).some.resolve_left (fun h => h hexact))
    have hcname := ((hvalid e he).inclusive c hclcf).2
    obtain ⟨hc,hkind⟩ := (inclusive_iff hvalid hheld c).mp ⟨e,he,hclcf,hcname.symm⟩
    rw [hclcf]
    exact .inclusive (hname ▸ hnoexact e he hexact) hc hkind (hcname.trans hname)
  | @redirect e hno' he hr =>
    obtain ⟨d,hd,hfor,hdname⟩ := (redirects_iff hvalid hheld e.name uri).mp ⟨e,he,rfl,hr⟩
    cases hexact : e.exact with
    | some c =>
      have hcname := ((hvalid e he).exact c hexact).2
      obtain ⟨hc,hkind⟩ := (exact_iff hvalid hheld c).mp ⟨e,he,hexact,hcname.symm⟩
      exact .redirect (hno hno') hd hfor hc (.inl hkind) (hcname.trans hdname.symm)
        (fun h => absurd (hkind.symm.trans h) (by decide))
    | none =>
      obtain ⟨c,hclcf⟩ := Option.ne_none_iff_exists'.mp ((hvalid e he).some.resolve_left (fun h => h hexact))
      have hcname := ((hvalid e he).inclusive c hclcf).2
      obtain ⟨hc,hkind⟩ := (inclusive_iff hvalid hheld c).mp ⟨e,he,hclcf,hcname.symm⟩
      rw [hclcf]
      exact .redirect (hno hno') hd hfor hc (.inr hkind) (hcname.trans hdname.symm)
        (fun _ => hcname ▸ hnoexact e he hexact)
  | @longest e c hno' hr he hclcf hpre hlongest =>
    have hcname := ((hvalid e he).inclusive c hclcf).2
    obtain ⟨hc,hkind⟩ := (inclusive_iff hvalid hheld c).mp ⟨e,he,hclcf,hcname.symm⟩
    refine .longest (hno hno') (hredirect hr) hc hkind (hcname ▸ hpre) (fun d hd hdkind hdpre => ?_)
    obtain ⟨f,hf,hfd,hfname⟩ := (inclusive_iff hvalid hheld d).mpr ⟨hd,hdkind⟩
    rw [hcname,← hfname]
    exact hlongest f hf (by simp [hfd]) (hfname ▸ hdpre)
  | declined hno' hr hpre =>
    refine .declined (hno hno') (hredirect hr) (fun d hd hdkind hdpre => ?_)
    obtain ⟨f,hf,hfd,hfname⟩ := (inclusive_iff hvalid hheld d).mpr ⟨hd,hdkind⟩
    exact hpre f hf (by simp [hfd]) (hfname ▸ hdpre)

theorem queued_valid {c : CoreLocConf α} (hc : c.Static) :
    c.queued.Valid ∧ c.queued.held = [c] ∧ (c.queued.exact = none ↔ c.kind = .inclusive) ∧
      (c.queued.inclusive = none ↔ c.kind = .exact) := by
  rw [CoreLocConf.queued]
  rcases hc with hkind | hkind
  · simp only [hkind,LocationQueue.held]
    exact ⟨⟨by simp [hkind],by simp,by simp⟩,by simp,by simp,by simp⟩
  · simp only [hkind,LocationQueue.held]
    exact ⟨⟨by simp,by simp [hkind],by simp⟩,by simp,by simp,by simp⟩

theorem ordered_of_key_le {c d : CoreLocConf α} (hc : c.Static) (hd : d.Static) (hcnul : 0 ∉ c.name)
    (hdnul : 0 ∉ d.name)
    (h : c.queued.key ≤ d.queued.key) : Ordered c.queued d.queued := by
  obtain ⟨-,-,-,hcincl⟩ := queued_valid hc
  obtain ⟨-,-,hdexact,-⟩ := queued_valid hd
  rw [Ordered,ne_eq,hcincl,hdexact,queued_name,queued_name]
  rw [LocationQueue.key,LocationQueue.key,(rank_queued c).mpr hc,(rank_queued d).mpr hd,queued_kind,queued_kind,
    queued_name,
    queued_name,cString_of_notMem hcnul,cString_of_notMem hdnul,Prod.Lex.toLex_le_toLex] at h
  have h := (h.resolve_left (lt_irrefl _)).2
  rcases hc with hc | hc <;> rcases hd with hd | hd <;>
    simpa [hc,hd,Prod.Lex.toLex_le_toLex] using h

/-- Each static name is declared at most once for each kind. -/
def Declares (locs : List (CoreLocConf α)) : Prop :=
  locs.Pairwise (fun a b => a.Static → a.kind = b.kind → a.name ≠ b.name)

theorem statics_spec (locs : List (CoreLocConf α)) (hnul : ∀ c ∈ locs, c.Static → 0 ∉ c.name) :
    let queue := initLocations (locs.foldl addLocation [])
    (∀ e ∈ queue, ∃ c ∈ locs, c.Static ∧ e = c.queued) ∧ queue.Pairwise Ordered ∧
      (queue.Pairwise Distinct ↔ Declares locs) ∧
      ∀ c, c ∈ queue.flatMap LocationQueue.held ↔ c ∈ locs ∧ c.Static := by
  intro queue
  have hqueue : queue = (queueSort cmpLocations (locs.map CoreLocConf.queued)).filter (fun e => e.rank = 0) := by
    rw [← foldl_addLocation]
    exact initLocations_eq _
  have hperm : queue.Perm ((locs.filter (fun c => c.queued.rank = 0)).map CoreLocConf.queued) := by
    rw [hqueue]
    refine ((queueSort_perm _).filter _).trans ?_
    rw [List.filter_map]
    exact List.Perm.refl _
  have hmem : ∀ e, e ∈ queue ↔ ∃ c ∈ locs, c.Static ∧ e = c.queued := by
    intro e
    rw [hperm.mem_iff,List.mem_map]
    constructor
    · rintro ⟨c,hc,rfl⟩
      obtain ⟨hin,hrank⟩ := List.mem_filter.mp hc
      exact ⟨c,hin,(rank_queued c).mp (by simpa using hrank),rfl⟩
    · rintro ⟨c,hin,hc,rfl⟩
      exact ⟨c,List.mem_filter.mpr ⟨hin,by simpa using (rank_queued c).mpr hc⟩,rfl⟩
  refine ⟨fun e he => (hmem e).mp he,?_,?_,fun c => ?_⟩
  · have hkeys : queue.Pairwise (fun a b => a.key ≤ b.key) := by
      rw [hqueue]
      exact (queueSort_sorted cmpLocations_gt_iff _).sublist List.filter_sublist
    refine hkeys.imp_of_mem (fun ha hb hle => ?_)
    obtain ⟨c,hc,hcs,rfl⟩ := (hmem _).mp ha
    obtain ⟨d,hd,hds,rfl⟩ := (hmem _).mp hb
    exact ordered_of_key_le hcs hds (hnul c hc hcs) (hnul d hd hds) hle
  · have hsymm : ∀ {a b : LocationQueue α}, Distinct a b → Distinct b a := by
      intro a b h hname
      obtain ⟨hexact,hincl⟩ := h hname.symm
      exact ⟨hexact.symm,hincl.symm⟩
    rw [hperm.pairwise_iff hsymm,List.pairwise_map,List.pairwise_filter,Declares]
    refine List.Pairwise.iff (fun c d => ?_)
    simp only [decide_eq_true_eq,rank_queued]
    constructor
    · intro h hcs hkind hname
      have hds : d.Static := by rwa [CoreLocConf.Static,← hkind]
      have := h hcs hds (by rw [queued_name,queued_name,hname])
      rw [(queued_valid hcs).2.2.1,(queued_valid hds).2.2.1,(queued_valid hcs).2.2.2,(queued_valid hds).2.2.2,
        hkind] at this
      obtain ⟨hincl,hexact⟩ := this
      exact absurd (hincl.elim id id ▸ hexact.elim id id) (by decide)
    · intro h hcs hds hname
      rw [queued_name,queued_name] at hname
      have hkind : c.kind ≠ d.kind := fun hkind => h hcs hkind hname
      rw [(queued_valid hcs).2.2.1,(queued_valid hds).2.2.1,(queued_valid hcs).2.2.2,(queued_valid hds).2.2.2]
      rcases hcs with hc | hc <;> rcases hds with hd | hd <;> simp_all
  · rw [List.mem_flatMap]
    constructor
    · rintro ⟨e,he,hc⟩
      obtain ⟨d,hd,hds,rfl⟩ := (hmem e).mp he
      rw [(queued_valid hds).2.1,List.mem_singleton] at hc
      exact hc ▸ ⟨hd,hds⟩
    · rintro ⟨hc,hcs⟩
      exact ⟨c.queued,(hmem _).mpr ⟨c,hc,hcs,rfl⟩,by rw [(queued_valid hcs).2.1]; exact List.mem_singleton_self c⟩

/-- Two declarations of one static name and kind are refused. Otherwise the tree
leads every uri to the location that is meant, as long as a redirect comes first
among the names that extend a uri without a location of its own. -/
theorem static_locations_found (locs : List (CoreLocConf α)) (hnul : ∀ c ∈ locs, c.Static → 0 ∉ c.name)
    (hlen : ∀ c ∈ locs, c.Static → c.name.length < 256) :
    (¬ Declares locs → initStaticLocationTrees locs = none) ∧
    (Declares locs → ∃ tree, initStaticLocationTrees locs = some tree ∧
      ∀ uri, RedirectLeads locs uri → Chosen locs uri (findStaticLocation tree uri (.declined,none))) := by
  obtain ⟨hstatic,hordered,hdistinct,hheld⟩ := statics_spec locs hnul
  rw [initStaticLocationTrees]
  cases hqueue : initLocations (locs.foldl addLocation []) with
  | nil =>
    rw [hqueue] at hdistinct hheld
    refine ⟨fun h => absurd (hdistinct.mp .nil) h,fun _ => ⟨_,rfl,fun uri _ => ?_⟩⟩
    have hnone : ∀ d ∈ locs, ¬ d.Static := fun d hd hs => absurd ((hheld d).mpr ⟨hd,hs⟩) (by simp)
    exact .declined (fun d hd hs => absurd hs (hnone d hd)) (fun d hd hr => hnone d hd hr.1)
      (fun d hd hk => absurd (.inr hk) (hnone d hd))
  | cons lq rest =>
    rw [hqueue] at hstatic hordered hdistinct hheld
    have hvalid : ∀ e ∈ lq :: rest, e.Valid ∧ 0 ∉ e.name ∧ e.name.length < 256 := by
      intro e he
      obtain ⟨c,hc,hcs,rfl⟩ := hstatic e he
      rw [queued_name]
      exact ⟨(queued_valid hcs).1,hnul c hc hcs,hlen c hc hcs⟩
    have hjoin := joinExactLocations_spec (fun e he => (hvalid e he).2.1) (hvalid lq List.mem_cons_self).1
      (fun e he => (hvalid e (List.mem_cons_of_mem _ he)).1) hordered
    simp only
    cases hcase : joinExactLocations lq rest with
    | none =>
      rw [hcase,hdistinct] at hjoin
      exact ⟨fun _ => rfl,fun h => absurd h hjoin⟩
    | some joined =>
      rw [hcase,hdistinct] at hjoin
      obtain ⟨hdecl,hjoined⟩ := hjoin
      refine ⟨fun h => absurd hdecl h,fun _ => ⟨_,rfl,fun uri hleads => ?_⟩⟩
      have hv : ∀ e ∈ joined, e.Valid := fun e he => (hjoined.valid e he).1
      have hh : ∀ c, c ∈ joined.flatMap LocationQueue.held ↔ c ∈ locs ∧ c.Static :=
        fun c => (hjoined.held c).trans (hheld c)
      have hnames : ∀ e ∈ joined, 0 ∉ e.name ∧ e.name.length < 256 := by
        intro e he
        obtain ⟨c,hc,hcs,hname⟩ := (name_iff hv hh e.name).mp ⟨e,he,rfl⟩
        rw [← hname]
        exact ⟨hnul c hc hcs,hlen c hc hcs⟩
      have hqleads : Leads joined uri := by
        intro hno d hd hr e he hpre
        have hno' : ∀ c ∈ locs, c.Static → c.name ≠ uri := fun c hc hcs heq => by
          obtain ⟨e,he,hname⟩ := (name_iff hv hh uri).mpr ⟨c,hc,hcs,heq⟩
          exact hno e he hname
        obtain ⟨c,hc,hfor,hcname⟩ := (redirects_iff hv hh d.name uri).mp ⟨d,hd,rfl,hr⟩
        obtain ⟨f,hf,hfs,hfname⟩ := (name_iff hv hh e.name).mp ⟨e,he,rfl⟩
        rw [← hcname,← hfname]
        exact hleads hno' c hc hfor f hf hfs (hfname ▸ hpre)
      have hforest := createLocationsList_forest hjoined.sorted (fun e he => (hnames e he).1) le_rfl
      have hbest : Best joined ([] ++ uri) (.declined,none) (findStaticLocation (createLocationsTree joined.length
          (createLocationsList joined.length joined) ([] : Bytes).length) uri (.declined,none)) :=
        findStaticLocation_best hforest hjoined.sorted (fun e _ => List.nil_prefix) (fun e he => (hnames e he).2) le_rfl
          hqleads _
      exact hbest.chosen hjoined.sorted hv hh

/-- The two locations of the module beside a prefix that one of them extends, and
one that requests are redirected to. -/
def sampleLocations : List (CoreLocConf Nat) :=
  [⟨bytes "/view",.inclusive,false,1⟩,⟨bytes "/",.inclusive,false,0⟩,⟨bytes "/recommend",.exact,false,2⟩,
    ⟨bytes "/img/",.inclusive,true,3⟩]

theorem static_locations_found_sample : ∃ tree, initStaticLocationTrees sampleLocations = some tree ∧
    Chosen sampleLocations (bytes "/view/x") (findStaticLocation tree (bytes "/view/x") (.declined,none)) ∧
    Chosen sampleLocations (bytes "/img") (findStaticLocation tree (bytes "/img") (.declined,none)) ∧
    (findStaticLocation tree (bytes "/img") (.declined,none)).1 = .done := by
  have hdecl : Declares sampleLocations := by
    simp [Declares,sampleLocations,bytes]
  have hall : ∀ c ∈ sampleLocations, 0 ∉ c.name ∧ c.name.length < 256 ∧
      (c.autoRedirect = true → c.name = bytes "/img/") ∧ (bytes "/img" <+: c.name → c.name = bytes "/img/") := by
    decide
  obtain ⟨tree,htree,hfound⟩ := (static_locations_found sampleLocations (fun c hc _ => (hall c hc).1)
    (fun c hc _ => (hall c hc).2.1)).2 hdecl
  refine ⟨tree,htree,hfound _ (fun _ d hd hr => ?_),hfound _ (fun _ d hd hr e he _ hpre => ?_),?_⟩
  · obtain ⟨-,hauto,b,hb⟩ := hr
    have hlen := congrArg List.length (((hall d hd).2.2.1 hauto).symm.trans hb)
    exact absurd hlen (by simp [bytes])
  · rw [(hall d hd).2.2.1 hr.2.1,(hall e he).2.2.2 hpre]
  · obtain rfl := Option.some.inj htree
    decide

end

end Aret.Http
