import Aret.Http.Locations

/-! The location tree finds what a search of the plain list would: the location of
that very name, or else the one with the longest name in front of the uri. The
names below an inclusive location sit in a tree of their own, so that among
siblings a search tree over the names is enough. -/
namespace Aret.Http
open Lib

section
variable {α : Type}

/-- `list` holds the names that extend that of an inclusive location, and no later
sibling does. -/
inductive Forest : List (LocationQueue α) → List (LocationList α) → Prop where
  | nil : Forest [] []
  | cons {lq : LocationQueue α} {inner rest : List (LocationQueue α)} {list siblings : List (LocationList α)}
      (hlist : Forest inner list) (hsiblings : Forest rest siblings) (hinner : ∀ e ∈ inner, lq.name <+: e.name)
      (hexact : lq.inclusive = none → inner = []) (hrest : lq.inclusive ≠ none → ∀ e ∈ rest, ¬ lq.name <+: e.name) :
      Forest (lq :: (inner ++ rest)) (.mk lq list :: siblings)

structure Split (front : List (LocationQueue α)) (lq : LocationQueue α)
    (inner back : List (LocationQueue α)) : Prop where
  before : ∀ e ∈ front, e.inclusive ≠ none → ¬ e.name <+: lq.name
  under : ∀ e ∈ inner, lq.name <+: e.name
  alone : lq.inclusive = none → inner = []
  behind : lq.inclusive ≠ none → ∀ e ∈ back, ¬ lq.name <+: e.name

theorem Forest.split {locations : List (LocationQueue α)} {forest : List (LocationList α)} (h : Forest locations forest)
    {i : Nat} {lq : LocationQueue α} {list : List (LocationList α)} (hi : forest[i]? = some (.mk lq list)) :
    ∃ front inner back, locations = front ++ lq :: (inner ++ back) ∧ Forest front (forest.take i) ∧ Forest inner list ∧
      Forest back (forest.drop (i + 1)) ∧ Split front lq inner back := by
  induction h generalizing i with
  | nil => simp at hi
  | @cons lq₀ inner₀ rest list₀ siblings hlist hsiblings hinner hexact hrest ihlist ih =>
    cases i with
    | zero =>
      obtain ⟨rfl,rfl⟩ : lq₀ = lq ∧ list₀ = list := by simpa using hi
      exact ⟨[],inner₀,rest,rfl,.nil,hlist,hsiblings,fun e he => absurd he List.not_mem_nil,hinner,hexact,hrest⟩
    | succ i =>
      obtain ⟨front,inner,back,rfl,hfront,hin,hback,hsplit⟩ := ih (by simpa using hi)
      have hlater : lq₀.inclusive ≠ none → ¬ lq₀.name <+: lq.name := fun h => hrest h lq (by simp)
      refine ⟨lq₀ :: (inner₀ ++ front),inner,back,by simp,?_,hin,hback,?_,hsplit.under,hsplit.alone,hsplit.behind⟩
      · exact .cons hlist hfront hinner hexact (fun h e he => hrest h e (by simp [he]))
      · intro e he hincl hpre
        rcases List.mem_cons.mp he with rfl | he
        · exact hlater hincl hpre
        · rcases List.mem_append.mp he with he | he
          · -- below an earlier sibling, which is then in front of `lq` too
            have hne : lq₀.inclusive ≠ none := fun h => by simp [hexact h] at he
            exact hlater hne ((hinner e he).trans hpre)
          · exact hsplit.before e he hincl hpre

/-- The name of the element is the uri with one byte more, and a request for the
uri is redirected to it. -/
def Redirects (e : LocationQueue α) (uri : Bytes) : Prop :=
  (∃ b, e.name = uri ++ [b]) ∧
    (e.exact.any CoreLocConf.autoRedirect || e.inclusive.any CoreLocConf.autoRedirect) = true

/-- What a search of the plain list gives, `st` where nothing is found. -/
inductive Best (locations : List (LocationQueue α)) (uri : Bytes) (st : LocationRc × Option (CoreLocConf α)) :
    LocationRc × Option (CoreLocConf α) → Prop where
  | exact {e : LocationQueue α} {clcf : CoreLocConf α} (he : e ∈ locations) (hname : e.name = uri)
      (hexact : e.exact = some clcf) : Best locations uri st (.ok,some clcf)
  | inclusive {e : LocationQueue α} (he : e ∈ locations) (hname : e.name = uri) (hexact : e.exact = none) :
      Best locations uri st (.again,e.inclusive)
  | redirect {e : LocationQueue α} (hno : ∀ e ∈ locations, e.name ≠ uri) (he : e ∈ locations) (hr : Redirects e uri) :
      Best locations uri st (.done,e.exact <|> e.inclusive)
  | longest {e : LocationQueue α} {clcf : CoreLocConf α} (hno : ∀ e ∈ locations, e.name ≠ uri)
      (hr : ∀ e ∈ locations, ¬ Redirects e uri) (he : e ∈ locations) (hclcf : e.inclusive = some clcf)
      (hpre : e.name <+: uri)
      (hlongest : ∀ f ∈ locations, f.inclusive ≠ none → f.name <+: uri → f.name.length ≤ e.name.length) :
      Best locations uri st (.again,some clcf)
  | declined (hno : ∀ e ∈ locations, e.name ≠ uri) (hr : ∀ e ∈ locations, ¬ Redirects e uri)
      (hpre : ∀ e ∈ locations, e.inclusive ≠ none → ¬ e.name <+: uri) : Best locations uri st st

/-- An element that a search for the uri may pass over. -/
structure Apart (e : LocationQueue α) (uri : Bytes) : Prop where
  name : e.name ≠ uri
  inclusive : e.inclusive ≠ none → ¬ e.name <+: uri
  redirect : ¬ Redirects e uri

variable {part locations : List (LocationQueue α)} {uri : Bytes} {st out : LocationRc × Option (CoreLocConf α)}

theorem Best.of_part (hpart : ∀ e ∈ part, e ∈ locations) (hapart : ∀ e ∈ locations, e ∈ part ∨ Apart e uri)
    (h : Best part uri st out) : Best locations uri st out := by
  have hno : (∀ e ∈ part, e.name ≠ uri) → ∀ e ∈ locations, e.name ≠ uri :=
    fun hno e he => (hapart e he).elim (hno e) Apart.name
  have hredirect : (∀ e ∈ part, ¬ Redirects e uri) → ∀ e ∈ locations, ¬ Redirects e uri :=
    fun hr e he => (hapart e he).elim (hr e) Apart.redirect
  cases h with
  | exact he hname hexact => exact .exact (hpart _ he) hname hexact
  | inclusive he hname hexact => exact .inclusive (hpart _ he) hname hexact
  | redirect hno' he hr => exact .redirect (hno hno') (hpart _ he) hr
  | longest hno' hr he hclcf hpre hlongest =>
    refine .longest (hno hno') (hredirect hr) (hpart _ he) hclcf hpre (fun f hf hincl hpf => ?_)
    exact (hapart f hf).elim (fun hin => hlongest f hin hincl hpf) (fun ha => absurd hpf (ha.inclusive hincl))
  | declined hno' hr hpre =>
    refine .declined (hno hno') (hredirect hr) (fun e he hincl => ?_)
    exact (hapart e he).elim (fun hin => hpre e hin hincl) (fun ha => ha.inclusive hincl)

/-- Below an inclusive location that is in front of the uri, that location is what
is left when nothing else is found. -/
theorem Best.of_below {lq : LocationQueue α} {clcf : CoreLocConf α} (hlq : lq ∈ locations)
    (hclcf : lq.inclusive = some clcf) (hpre : lq.name <+: uri) (hne : lq.name ≠ uri)
    (hpart : ∀ e ∈ part, e ∈ locations ∧ lq.name <+: e.name)
    (hapart : ∀ e ∈ locations, e = lq ∨ e ∈ part ∨ Apart e uri) (h : Best part uri (.again,some clcf) out) :
    Best locations uri st out := by
  have hlqr : ¬ Redirects lq uri := by
    rintro ⟨⟨b,hb⟩,-⟩
    have hlen := hpre.length_le
    rw [hb,List.length_append,List.length_singleton] at hlen
    omega
  have hno : (∀ e ∈ part, e.name ≠ uri) → ∀ e ∈ locations, e.name ≠ uri := by
    intro hno e he
    rcases hapart e he with rfl | hin | ha
    · exact hne
    · exact hno e hin
    · exact ha.name
  have hredirect : (∀ e ∈ part, ¬ Redirects e uri) → ∀ e ∈ locations, ¬ Redirects e uri := by
    intro hr e he
    rcases hapart e he with rfl | hin | ha
    · exact hlqr
    · exact hr e hin
    · exact ha.redirect
  cases h with
  | exact he hname hexact => exact .exact (hpart _ he).1 hname hexact
  | inclusive he hname hexact => exact .inclusive (hpart _ he).1 hname hexact
  | redirect hno' he hr => exact .redirect (hno hno') (hpart _ he).1 hr
  | longest hno' hr he hclcf' hpre' hlongest =>
    refine .longest (hno hno') (hredirect hr) (hpart _ he).1 hclcf' hpre' (fun f hf hincl hpf => ?_)
    rcases hapart f hf with rfl | hin | ha
    · exact (hpart _ he).2.length_le
    · exact hlongest f hin hincl hpf
    · exact absurd hpf (ha.inclusive hincl)
  | declined hno' hr hpre' =>
    refine .longest (hno hno') (hredirect hr) hlq hclcf hpre (fun f hf hincl hpf => ?_)
    rcases hapart f hf with rfl | hin | ha
    · exact le_refl _
    · exact absurd hpf (hpre' f hin hincl)
    · exact absurd hpf (ha.inclusive hincl)

/-- A redirect stands unless the uri itself has a location. -/
theorem Best.of_redirect {lq : LocationQueue α} (hlq : lq ∈ locations) (hr : Redirects lq uri)
    (hpart : ∀ e ∈ part, e ∈ locations ∧ (e.inclusive ≠ none → ¬ e.name <+: uri) ∧ ¬ Redirects e uri)
    (hothers : ∀ e ∈ locations, e ∈ part ∨ e.name ≠ uri) (h : Best part uri (.done,lq.exact <|> lq.inclusive) out) :
    Best locations uri st out := by
  cases h with
  | exact he hname hexact => exact .exact (hpart _ he).1 hname hexact
  | inclusive he hname hexact => exact .inclusive (hpart _ he).1 hname hexact
  | redirect hno he hr' => exact absurd hr' (hpart _ he).2.2
  | longest hno hr' he hclcf hpre hlongest =>
    exact absurd hpre ((hpart _ he).2.1 (by rw [hclcf]; exact Option.some_ne_none _))
  | declined hno hr' hpre => exact .redirect (fun e he => (hothers e he).elim (hno e) id) hlq hr

section
variable {name : Bytes} {e : LocationQueue α}

theorem Redirects.pre (h : Redirects e uri) : uri <+: e.name := by
  obtain ⟨⟨b,hb⟩,-⟩ := h
  exact hb ▸ List.prefix_append uri [b]

theorem Redirects.ne (h : Redirects e uri) : e.name ≠ uri := by
  obtain ⟨⟨b,hb⟩,-⟩ := h
  simp [hb]

theorem apart_of_before (h : Before uri name) (hle : name ≤ e.name) : Apart e uri where
  name heq := absurd (heq ▸ hle) (not_le.mpr h.lt)
  inclusive _ hpre := absurd (prefix_le hpre) (not_le.mpr (lt_of_lt_of_le h.lt hle))
  redirect hr := absurd hle (not_le.mpr (h.lt_of_pre (.inr hr.pre) List.prefix_rfl))

theorem apart_of_extends (h : Before name uri) (hext : name <+: e.name) : Apart e uri where
  name heq := absurd (h.lt_of_pre (.inr hext) List.prefix_rfl) (by rw [heq]; exact lt_irrefl uri)
  inclusive _ hpre := absurd (h.lt_of_pre (.inr (hext.trans hpre)) List.prefix_rfl) (lt_irrefl uri)
  redirect hr := absurd (h.lt_of_pre (.inr hext) hr.pre) (lt_irrefl _)

/-- An earlier sibling, when the uri sorts behind the name. -/
theorem apart_front_of_before (h : Before name uri) (hlt : e.name < name)
    (hfront : e.inclusive ≠ none → ¬ e.name <+: name) : Apart e uri where
  name heq := absurd (heq ▸ hlt) (not_lt.mpr h.lt.le)
  inclusive hincl hpre := by
    rcases prefix_or_before e.name name with hp | hp | hb | hb
    · exact hfront hincl hp
    · exact absurd hlt (not_lt.mpr (prefix_le hp))
    · exact absurd (hb.lt_of_pre (.inr hpre) List.prefix_rfl) (not_lt.mpr h.lt.le)
    · exact absurd hlt (not_lt.mpr hb.lt.le)
  redirect hr := absurd (h.lt_of_pre (.inl List.prefix_rfl) hr.pre) (not_lt.mpr hlt.le)

/-- An earlier sibling, when the name is in front of the uri. -/
theorem apart_front_of_pre (h : name <+: uri) (hlt : e.name < name)
    (hfront : e.inclusive ≠ none → ¬ e.name <+: name) : Apart e uri where
  name heq := absurd (prefix_le (heq ▸ h)) (not_le.mpr hlt)
  inclusive hincl hpre := by
    rcases List.prefix_or_prefix_of_prefix hpre h with hp | hp
    · exact hfront hincl hp
    · exact absurd (prefix_le hp) (not_le.mpr hlt)
  redirect hr := absurd (prefix_le (h.trans hr.pre)) (not_le.mpr hlt)

/-- A later sibling, when the name is in front of the uri and not of that one. -/
theorem apart_back_of_pre (h : name <+: uri) (hlt : name < e.name) (hback : ¬ name <+: e.name) : Apart e uri where
  name heq := hback (heq ▸ h)
  inclusive _ hpre := by
    rcases List.prefix_or_prefix_of_prefix hpre h with hp | hp
    · exact absurd (prefix_le hp) (not_le.mpr hlt)
    · exact hback hp
  redirect hr := hback (h.trans hr.pre)

/-- A later name, when the uri is in front of the name. -/
theorem apart_of_longer (h : uri <+: name) (hlt : name < e.name) (hr : ¬ Redirects e uri) : Apart e uri where
  name heq := absurd (prefix_le h) (not_le.mpr (heq ▸ hlt))
  inclusive _ hpre := absurd ((prefix_le hpre).trans (prefix_le h)) (not_le.mpr hlt)
  redirect := hr

end

/-- A redirect is only looked for to the left of longer names: where nothing has
the uri for its name, it is found when it comes first among the names that extend
the uri. -/
def Leads (locations : List (LocationQueue α)) (uri : Bytes) : Prop :=
  (∀ e ∈ locations, e.name ≠ uri) → ∀ d ∈ locations, Redirects d uri → ∀ e ∈ locations, uri <+: e.name →
    d.name ≤ e.name

theorem Leads.of_part (h : Leads locations uri) (hpart : ∀ e ∈ part, e ∈ locations)
    (hnamed : ∀ e ∈ locations, e ∈ part ∨ e.name ≠ uri) : Leads part uri :=
  fun hno d hd hr e he => h (fun e he => (hnamed e he).elim (hno e) id) d (hpart d hd) hr e (hpart e he)

/-- A location of that very name is the answer whatever else is there. -/
theorem Best.of_named {st' : LocationRc × Option (CoreLocConf α)} (hpart : ∀ e ∈ part, e ∈ locations)
    {e : LocationQueue α} (he : e ∈ part) (hname : e.name = uri) (h : Best part uri st' out) :
    Best locations uri st out := by
  cases h with
  | exact he hname hexact => exact .exact (hpart _ he) hname hexact
  | inclusive he hname hexact => exact .inclusive (hpart _ he) hname hexact
  | redirect hno => exact absurd hname (hno e he)
  | longest hno => exact absurd hname (hno e he)
  | declined hno => exact absurd hname (hno e he)

theorem Forest.nil_right {locations : List (LocationQueue α)} (h : Forest locations []) : locations = [] := by
  cases h
  rfl

theorem Best.of_nil : Best [] uri st st := .declined (by simp) (by simp) (by simp)

section
variable {front inner back : List (LocationQueue α)} {lq : LocationQueue α}
  (hsorted : (front ++ lq :: (inner ++ back)).Pairwise (fun a b => a.name < b.name))
include hsorted

theorem front_lt {e : LocationQueue α} (he : e ∈ front) : e.name < lq.name :=
  (List.pairwise_append.mp hsorted).2.2 e he lq List.mem_cons_self

theorem lt_later {e : LocationQueue α} (he : e ∈ inner ∨ e ∈ back) : lq.name < e.name :=
  (List.pairwise_cons.mp (List.pairwise_append.mp hsorted).2.1).1 e (List.mem_append.mpr he)

/-- A name that the longer one of an element starts with can only stand in front of it. -/
theorem front_of_longer (h : uri <+: lq.name) (hne : lq.name ≠ uri) :
    ∀ e ∈ front ++ lq :: (inner ++ back), e ∈ front ∨ e.name ≠ uri := by
  intro e he
  rcases List.mem_append.mp he with he | he
  · exact .inl he
  · rcases List.mem_cons.mp he with rfl | he
    · exact .inr hne
    · have hlt := lt_later hsorted (List.mem_append.mp he)
      exact .inr (fun heq => absurd (prefix_le h) (not_le.mpr (heq ▸ hlt)))

theorem apart_of_left (h : Before uri lq.name) : ∀ e ∈ front ++ lq :: (inner ++ back), e ∈ front ∨ Apart e uri := by
  intro e he
  rcases List.mem_append.mp he with he | he
  · exact .inl he
  · rcases List.mem_cons.mp he with rfl | he
    · exact .inr (apart_of_before h le_rfl)
    · exact .inr (apart_of_before h (lt_later hsorted (List.mem_append.mp he)).le)

theorem Best.left_of_longer (hleads : Leads (front ++ lq :: (inner ++ back)) uri) (h : uri <+: lq.name)
    (hne : lq.name ≠ uri) (hr : ¬ Redirects lq uri) (hfront : Best front uri st out) :
    Best (front ++ lq :: (inner ++ back)) uri st out := by
  by_cases hno : ∀ e ∈ front ++ lq :: (inner ++ back), e.name ≠ uri
  · refine .of_part (fun e he => List.mem_append_left _ he) (fun e he => ?_) hfront
    rcases List.mem_append.mp he with he' | he'
    · exact .inl he'
    · rcases List.mem_cons.mp he' with rfl | he'
      · exact .inr ⟨hne,fun _ hpre => hne (hpre.eq_of_length_le h.length_le),hr⟩
      · have hlt := lt_later hsorted (List.mem_append.mp he')
        refine .inr (apart_of_longer h hlt (fun hr' => ?_))
        exact absurd (hleads hno e he hr' lq (by simp) h) (not_le.mpr hlt)
  · push Not at hno
    obtain ⟨e,he,hname⟩ := hno
    exact .of_named (fun e he => List.mem_append_left _ he)
      ((front_of_longer hsorted h hne e he).resolve_right (fun hn => hn hname)) hname hfront

variable (hsplit : Split front lq inner back)
include hsplit

theorem apart_of_right (h : Before lq.name uri) : ∀ e ∈ front ++ lq :: (inner ++ back), e ∈ back ∨ Apart e uri := by
  intro e he
  rcases List.mem_append.mp he with he | he
  · exact .inr (apart_front_of_before h (front_lt hsorted he) (hsplit.before e he))
  · rcases List.mem_cons.mp he with rfl | he
    · exact .inr (apart_of_extends h List.prefix_rfl)
    · rcases List.mem_append.mp he with he | he
      · exact .inr (apart_of_extends h (hsplit.under e he))
      · exact .inl he

theorem apart_of_inside (hincl : lq.inclusive ≠ none) (h : lq.name <+: uri) :
    ∀ e ∈ front ++ lq :: (inner ++ back), e = lq ∨ e ∈ inner ∨ Apart e uri := by
  intro e he
  rcases List.mem_append.mp he with he | he
  · exact .inr (.inr (apart_front_of_pre h (front_lt hsorted he) (hsplit.before e he)))
  · rcases List.mem_cons.mp he with rfl | he
    · exact .inl rfl
    · rcases List.mem_append.mp he with he | he
      · exact .inr (.inl he)
      · exact .inr (.inr (apart_back_of_pre h (lt_later hsorted (.inr he)) (hsplit.behind hincl e he)))

theorem apart_of_exact (hclcf : lq.inclusive = none) (h : lq.name <+: uri) (hne : lq.name ≠ uri) :
    ∀ e ∈ front ++ lq :: (inner ++ back), e ∈ back ∨ Apart e uri := by
  intro e he
  rcases List.mem_append.mp he with he | he
  · exact .inr (apart_front_of_pre h (front_lt hsorted he) (hsplit.before e he))
  · rcases List.mem_cons.mp he with rfl | he
    · refine .inr ⟨hne,fun hincl => absurd hclcf hincl,fun hr => hne ?_⟩
      exact h.eq_of_length_le hr.pre.length_le
    · rw [hsplit.alone hclcf,List.nil_append] at he
      exact .inl he

theorem Best.left_of_redirect (hleads : Leads (front ++ lq :: (inner ++ back)) uri) (hr : Redirects lq uri)
    (hfront : Best front uri (.done,lq.exact <|> lq.inclusive) out) :
    Best (front ++ lq :: (inner ++ back)) uri st out := by
  have hothers := front_of_longer hsorted hr.pre hr.ne
  by_cases hno : ∀ e ∈ front ++ lq :: (inner ++ back), e.name ≠ uri
  · refine .of_redirect (by simp) hr (fun e he => ⟨List.mem_append_left _ he,?_,?_⟩) hothers hfront
    · exact fun hincl hpre => hsplit.before e he hincl (hpre.trans hr.pre)
    · intro hr'
      exact absurd (hleads hno lq (by simp) hr e (List.mem_append_left _ he) hr'.pre)
        (not_le.mpr (front_lt hsorted he))
  · push Not at hno
    obtain ⟨e,he,hname⟩ := hno
    exact .of_named (fun e he => List.mem_append_left _ he) ((hothers e he).resolve_right (fun hn => hn hname)) hname
      hfront

end

/-- The tree over a forest answers as a search of the plain list does. -/
theorem findStaticLocation_best {n : Nat} {locations : List (LocationQueue α)} {forest : List (LocationList α)}
    (hforest : Forest locations forest) (hsorted : locations.Pairwise (fun a b => a.name < b.name)) {skip : Bytes}
    (hskip : ∀ e ∈ locations, skip <+: e.name) (hlen : ∀ e ∈ locations, e.name.length < 256)
    (hn : locations.length ≤ n) {rest : Bytes} (hleads : Leads locations (skip ++ rest))
    (st : LocationRc × Option (CoreLocConf α)) :
    Best locations (skip ++ rest) st (findStaticLocation (createLocationsTree n forest skip.length) rest st) := by
  induction n generalizing locations forest skip rest st with
  | zero =>
    rw [List.length_eq_zero_iff.mp (Nat.le_zero.mp hn)]
    exact .of_nil
  | succ n ih =>
    rw [createLocationsTree]
    cases hget : forest[forest.length / 2]? with
    | none =>
      have hzero : forest.length = 0 := by
        have := List.getElem?_eq_none_iff.mp hget
        omega
      rw [List.length_eq_zero_iff.mp hzero] at hforest
      rw [hforest.nil_right]
      exact .of_nil
    | some entry =>
      obtain ⟨lq,list⟩ := entry
      obtain ⟨front,inner,back,rfl,hfront,hinner,hback,hsplit⟩ := hforest.split hget
      obtain ⟨name,hname⟩ := hskip lq (by simp)
      obtain ⟨hsfront,hslater,-⟩ := List.pairwise_append.mp hsorted
      obtain ⟨hsinner,hsback,-⟩ := List.pairwise_append.mp (List.pairwise_cons.mp hslater).2
      have hcount : front.length + (inner.length + back.length) ≤ n := by
        simp only [List.length_append,List.length_cons] at hn
        omega
      have ihfront (hnamed : ∀ e ∈ front ++ lq :: (inner ++ back), e ∈ front ∨ e.name ≠ skip ++ rest) :
          ∀ st, Best front (skip ++ rest) st
            (findStaticLocation (createLocationsTree n (forest.take (forest.length / 2)) skip.length) rest st) :=
        ih hfront hsfront (fun e he => hskip e (by simp [he])) (fun e he => hlen e (by simp [he])) (by omega)
          (hleads.of_part (fun e he => by simp [he]) hnamed)
      have ihback (hapart : ∀ e ∈ front ++ lq :: (inner ++ back), e ∈ back ∨ Apart e (skip ++ rest)) :
          Best (front ++ lq :: (inner ++ back)) (skip ++ rest) st
            (findStaticLocation (createLocationsTree n (forest.drop (forest.length / 2 + 1)) skip.length) rest st) :=
        .of_part (fun e he => by simp [he]) hapart
          (ih hback hsback (fun e he => hskip e (by simp [he])) (fun e he => hlen e (by simp [he])) (by omega)
            (hleads.of_part (fun e he => by simp [he]) (fun e he => (hapart e he).imp_right Apart.name)) st)
      have hlength : lq.name.length - skip.length = name.length := by simp [← hname]
      have hsmall : name.length % 256 = name.length := by
        have := hlen lq (by simp)
        rw [← hname,List.length_append] at this
        exact Nat.mod_eq_of_lt (by omega)
      have hdrop : lq.name.drop skip.length = name := by simp [← hname]
      have hmin : (if rest.length ≤ name.length then rest.length else name.length) = min rest.length name.length := by
        split_ifs <;> omega
      simp only [findStaticLocation,hlength,hsmall,hdrop,hmin,memcmp]
      have hcommon := order_common rest name
      cases horder : order (rest.take (min rest.length name.length)) (name.take (min rest.length name.length)) with
      | lt =>
        rw [horder] at hcommon
        have hapart := apart_of_left hsorted (hname ▸ hcommon.append_left skip)
        exact .of_part (fun e he => by simp [he]) hapart (ihfront (fun e he => (hapart e he).imp_right Apart.name) st)
      | gt =>
        rw [horder] at hcommon
        exact ihback (apart_of_right hsorted hsplit (hname ▸ hcommon.append_left skip))
      | eq =>
        rw [horder] at hcommon
        simp only
        split_ifs with hlong hsame hshort
        · have hpre : name <+: rest := hcommon.resolve_left (fun h => absurd h.length_le (not_le.mpr hlong))
          have hlq : lq.name <+: skip ++ rest := hname ▸ (List.prefix_append_right_inj skip).mpr hpre
          have hne : lq.name ≠ skip ++ rest := fun heq => by
            have := congrArg List.length heq
            rw [← hname,List.length_append,List.length_append] at this
            omega
          cases hclcf : lq.inclusive with
          | none => exact ihback (apart_of_exact hsorted hsplit hclcf hlq hne)
          | some clcf =>
            have hapart := apart_of_inside hsorted hsplit (by rw [hclcf]; exact Option.some_ne_none clcf) hlq
            have hnamed : ∀ e ∈ front ++ lq :: (inner ++ back), e ∈ inner ∨ e.name ≠ skip ++ rest := fun e he =>
              (hapart e he).elim (fun heq => .inr (heq ▸ hne)) (fun h => h.imp_right Apart.name)
            obtain ⟨tail,rfl⟩ := hpre
            have hinside : Best inner ((skip ++ name) ++ tail) (.again,some clcf)
                (findStaticLocation (createLocationsTree n list (skip ++ name).length) tail (.again,some clcf)) :=
              ih hinner hsinner (fun e he => hname ▸ hsplit.under e he) (fun e he => hlen e (by simp [he])) (by omega)
                (by rw [List.append_assoc]; exact hleads.of_part (fun e he => by simp [he]) hnamed) _
            rw [List.append_assoc,List.length_append] at hinside
            refine .of_below (by simp) hclcf hlq hne (fun e he => ⟨by simp [he],hsplit.under e he⟩) hapart ?_
            rw [Nat.min_eq_right (by omega),List.drop_left]
            exact hinside
        · have heq : lq.name = skip ++ rest := by
            rcases hcommon with h | h
            · rw [h.eq_of_length hsame,hname]
            · rw [← h.eq_of_length hsame.symm,hname]
          cases hexact : lq.exact with
          | none => exact .inclusive (by simp) heq hexact
          | some clcf => exact .exact (by simp) heq hexact
        · have hpre : rest <+: name := hcommon.resolve_right (fun h => hsame (by have := h.length_le; omega))
          obtain ⟨tail,rfl⟩ := hpre
          obtain ⟨b,rfl⟩ := List.length_eq_one_iff.mp (show tail.length = 1 by simpa using hshort.1.symm)
          have hr : Redirects lq (skip ++ rest) := ⟨⟨b,by rw [← hname,List.append_assoc]⟩,hshort.2⟩
          exact .left_of_redirect hsorted hsplit hleads hr (ihfront (front_of_longer hsorted hr.pre hr.ne) _)
        · have hpre : rest <+: name := hcommon.resolve_right (fun h => hsame (by have := h.length_le; omega))
          have hne : lq.name ≠ skip ++ rest := fun heq => hsame (by
            have := congrArg List.length heq
            rw [← hname,List.length_append,List.length_append] at this
            omega)
          have hlonger : skip ++ rest <+: lq.name := hname ▸ (List.prefix_append_right_inj skip).mpr hpre
          refine .left_of_longer hsorted hleads hlonger hne ?_ (ihfront (front_of_longer hsorted hlonger hne) st)
          rintro ⟨⟨b,hb⟩,hauto⟩
          have := congrArg List.length hb
          rw [← hname,List.length_append,List.length_append,List.length_append,List.length_singleton] at this
          exact hshort ⟨by omega,hauto⟩

theorem below_iff {lq lx : LocationQueue α} (hlq : 0 ∉ lq.name) (hlx : 0 ∉ lx.name) :
    below lq lx = true ↔ lq.name <+: lx.name := by
  have htake : 0 ∉ lx.name.take lq.name.length := fun h => hlx (List.mem_of_mem_take h)
  simp only [below,strncmpEq,Bool.and_eq_true,decide_eq_true_eq,beq_iff_eq,List.take_length,cString_of_notMem hlq,
    cString_of_notMem htake]
  constructor
  · rintro ⟨-,heq⟩
    exact List.prefix_iff_eq_take.mpr heq
  · intro hpre
    exact ⟨hpre.length_le,List.prefix_iff_eq_take.mp hpre⟩

/-- The list of an inclusive location takes all the names that extend its own. -/
theorem createLocationsList_forest {n : Nat} {locations : List (LocationQueue α)}
    (hsorted : locations.Pairwise (fun a b => a.name < b.name)) (hnul : ∀ e ∈ locations, 0 ∉ e.name)
    (hn : locations.length ≤ n) : Forest locations (createLocationsList n locations) := by
  induction n generalizing locations with
  | zero =>
    rw [List.length_eq_zero_iff.mp (Nat.le_zero.mp hn)]
    exact .nil
  | succ n ih =>
    cases locations with
    | nil => exact .nil
    | cons lq rest =>
      obtain ⟨hlt,hrest⟩ := List.pairwise_cons.mp hsorted
      obtain ⟨hlq,hnul⟩ := List.forall_mem_cons.mp hnul
      rw [List.length_cons] at hn
      rw [createLocationsList]
      cases hincl : lq.inclusive with
      | none =>
        exact .cons .nil (ih hrest hnul (by omega)) (by simp) (fun _ => rfl) (fun h => absurd hincl h)
      | some clcf =>
        have hne : lq.inclusive ≠ none := by simp [hincl]
        have hall := List.takeWhile_append_dropWhile (p := below lq) (l := rest)
        have hin : ∀ e ∈ rest.takeWhile (below lq), lq.name <+: e.name := fun e he =>
          (below_iff hlq (hnul e ((List.takeWhile_sublist _).mem he))).mp (List.mem_takeWhile_imp he)
        have hout : ∀ e ∈ rest.dropWhile (below lq), ¬ lq.name <+: e.name := by
          cases hdrop : rest.dropWhile (below lq) with
          | nil => simp
          | cons d later =>
            have hsub : d :: later <:+ rest := hdrop ▸ List.dropWhile_suffix _
            have hd : ¬ lq.name <+: d.name := by
              rw [← below_iff hlq (hnul d (hsub.subset List.mem_cons_self))]
              have := List.head_dropWhile_not (below lq) (l := rest) (by simp [hdrop])
              simpa [hdrop] using this
            intro e he hpre
            rcases List.mem_cons.mp he with rfl | he
            · exact hd hpre
            · -- the extensions of a name form an interval
              obtain ⟨x,hx⟩ := hpre
              have hde : d.name ≤ e.name := ((List.pairwise_cons.mp (hrest.sublist hsub.sublist)).1 e he).le
              exact hd (prefix_of_between (hlt d (hsub.subset List.mem_cons_self)).le (hx ▸ hde))
        have hlen := congrArg List.length hall
        rw [List.length_append] at hlen
        nth_rewrite 1 [← hall]
        exact .cons
          (ih (hrest.sublist (List.takeWhile_sublist _)) (fun e he => hnul e ((List.takeWhile_sublist _).mem he))
            (by omega))
          (ih (hrest.sublist (List.dropWhile_sublist _)) (fun e he => hnul e ((List.dropWhile_sublist _).mem he))
            (by omega)) hin (fun h => absurd h hne) (fun _ => hout)

end

end Aret.Http
