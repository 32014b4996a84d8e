import Aret.Lib.Decimal
import Mathlib.Data.List.TakeWhile

/-! `sscanf` for formats of ordinary characters and `%s`, with the size of the
buffer each `%s` stores into. -/
namespace Aret.Lib

inductive Directive where
  | lit (c : UInt8)
  | str (size : Nat)
  deriving DecidableEq, Repr

/-- The part of memory a C string function reads. -/
def cString (memory : Bytes) : Bytes := memory.takeWhile (· ≠ 0)

def inputFailure (stored : List Bytes) : Int := if stored = [] then -1 else stored.length

/-- The return value and the strings stored so far; `none` is a store beyond the
end of its buffer, the terminating NUL included. -/
def sscanfFrom : List Directive → Bytes → List Bytes → Option (Int × List Bytes)
  | [],_,stored => some (stored.length,stored)
  | .lit _ :: _,[],stored => some (inputFailure stored,stored)
  | .lit c :: format,a :: s,stored => if a = c then sscanfFrom format s stored else some (stored.length,stored)
  | .str size :: format,s,stored =>
    let s := s.dropWhile isSpace
    let word := s.takeWhile (fun b => !isSpace b)
    if s = [] then some (inputFailure stored,stored)
    else if size < word.length + 1 then none
    else sscanfFrom format (s.drop word.length) (stored ++ [word])

def sscanf (s : Bytes) (format : List Directive) : Option (Int × List Bytes) := sscanfFrom format s []

/-- A byte stored at `index` of a buffer of `size` bytes. -/
structure Store where
  size : Nat
  index : Nat
  deriving DecidableEq, Repr

/-- Every byte the scan stores, in order, in range or not; a `%s` stores its word
from the start of its buffer on and a NUL behind it. -/
def sscanfStores : List Directive → Bytes → List Store
  | [],_ => []
  | .lit _ :: _,[] => []
  | .lit c :: format,a :: s => if a = c then sscanfStores format s else []
  | .str size :: format,s =>
    let s := s.dropWhile isSpace
    let word := s.takeWhile (fun b => !isSpace b)
    if s = [] then []
    else (List.range (word.length + 1)).map (⟨size,·⟩) ++ sscanfStores format (s.drop word.length)

theorem cString_of_notMem {s : Bytes} (h : 0 ∉ s) : cString s = s := by
  rw [cString,List.takeWhile_eq_self_iff]
  intro b hb
  have hne : b ≠ 0 := fun he => h (he ▸ hb)
  simpa using hne

theorem cString_append_of_notMem {s : Bytes} (h : 0 ∉ s) (t : Bytes) : cString (s ++ t) = s ++ cString t := by
  have hall : ∀ b ∈ s, decide (b ≠ 0) = true := fun b hb => decide_eq_true (fun he => h (he ▸ hb))
  exact List.takeWhile_append_of_pos hall

/-- What follows a NUL is not read. -/
theorem cString_append_of_mem {s : Bytes} (h : 0 ∈ s) (t : Bytes) : cString (s ++ t) = cString s := by
  obtain ⟨u,v,rfl,hu⟩ := List.eq_append_cons_of_mem h
  rw [List.append_assoc,cString_append_of_notMem hu,cString_append_of_notMem hu]
  rfl

/-- What `%s` reads: blanks are passed over, then everything up to the next one. -/
def word (s : Bytes) : Bytes := (s.dropWhile isSpace).takeWhile (fun b => !isSpace b)

theorem head_dropWhile_isSpace {s : Bytes} {b : UInt8} (h : (s.dropWhile isSpace).head? = some b) :
    isSpace b = false := by
  have hhead := List.head?_dropWhile_not isSpace s
  rw [h] at hhead
  simpa using hhead

theorem word_eq_nil_iff (s : Bytes) : word s = [] ↔ s.dropWhile isSpace = [] := by
  rw [word]
  cases hs : s.dropWhile isSpace with
  | nil => simp
  | cons b rest =>
    have hb := head_dropWhile_isSpace (by rw [hs]; rfl)
    simp [hb]

theorem word_of_forall {s : Bytes} (h : ∀ b ∈ s, isSpace b = false) : word s = s := by
  have hdrop : s.dropWhile isSpace = s := by
    cases s with
    | nil => rfl
    | cons b s => rw [List.dropWhile_cons,if_neg (by simp [h b])]
  rw [word,hdrop,List.takeWhile_eq_self_iff]
  intro b hb
  simp [h b hb]

theorem word_append_cons {s : Bytes} (hs : ∀ b ∈ s, isSpace b = false) (hne : s ≠ []) {c : UInt8}
    (hc : isSpace c = true) (t : Bytes) : word (s ++ c :: t) = s := by
  cases s with
  | nil => exact absurd rfl hne
  | cons a s =>
    have hdrop : (a :: s ++ c :: t).dropWhile isSpace = a :: s ++ c :: t := by
      rw [List.cons_append,List.dropWhile_cons,if_neg (by simp [hs a])]
    rw [word,hdrop,List.takeWhile_append_of_pos (fun b hb => by simp [hs b hb]),List.takeWhile_cons,
      if_neg (by simp [hc]),
      List.append_nil]

theorem word_append_of_ended {s : Bytes} (h : ∃ b ∈ s.dropWhile isSpace, isSpace b = true) (t : Bytes) :
    word (s ++ t) = word s := by
  obtain ⟨b,hb,hspace⟩ := h
  have hne : (s.dropWhile isSpace).isEmpty = false := by simpa using List.ne_nil_of_mem hb
  rw [word,word,List.dropWhile_append,hne,if_neg Bool.false_ne_true,List.takeWhile_append,if_neg]
  intro hlen
  have hall := (List.takeWhile_prefix (fun b => !isSpace b)).eq_of_length hlen
  rw [List.takeWhile_eq_self_iff] at hall
  simpa [hspace] using hall b hb

/-- A word that does not goes on into it. -/
theorem word_append_of_open {s t : Bytes} (hs : ∀ b ∈ s.dropWhile isSpace, isSpace b = false)
    (ht : ∀ b ∈ t, isSpace b = false) : word (s ++ t) = s.dropWhile isSpace ++ t := by
  by_cases hnil : s.dropWhile isSpace = []
  · have hskip : word (s ++ t) = word t := by simp [word,List.dropWhile_append,hnil]
    rw [hskip,hnil,word_of_forall ht,List.nil_append]
  · have hne : (s.dropWhile isSpace).isEmpty = false := by simpa using hnil
    rw [word,List.dropWhile_append,hne,if_neg Bool.false_ne_true,List.takeWhile_eq_self_iff]
    intro b hb
    rcases List.mem_append.mp hb with hb | hb
    · simp [hs b hb]
    · simp [ht b hb]

/-- Memory in which `%s` finds the text `w`: blanks, `w`, then a blank, a NUL or nothing more. -/
def ReadsAs (memory w : Bytes) : Prop :=
  ∃ blanks tail, memory = blanks ++ w ++ tail ∧ (∀ b ∈ blanks, isSpace b = true) ∧
    ∀ b ∈ tail.head?, isSpace b = true ∨ b = 0

theorem head_dropWhile_cString {memory : Bytes} {b : UInt8} (h : b ∈ (memory.dropWhile (· ≠ 0)).head?) : b = 0 := by
  have hhead := List.head?_dropWhile_not (fun b => decide (b ≠ (0 : UInt8))) memory
  rw [Option.mem_def.mp h] at hhead
  simpa using hhead

theorem readsAs_word (memory : Bytes) : ReadsAs memory (word (cString memory)) := by
  obtain ⟨after,hafter⟩ : ∃ after, (((cString memory).dropWhile isSpace).dropWhile (fun b => !isSpace b)) = after :=
    ⟨_,rfl⟩
  refine ⟨(cString memory).takeWhile isSpace,after ++ memory.dropWhile (· ≠ 0),?_,fun b hb => ?_,fun b hb => ?_⟩
  · calc memory
      _ = cString memory ++ memory.dropWhile (· ≠ 0) := List.takeWhile_append_dropWhile.symm
      _ = _ := by
        rw [word,← hafter,List.append_assoc,← List.append_assoc (List.takeWhile _ _) (List.dropWhile _ _),
          List.takeWhile_append_dropWhile,← List.append_assoc,List.takeWhile_append_dropWhile]
  · exact List.mem_takeWhile_imp hb
  · cases after with
    | nil => exact Or.inr (head_dropWhile_cString hb)
    | cons a after =>
      obtain rfl : a = b := Option.some.inj hb
      have hhead := List.head?_dropWhile_not (fun b => !isSpace b) ((cString memory).dropWhile isSpace)
      rw [hafter] at hhead
      exact Or.inl (by simpa using hhead)

theorem word_cString_eq_iff {memory w : Bytes} (hw : ∀ b ∈ w, isSpace b = false ∧ b ≠ 0) (hne : w ≠ []) :
    word (cString memory) = w ↔ ReadsAs memory w := by
  refine ⟨fun h => h ▸ readsAs_word memory,?_⟩
  rintro ⟨blanks,tail,rfl,hblanks,htail⟩
  have hnul : 0 ∉ blanks ++ w := by
    rw [List.mem_append,not_or]
    exact ⟨fun hb => absurd (hblanks 0 hb) (by decide),fun hb => (hw 0 hb).2 rfl⟩
  have hpass : ∀ t, word (blanks ++ w ++ t) = word (w ++ t) := fun t => by
    rw [word,List.append_assoc,List.dropWhile_append_of_pos hblanks,← word]
  rw [cString_append_of_notMem hnul,hpass]
  have hspaces : ∀ b ∈ w, isSpace b = false := fun b hb => (hw b hb).1
  cases tail with
  | nil => rw [show cString [] = [] from rfl,List.append_nil,word_of_forall hspaces]
  | cons c tail =>
    rcases htail c rfl with hc | rfl
    · have hc0 : c ≠ 0 := by
        rintro rfl
        exact absurd hc (by decide)
      rw [show cString (c :: tail) = c :: cString tail by simp [cString,hc0],word_append_cons hspaces hne hc]
    · rw [show cString (0 :: tail) = [] by simp [cString],List.append_nil,word_of_forall hspaces]

theorem sscanfFrom_lits (pat : Bytes) (format : List Directive) (s : Bytes) (stored : List Bytes) :
    sscanfFrom (pat.map .lit ++ format) (pat ++ s) stored = sscanfFrom format s stored := by
  induction pat with
  | nil => rfl
  | cons c pat ih =>
    rw [List.map_cons,List.cons_append,List.cons_append,sscanfFrom,if_pos rfl]
    exact ih

theorem sscanf_mismatch {pat s : Bytes} (h : ¬ pat <+: s) (format : List Directive) :
    ∃ ret, sscanf s (pat.map .lit ++ format) = some (ret,[]) := by
  rw [sscanf]
  induction pat generalizing s with
  | nil => exact absurd List.nil_prefix h
  | cons c pat ih =>
    cases s with
    | nil => exact ⟨_,rfl⟩
    | cons a s =>
      rw [List.map_cons,List.cons_append,sscanfFrom]
      split_ifs with hac
      · rw [hac,List.cons_prefix_cons] at h
        exact ih (fun hp => h ⟨rfl,hp⟩)
      · exact ⟨_,rfl⟩

theorem sscanfFrom_str (size : Nat) (format : List Directive) (s : Bytes) (stored : List Bytes) :
    sscanfFrom (.str size :: format) s stored =
      if word s = [] then some (inputFailure stored,stored)
      else if size ≤ (word s).length then none
      else sscanfFrom format ((s.dropWhile isSpace).drop (word s).length) (stored ++ [word s]) := by
  simp only [sscanfFrom,word_eq_nil_iff,Nat.lt_succ_iff]
  rfl

/-- Behind a word stands a blank or nothing, never an ordinary character. -/
theorem sscanfFrom_lit_of_word (c : UInt8) (hc : isSpace c = false) (format : List Directive) (s : Bytes)
    {stored : List Bytes} (hne : stored ≠ []) :
    sscanfFrom (.lit c :: format) ((s.dropWhile isSpace).drop (word s).length) stored =
      some ((stored.length : Int),stored) := by
  have hrest : (s.dropWhile isSpace).drop (word s).length =
      (s.dropWhile isSpace).dropWhile (fun b => !isSpace b) := by
    rw [word]
    nth_rewrite 2 [← List.takeWhile_append_dropWhile (p := fun b => !isSpace b) (l := s.dropWhile isSpace)]
    exact List.drop_left
  have hhead := List.head?_dropWhile_not (fun b => !isSpace b) (s.dropWhile isSpace)
  rw [hrest]
  cases hd : (s.dropWhile isSpace).dropWhile (fun b => !isSpace b) with
  | nil => simp [sscanfFrom,inputFailure,hne]
  | cons a rest =>
    rw [hd] at hhead
    have hac : a ≠ c := by
      rintro rfl
      simp [hc] at hhead
    rw [sscanfFrom,if_neg hac]

private theorem word_in_range_iff (size n : Nat) :
    (∀ store ∈ (List.range (n + 1)).map (Store.mk size),store.index < store.size) ↔ n < size := by
  simp only [List.forall_mem_map,List.mem_range,Nat.lt_succ_iff]
  exact ⟨fun h => h n le_rfl,fun h i hi => lt_of_le_of_lt hi h⟩

/-- The scan is defined exactly when everything it stores lies in its buffer. -/
theorem stores_in_range_iff (format : List Directive) (s : Bytes) :
    (∀ store ∈ sscanfStores format s, store.index < store.size) ↔ sscanf s format ≠ none := by
  have hfrom : ∀ stored, (∀ store ∈ sscanfStores format s, store.index < store.size) ↔
      sscanfFrom format s stored ≠ none := by
    fun_induction sscanfStores format s with
    | case1 s => simp [sscanfFrom]
    | case2 c format => simp [sscanfFrom]
    | case3 format a s ih =>
      intro stored
      rw [ih stored,sscanfFrom,if_pos rfl]
    | case4 c format a s hac => simp [sscanfFrom,hac]
    | case5 size format s rest hrest => simp [sscanfFrom,rest,hrest]
    | case6 size format s rest word hrest ih =>
      intro stored
      have hstep : sscanfFrom (.str size :: format) s stored =
          if size < word.length + 1 then none else sscanfFrom format (rest.drop word.length) (stored ++ [word]) := by
        rw [sscanfFrom]
        exact if_neg hrest
      rw [List.forall_mem_append,word_in_range_iff,ih (stored ++ [word]),hstep]
      by_cases hlen : word.length < size
      · rw [if_neg (by omega)]
        exact and_iff_right hlen
      · rw [if_pos (by omega)]
        exact iff_of_false (fun h => hlen h.1) (fun h => h rfl)
  exact hfrom []

end Aret.Lib
