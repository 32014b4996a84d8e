import Aret.Http.AretModule

/-! What `parse_args` makes of a query. A `%s` stops only at a blank, so the
first format never reaches its second conversion; only `url=` is ever accepted,
and its value runs on to the next blank in the request buffer. -/
namespace Aret.Http
open Lib

private theorem userFormat_eq : userFormat =
    (bytes "user=").map .lit ++ (.str 128 :: .lit 38 :: ((bytes "url=").map .lit ++ [.str 1024])) := rfl

private theorem sscanf_user_mismatch {s : Bytes} (h : ¬ bytes "user=" <+: s) :
    ∃ ret, sscanf s userFormat = some (ret,[]) := by
  rw [userFormat_eq]
  exact sscanf_mismatch h _

private theorem sscanf_url_mismatch {s : Bytes} (h : ¬ bytes "url=" <+: s) :
    ∃ ret, sscanf s urlFormat = some (ret,[]) := sscanf_mismatch h _

theorem sscanf_user (rest : Bytes) :
    sscanf (bytes "user=" ++ rest) userFormat =
      if word rest = [] then some (-1,[]) else if 128 ≤ (word rest).length then none else some (1,[word rest]) := by
  rw [sscanf,userFormat_eq,sscanfFrom_lits,sscanfFrom_str]
  split_ifs
  · rfl
  · rfl
  · rw [sscanfFrom_lit_of_word 38 rfl _ rest (by simp)]
    rfl

theorem sscanf_url (rest : Bytes) :
    sscanf (bytes "url=" ++ rest) urlFormat =
      if word rest = [] then some (-1,[]) else if 1024 ≤ (word rest).length then none else some (1,[word rest]) := by
  rw [sscanf,urlFormat,sscanfFrom_lits,sscanfFrom_str]
  split_ifs <;> rfl

theorem user_ne_url (s t : Bytes) : bytes "user=" ++ s ≠ bytes "url=" ++ t := by
  intro h
  have hbyte : some (115 : UInt8) = some 114 := congrArg (fun l : Bytes => l[1]?) h
  exact absurd hbyte (by decide)

inductive Leading (s : Bytes) : Prop where
  | user (rest : Bytes) (h : s = bytes "user=" ++ rest)
  | url (rest : Bytes) (h : s = bytes "url=" ++ rest)
  | other (huser : ¬ bytes "user=" <+: s) (hurl : ¬ bytes "url=" <+: s)

theorem leading (s : Bytes) : Leading s := by
  by_cases huser : bytes "user=" <+: s
  · obtain ⟨rest,h⟩ := huser
    exact .user rest h.symm
  · by_cases hurl : bytes "url=" <+: s
    · obtain ⟨rest,h⟩ := hurl
      exact .url rest h.symm
    · exact .other huser hurl

section
variable {memory : Bytes} (user url : Bytes)

/-- A query that starts with `user=` is never accepted. -/
theorem parseArgs_user {rest : Bytes} (h : cString memory = bytes "user=" ++ rest) :
    parseArgs (some memory) user url = if (word rest).length < 128 then some (false,user,url) else none := by
  have hno : ¬ bytes "url=" <+: cString memory := by
    rintro ⟨t,ht⟩
    exact user_ne_url rest t (h.symm.trans ht.symm)
  obtain ⟨ret,hret⟩ := sscanf_url_mismatch hno
  rw [parseArgs,hret,h,sscanf_user]
  by_cases hnil : word rest = []
  · simp [hnil]
  · by_cases hlen : (word rest).length < 128
    · simp [hnil,hlen,not_le.mpr hlen]
    · simp [hnil,hlen,not_lt.mp hlen]

/-- Behind `url=` the first word is taken, if there is one and it fits. -/
theorem parseArgs_url {rest : Bytes} (h : cString memory = bytes "url=" ++ rest) :
    parseArgs (some memory) user url = if word rest = [] then some (false,user,url)
      else if (word rest).length < 1024 then some (true,user,word rest) else none := by
  have hno : ¬ bytes "user=" <+: cString memory := by
    rintro ⟨t,ht⟩
    exact user_ne_url t rest (ht.trans h)
  obtain ⟨ret,hret⟩ := sscanf_user_mismatch hno
  rw [parseArgs,hret,h,sscanf_url]
  by_cases hnil : word rest = []
  · simp [hnil]
  · by_cases hlen : (word rest).length < 1024
    · simp [hnil,hlen,not_le.mpr hlen]
    · simp [hnil,hlen,not_lt.mp hlen]

theorem parseArgs_other (huser : ¬ bytes "user=" <+: cString memory) (hurl : ¬ bytes "url=" <+: cString memory) :
    parseArgs (some memory) user url = some (false,user,url) := by
  obtain ⟨ret,hret⟩ := sscanf_user_mismatch huser
  obtain ⟨ret',hret'⟩ := sscanf_url_mismatch hurl
  simp [parseArgs,hret,hret']

end

structure UserForm (s U V : Bytes) : Prop where
  text : s = bytes "user=" ++ U ++ bytes "&url=" ++ V
  user : U ≠ [] ∧ 38 ∉ U ∧ U.length < 128
  url : V ≠ [] ∧ V.length < 1024

structure UrlForm (s V : Bytes) : Prop where
  text : s = bytes "url=" ++ V
  url : V ≠ [] ∧ V.length < 1024

structure ParsesAs (s user url : Bytes) (out : Bool × Bytes × Bytes) : Prop where
  both : ∀ U V, UserForm s U V → out = (true,U,V)
  one : ∀ V, UrlForm s V → out = (true,user,V)
  neither : (∀ U V, ¬ UserForm s U V) → (∀ V, ¬ UrlForm s V) → out = (false,user,url)

theorem UserForm.prefixed {s U V : Bytes} (h : UserForm s U V) :
    s = bytes "user=" ++ (U ++ bytes "&url=" ++ V) := by
  rw [h.text]
  simp

section
variable (user url : Bytes)

/-- A text behind `user=` is rightly refused only when it is not of the first form. -/
theorem parsesAs_user_iff (X : Bytes) : ParsesAs (bytes "user=" ++ X) user url (false,user,url) ↔
    ∀ U V, ¬ UserForm (bytes "user=" ++ X) U V := by
  constructor
  · intro h U V hform
    exact absurd (congrArg Prod.fst (h.both U V hform)) Bool.false_ne_true
  · intro hno
    exact ⟨fun U V h => absurd h (hno U V),fun V h => absurd h.text (user_ne_url X V),fun _ _ => rfl⟩

theorem parsesAs_url {V : Bytes} (hlen : V.length < 1024) :
    ParsesAs (bytes "url=" ++ V) user url (if V = [] then (false,user,url) else (true,user,V)) := by
  have hno : ∀ U W, ¬ UserForm (bytes "url=" ++ V) U W := fun U W h => user_ne_url _ V h.prefixed.symm
  split_ifs with hnil
  · refine ⟨fun U W h => absurd h (hno U W),fun W h => ?_,fun _ _ => rfl⟩
    exact absurd ((List.append_cancel_left h.text).symm.trans hnil) h.url.1
  · refine ⟨fun U W h => absurd h (hno U W),fun W h => ?_,fun _ h => ?_⟩
    · rw [List.append_cancel_left h.text]
    · exact absurd ⟨rfl,hnil,hlen⟩ (h V)

theorem parsesAs_other {s : Bytes} (huser : ¬ bytes "user=" <+: s) (hurl : ¬ bytes "url=" <+: s) :
    ParsesAs s user url (false,user,url) :=
  ⟨fun _ _ h => absurd ⟨_,h.prefixed.symm⟩ huser,fun V h => absurd ⟨V,h.text.symm⟩ hurl,fun _ _ => rfl⟩

end

/-- A text without blanks is parsed as meant exactly when it is not of the first
form and the value behind `user=` or `url=` fits its buffer. -/
theorem parse_args_iff {s : Bytes} (hnul : 0 ∉ s) (hspace : ∀ b ∈ s, isSpace b = false) (rest user url : Bytes) :
    (∃ out, parseArgs (some (s ++ 0 :: rest)) user url = some out ∧ ParsesAs s user url out) ↔
      (∀ U V, ¬ UserForm s U V) ∧ (∀ X, s = bytes "user=" ++ X → X.length < 128) ∧
        ∀ V, s = bytes "url=" ++ V → V.length < 1024 := by
  have hs : cString (s ++ 0 :: rest) = s := (cString_append_of_notMem hnul _).trans (List.append_nil s)
  cases leading s with
  | user X hX =>
    subst hX
    have hword : word X = X := word_of_forall (fun b hb => hspace b (List.mem_append_right _ hb))
    rw [parseArgs_user user url hs,hword]
    constructor
    · rintro ⟨out,hout,hparse⟩
      split_ifs at hout with hlen
      obtain rfl := Option.some.inj hout
      refine ⟨(parsesAs_user_iff user url X).mp hparse,fun X' hX => ?_,fun V hV => absurd hV (user_ne_url X V)⟩
      rwa [← List.append_cancel_left hX]
    · rintro ⟨hno,hlen,-⟩
      exact ⟨_,if_pos (hlen X rfl),(parsesAs_user_iff user url X).mpr hno⟩
  | url V hV =>
    subst hV
    have hword : word V = V := word_of_forall (fun b hb => hspace b (List.mem_append_right _ hb))
    rw [parseArgs_url user url hs,hword]
    constructor
    · rintro ⟨out,hout,-⟩
      refine ⟨fun U W h => user_ne_url _ V h.prefixed.symm,fun X hX => absurd hX.symm (user_ne_url X V),fun W hW => ?_⟩
      rw [← List.append_cancel_left hW]
      split_ifs at hout with hnil hlen
      · simp [hnil]
      · exact hlen
    · rintro ⟨-,-,hlen⟩
      refine ⟨_,?_,parsesAs_url user url (hlen V rfl)⟩
      rw [if_pos (hlen V rfl)]
      split_ifs <;> rfl
  | other huser hurl =>
    rw [parseArgs_other user url (by rwa [hs]) (by rwa [hs])]
    refine iff_of_true ⟨_,rfl,parsesAs_other user url huser hurl⟩ ⟨fun U V h => ?_,fun X hX => ?_,fun V hV => ?_⟩
    · exact huser ⟨_,h.prefixed.symm⟩
    · exact absurd ⟨X,hX.symm⟩ huser
    · exact absurd ⟨V,hV.symm⟩ hurl

theorem parse_args_iff_sample : ∃ out, parseArgs (some (bytes "url=b" ++ [0])) [] [] = some out ∧
    ParsesAs (bytes "url=b") [] [] out := by
  have hsplit : bytes "url=b" = bytes "url=" ++ bytes "b" := rfl
  refine (parse_args_iff (by decide) (by simp [bytes,isSpace]) [] [] []).mpr ⟨fun U V h => ?_,fun X hX => ?_,
    fun V hV => ?_⟩
  · exact user_ne_url _ _ (h.prefixed.symm.trans hsplit)
  · exact absurd (hX.symm.trans hsplit) (user_ne_url _ _)
  · rw [← List.append_cancel_left (hsplit.symm.trans hV)]
    decide

/-- The query with a user and a url is refused. -/
theorem user_form_refused : UserForm (bytes "user=a&url=b") (bytes "a") (bytes "b") ∧
    parseArgs (some (bytes "user=a&url=b" ++ [0])) [] [] = some (false,[],[]) ∧
    ¬ ParsesAs (bytes "user=a&url=b") [] [] (false,[],[]) := by
  have hform : UserForm (bytes "user=a&url=b") (bytes "a") (bytes "b") := ⟨by decide,by decide,by decide⟩
  refine ⟨hform,by decide,fun h => ?_⟩
  exact absurd (congrArg Prod.fst (h.both _ _ hform)) Bool.false_ne_true

/-- What can stand behind the query in the request buffer. -/
def Behind (X : Bytes) : Prop := ∃ b rest, X = b :: rest ∧ b ∈ [32,13,10,35]

/-- Whatever stands behind it, the query `A` is parsed alike. -/
def ReadsQueryOnly (A user url : Bytes) : Prop :=
  ∀ X Y, Behind X → Behind Y → ∃ out,
    parseArgs (some (A ++ X)) user url = some out ∧ parseArgs (some (A ++ Y)) user url = some out

def Contained (A name : Bytes) (size : Nat) : Prop :=
  ∀ B, cString A = name ++ B →
    (0 ∈ A ∨ ∃ b ∈ B.dropWhile isSpace, isSpace b = true) ∧ (word B).length < size

section
variable {A name B : Bytes} (hA : cString A = name ++ B)
include hA

theorem word_behind_of_ended (h : 0 ∈ A ∨ ∃ b ∈ B.dropWhile isSpace, isSpace b = true) (X : Bytes) :
    ∃ B', cString (A ++ X) = name ++ B' ∧ word B' = word B := by
  by_cases hnul : 0 ∈ A
  · exact ⟨B,by rw [cString_append_of_mem hnul,hA],rfl⟩
  · refine ⟨B ++ cString X,?_,word_append_of_ended (h.resolve_left hnul) _⟩
    rw [cString_append_of_notMem hnul,← cString_of_notMem hnul,hA,List.append_assoc]

theorem word_behind_of_open (h : ¬ (0 ∈ A ∨ ∃ b ∈ B.dropWhile isSpace, isSpace b = true)) {X : Bytes}
    (hX : ∀ b ∈ X, isSpace b = false ∧ b ≠ 0) :
    cString (A ++ X) = name ++ (B ++ X) ∧ word (B ++ X) = B.dropWhile isSpace ++ X := by
  obtain ⟨hnul,hopen⟩ := not_or.mp h
  have hX0 : 0 ∉ X := fun h0 => (hX 0 h0).2 rfl
  constructor
  · rw [cString_append_of_notMem hnul,cString_of_notMem hX0,← cString_of_notMem hnul,hA,List.append_assoc]
  · refine word_append_of_open (fun b hb => ?_) (fun b hb => (hX b hb).1)
    exact Bool.eq_false_iff.mpr (fun hspace => hopen ⟨b,hb,hspace⟩)

end

/-- A name that ends behind the query would hold a byte that stands there. -/
theorem prefix_of_behind {A name X : Bytes} (hX : Behind X) (hname : ∀ b ∈ name, b ∉ [32,13,10,35])
    (h : name <+: cString (A ++ X)) : name <+: cString A := by
  by_cases hnul : 0 ∈ A
  · rwa [cString_append_of_mem hnul] at h
  · obtain ⟨b,rest,rfl,hb⟩ := hX
    have hb0 : b ≠ 0 := by
      rintro rfl
      exact absurd hb (by decide)
    have hnext : cString (b :: rest) = b :: cString rest := by simp [cString,hb0]
    have hname' : b ∉ name := fun hmem => hname b hmem hb
    rwa [cString_append_of_notMem hnul,hnext,prefix_append_of_notMem hname',← cString_of_notMem hnul] at h

theorem readsQueryOnly_of_contained {A : Bytes} (huser : Contained A (bytes "user=") 128)
    (hurl : Contained A (bytes "url=") 1024) (user url : Bytes) :
    ∃ out, ∀ X, Behind X → parseArgs (some (A ++ X)) user url = some out := by
  cases leading (cString A) with
  | user B hB =>
    obtain ⟨hend,hlen⟩ := huser B hB
    refine ⟨(false,user,url),fun X _ => ?_⟩
    obtain ⟨B',hB',hword⟩ := word_behind_of_ended hB hend X
    rw [parseArgs_user user url hB',hword,if_pos hlen]
  | url B hB =>
    obtain ⟨hend,hlen⟩ := hurl B hB
    refine ⟨if word B = [] then (false,user,url) else (true,user,word B),fun X _ => ?_⟩
    obtain ⟨B',hB',hword⟩ := word_behind_of_ended hB hend X
    rw [parseArgs_url user url hB',hword,if_pos hlen]
    split_ifs <;> rfl
  | other hu hv =>
    refine ⟨(false,user,url),fun X hX => ?_⟩
    apply parseArgs_other
    · exact fun h => hu (prefix_of_behind hX (by simp [bytes]) h)
    · exact fun h => hv (prefix_of_behind hX (by simp [bytes]) h)

private theorem behind_hash (rest : Bytes) : Behind (35 :: rest) := ⟨35,rest,rfl,by decide⟩

section
variable {A user url : Bytes} (h : ReadsQueryOnly A user url)
include h

private theorem defined_behind {X : Bytes} (hX : Behind X) : ∃ out, parseArgs (some (A ++ X)) user url = some out := by
  obtain ⟨out,hout,-⟩ := h X X hX hX
  exact ⟨out,hout⟩

/-- A value that runs on is made too long for its buffer by what follows. -/
theorem user_contained : Contained A (bytes "user=") 128 := by
  intro B hB
  have hend : 0 ∈ A ∨ ∃ b ∈ B.dropWhile isSpace, isSpace b = true := by
    by_contra hopen
    have hlong : ∀ b ∈ 35 :: List.replicate 128 (97 : UInt8), isSpace b = false ∧ b ≠ 0 := by
      simp [isSpace]
    obtain ⟨hmem,hword⟩ := word_behind_of_open hB hopen hlong
    obtain ⟨out,hout⟩ := defined_behind h (behind_hash (List.replicate 128 97))
    rw [parseArgs_user user url hmem,hword] at hout
    split_ifs at hout with hlen
    simp only [List.length_append,List.length_cons,List.length_replicate] at hlen
    omega
  refine ⟨hend,?_⟩
  obtain ⟨B',hB',hword⟩ := word_behind_of_ended hB hend [35]
  obtain ⟨out,hout⟩ := defined_behind h (behind_hash [])
  rw [parseArgs_user user url hB',hword] at hout
  split_ifs at hout with hlen
  exact hlen

/-- A value that runs on takes up one byte or two that follow. -/
theorem url_contained : Contained A (bytes "url=") 1024 := by
  intro B hB
  have hend : 0 ∈ A ∨ ∃ b ∈ B.dropWhile isSpace, isSpace b = true := by
    by_contra hopen
    obtain ⟨hmem,hword⟩ := word_behind_of_open hB hopen (X := [35]) (by simp [isSpace])
    obtain ⟨hmem',hword'⟩ := word_behind_of_open hB hopen (X := [35,35]) (by simp [isSpace])
    obtain ⟨out,hout,hout'⟩ := h [35] [35,35] (behind_hash _) (behind_hash _)
    rw [parseArgs_url user url hmem,hword] at hout
    rw [parseArgs_url user url hmem',hword'] at hout'
    simp only [List.append_eq_nil_iff,List.cons_ne_nil,and_false,if_false] at hout hout'
    split_ifs at hout hout'
    have hurls := congrArg (fun o => o.map (fun r => r.2.2.length)) (hout.trans hout'.symm)
    simp at hurls
  refine ⟨hend,?_⟩
  obtain ⟨B',hB',hword⟩ := word_behind_of_ended hB hend [35]
  obtain ⟨out,hout⟩ := defined_behind h (behind_hash [])
  rw [parseArgs_url user url hB',hword] at hout
  split_ifs at hout with hnil hlen
  · simp [hnil]
  · exact hlen

end

/-- The parse depends on the query alone exactly when a value behind `user=` or
`url=` ends within the query and fits its buffer. -/
theorem query_only_iff (A user url : Bytes) :
    ReadsQueryOnly A user url ↔ Contained A (bytes "user=") 128 ∧ Contained A (bytes "url=") 1024 := by
  constructor
  · exact fun h => ⟨user_contained h,url_contained h⟩
  · rintro ⟨huser,hurl⟩ X Y hX hY
    obtain ⟨out,hout⟩ := readsQueryOnly_of_contained huser hurl user url
    exact ⟨out,hout X hX,hout Y hY⟩

/-- The fragment of the request line becomes part of the url. -/
theorem fragment_read : Behind (bytes " HTTP/1.1" ++ [13,10,0]) ∧ Behind (bytes "#b HTTP/1.1" ++ [13,10,0]) ∧
    parseArgs (some (bytes "url=a" ++ (bytes " HTTP/1.1" ++ [13,10,0]))) [] [] = some (true,[],bytes "a") ∧
    parseArgs (some (bytes "url=a" ++ (bytes "#b HTTP/1.1" ++ [13,10,0]))) [] [] = some (true,[],bytes "a#b") ∧
    ¬ ReadsQueryOnly (bytes "url=a") [] [] := by
  have hspace : Behind (bytes " HTTP/1.1" ++ [13,10,0]) := ⟨32,_,rfl,by decide⟩
  have hhash : Behind (bytes "#b HTTP/1.1" ++ [13,10,0]) := ⟨35,_,rfl,by decide⟩
  refine ⟨hspace,hhash,by decide,by decide,fun h => ?_⟩
  obtain ⟨out,hout,hout'⟩ := h _ _ hspace hhash
  exact absurd (hout.trans hout'.symm) (by decide)

end Aret.Http
