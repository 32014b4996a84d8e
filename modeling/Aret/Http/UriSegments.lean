import Aret.Http.ComplexUri
import Mathlib.Tactic.SplitIfs

/-! The complex uri read in two passes: first the escapes are undone up to the
query or the fragment, then the path is taken segment by segment, where `.` and
`..` act on the segments before them. The one-pass parse gives the same. -/
namespace Aret.Http
open Lib

/-- The value of a hexadecimal digit in either case. -/
def hexValue (ch : UInt8) : Option UInt8 :=
  if 48 ≤ ch ∧ ch ≤ 57 then some (ch - 48)
  else if 97 ≤ ch ∧ ch ≤ 102 then some (ch - 87)
  else if 65 ≤ ch ∧ ch ≤ 70 then some (ch - 55)
  else none

/-- A path without escapes, whether it had any, and what follows a question mark. -/
structure Unescaped where
  path : Bytes
  escaped : Bool
  query : Option Bytes
  deriving DecidableEq, Repr

def Unescaped.push (ch : UInt8) (u : Unescaped) : Unescaped := { u with path := ch :: u.path }

/-- The first pass. An escape stands for a byte of a name, whichever byte it is; one
that is cut off by the end is dropped; a NUL byte is refused. -/
def unescape : Bytes → Option Unescaped
  | [] => some ⟨[],false,none⟩
  | ch :: rest =>
    if ch = 63 then some ⟨[],false,some rest⟩
    else if ch = 35 then some ⟨[],false,none⟩
    else if ch = 37 then
      match rest with
      | [] => some ⟨[],false,none⟩
      | [a] => (hexValue a).map fun _ => ⟨[],true,none⟩
      | a :: b :: rest =>
        match hexValue a,hexValue b with
        | some x,some y =>
          if 16 * x + y = 0 then none
          else (unescape rest).map fun u => { u.push (16 * x + y) with escaped := true }
        | _,_ => none
    else (unescape rest).map (Unescaped.push ch)

/-- The second pass, for a segment that a slash has ended: `..` takes back the last
name, and with it an empty one that follows it. -/
def closeSegment (mergeSlashes : Bool) (dirs : List Bytes) (segment : Bytes) : Option (List Bytes) :=
  if segment = [] then some (if mergeSlashes then dirs else [] :: dirs)
  else if segment = [46] then some dirs
  else if segment = [46,46] then
    match dirs with
    | [] => none
    | [] :: [] => none
    | [] :: _ :: dirs => some dirs
    | _ :: dirs => some dirs
  else some (segment :: dirs)

/-- The segments that stay, the last one first, and the one no slash has ended. -/
def resolve (mergeSlashes : Bool) (path : Bytes) : Option (List Bytes × Bytes) :=
  ((path.splitOn 47).dropLast.foldlM (closeSegment mergeSlashes) []).map fun dirs =>
    (dirs,(path.splitOn 47).getLastD [])

/-- What follows the last dot of a name, unless only a dot or two stand before it. -/
def extension (name : Bytes) : Option Bytes :=
  match name.reverse.dropWhile (· ≠ 46) with
  | [] => none
  | _ :: front => if front.reverse ∈ [[],[46],[46,46]] then none else some (name.reverse.takeWhile (· ≠ 46)).reverse

/-- A query up to a fragment is kept as `args`, a whole one as `args_start`. -/
def ParsedUri.withQuery (r : ParsedUri) : Option Bytes → ParsedUri
  | none => r
  | some rest =>
    if rest.contains 35 then { r with args := some (rest.takeWhile (· ≠ 35)) } else { r with argsStart := some rest }

/-- Both passes together, over what follows the first slash. -/
def normalUri (mergeSlashes : Bool) (rest : Bytes) (plusInUri quotedUri : Bool) : Option ParsedUri := do
  let u ← unescape rest
  let (dirs,last) ← resolve mergeSlashes u.path
  let r : ParsedUri := ⟨47 :: [47].intercalate (dirs.reverse ++ [last]),extension last,none,none,
    plusInUri || u.path.contains 43,quotedUri || u.escaped⟩
  some (r.withQuery u.query)

/-- What has been written when `dirs` are closed, last byte first. -/
def written : List Bytes → Bytes
  | [] => [47]
  | d :: dirs => 47 :: (d.reverse ++ written dirs)

def stateOf (cur : Bytes) : UriState :=
  if cur = [] then .slash else if cur = [46] then .dot else if cur = [46,46] then .dotDot else .usual

def bufOf (dirs : List Bytes) (cur : Bytes) (plusInUri quotedUri : Bool) : UriBuf :=
  ⟨cur.reverse ++ written dirs,
    (extension cur).map (fun e => (cur.reverse ++ written dirs).length - e.length),plusInUri,quotedUri⟩

theorem usual_special : usual 35 = false ∧ usual 37 = false ∧ usual 43 = false ∧ usual 46 = false ∧
    usual 47 = false ∧ usual 63 = false := by decide

theorem stateOf_cases (cur : Bytes) : cur = [] ∨ cur = [46] ∨ cur = [46,46] ∨ stateOf cur = .usual := by
  unfold stateOf
  split_ifs with h0 h1 h2
  · exact .inl h0
  · exact .inr (.inl h1)
  · exact .inr (.inr (.inl h2))
  · exact .inr (.inr (.inr rfl))

theorem stateOf_eq_usual_iff {cur : Bytes} : stateOf cur = .usual ↔ cur ∉ [[],[46],[46,46]] := by
  unfold stateOf
  split_ifs <;> simp_all

theorem extension_snoc_dot (cur : Bytes) :
    extension (cur ++ [46]) = if cur ∈ [[],[46],[46,46]] then none else some [] := by
  unfold extension
  rw [List.reverse_append]
  simp

theorem extension_snoc {ch : UInt8} (hch : ch ≠ 46) (cur : Bytes) :
    extension (cur ++ [ch]) = (extension cur).map (· ++ [ch]) := by
  unfold extension
  rw [List.reverse_append,List.reverse_singleton,List.singleton_append,List.dropWhile_cons_of_pos (by simpa using hch),
    List.takeWhile_cons_of_pos (by simpa using hch),List.reverse_cons]
  split
  · rfl
  · split_ifs <;> rfl

theorem stateOf_snoc {ch : UInt8} (hch : ch ≠ 46) (cur : Bytes) : stateOf (cur ++ [ch]) = .usual := by
  rcases stateOf_cases (cur ++ [ch]) with h | h | h | h
  · simp at h
  · simpa [hch] using congrArg List.getLast? h
  · simpa [hch] using congrArg List.getLast? h
  · exact h

theorem stateOf_snoc_dot {cur : Bytes} (hcur : stateOf cur = .usual) : stateOf (cur ++ [46]) = .usual := by
  rcases stateOf_cases (cur ++ [46]) with h | h | h | h
  · simp at h
  · have hfront : cur = [] := by simpa using congrArg List.dropLast h
    simp [hfront,stateOf] at hcur
  · have hfront : cur = [46] := by simpa using congrArg List.dropLast h
    simp [hfront,stateOf] at hcur
  · exact h

theorem bufOf_snoc {ch : UInt8} (hch : ch ≠ 46) (dirs : List Bytes) (cur : Bytes) (plusInUri quotedUri : Bool) :
    bufOf dirs (cur ++ [ch]) plusInUri quotedUri = (bufOf dirs cur plusInUri quotedUri).put ch := by
  have hlen (e : Bytes) : (ch :: (cur.reverse ++ written dirs)).length - (e ++ [ch]).length =
      (cur.reverse ++ written dirs).length - e.length := by simp
  have hrev : (cur ++ [ch]).reverse ++ written dirs = ch :: (cur.reverse ++ written dirs) := by simp
  simp only [bufOf,UriBuf.put,extension_snoc hch,hrev,Option.map_map,Function.comp_def,hlen]

theorem plainTurn_name {ch : UInt8} (hname : ch ∉ ([35,37,46,47,63] : Bytes)) (mergeSlashes : Bool)
    (state : UriState) (b : UriBuf) :
    plainTurn mergeSlashes state ch b =
      .go (.plain .usual) ({ b with plusInUri := b.plusInUri || ch = 43 }.put ch) := by
  simp only [List.mem_cons,List.not_mem_nil,not_or] at hname
  obtain ⟨hfragment,hquote,hdot,hslash,hquery,-⟩ := hname
  by_cases husual : usual ch
  · have hplus : ch ≠ 43 := fun h => by simp [h,usual_special] at husual
    cases state <;> simp [plainTurn,husual,hplus]
  · by_cases hplus : ch = 43 <;> cases state <;> simp_all [plainTurn]

/-- A byte that is neither a slash nor an end joins the segment. -/
theorem plainTurn_snoc {ch : UInt8} (hname : ch ∉ ([35,37,47,63] : Bytes)) (mergeSlashes : Bool)
    (dirs : List Bytes) (cur : Bytes) (plusInUri quotedUri : Bool) :
    plainTurn mergeSlashes (stateOf cur) ch (bufOf dirs cur plusInUri quotedUri) =
      .go (.plain (stateOf (cur ++ [ch]))) (bufOf dirs (cur ++ [ch]) (plusInUri || ch = 43) quotedUri) := by
  by_cases hdot : ch = 46
  · subst hdot
    have hplus : (plusInUri || decide ((46 : UInt8) = 43)) = plusInUri := by simp
    rw [hplus]
    rcases stateOf_cases cur with rfl | rfl | rfl | hcur
    · rfl
    · rfl
    · rfl
    · have hext : extension (cur ++ [46]) = some [] :=
        (extension_snoc_dot cur).trans (if_neg (stateOf_eq_usual_iff.mp hcur))
      simp [plainTurn,usual_special,hcur,stateOf_snoc_dot,bufOf,UriBuf.put,hext]
  · have hfree : ch ∉ ([35,37,46,47,63] : Bytes) := by
      simpa [hdot] using hname
    rw [stateOf_snoc hdot,bufOf_snoc hdot,plainTurn_name hfree]
    rfl

theorem dropWhile_written {d : Bytes} (hd : 47 ∉ d) (dirs : List Bytes) :
    (d ++ written dirs).dropWhile (· ≠ 47) = written dirs := by
  have hne : ∀ b ∈ d, decide (b ≠ 47) = true := by
    intro b hb
    simp only [ne_eq,decide_eq_true_eq]
    rintro rfl
    exact hd hb
  rw [List.dropWhile_append_of_pos hne]
  cases dirs <;> simp [written]

/-- `..` goes back over the name before it, one byte of which `u -= 5` has skipped. -/
theorem backToSlash_written {dirs : List Bytes} (hdirs : ∀ d ∈ dirs, 47 ∉ d) (mergeSlashes : Bool) :
    backToSlash (46 :: 46 :: written dirs) = (closeSegment mergeSlashes dirs [46,46]).map written := by
  have hsome (out d : Bytes) (dirs : List Bytes) (hd : 47 ∉ d) (hout : out.drop 4 = d ++ written dirs) :
      backToSlash out = some (written dirs) := by
    rw [backToSlash,hout,dropWhile_written hd]
    cases dirs <;> rfl
  match dirs with
  | [] => rfl
  | [] :: [] => rfl
  | [] :: d :: dirs =>
    have hd : 47 ∉ d.reverse := by simpa using hdirs d (by simp)
    exact hsome _ d.reverse dirs hd rfl
  | (a :: d) :: dirs =>
    have hd : 47 ∉ (a :: d).reverse.tail :=
      fun h => hdirs (a :: d) (by simp) (List.mem_reverse.mp (List.mem_of_mem_tail h))
    have htail : written ((a :: d) :: dirs) = 47 :: ((a :: d).reverse ++ written dirs) := rfl
    refine hsome _ (a :: d).reverse.tail dirs hd ?_
    rw [htail,List.drop_succ_cons,List.drop_succ_cons,List.drop_succ_cons,List.drop_one,
      List.tail_append_of_ne_nil (by simp)]

theorem plainTurn_slash {dirs : List Bytes} (hdirs : ∀ d ∈ dirs, 47 ∉ d) (mergeSlashes : Bool)
    (cur : Bytes) (plusInUri quotedUri : Bool) :
    plainTurn mergeSlashes (stateOf cur) 47 (bufOf dirs cur plusInUri quotedUri) =
      match closeSegment mergeSlashes dirs cur with
      | some dirs => .go (.plain .slash) (bufOf dirs [] plusInUri quotedUri)
      | none => .invalid := by
  rcases stateOf_cases cur with rfl | rfl | rfl | hcur
  · cases mergeSlashes <;> rfl
  · rfl
  · have hback := backToSlash_written hdirs mergeSlashes
    cases hclose : closeSegment mergeSlashes dirs [46,46] with
    | none =>
      rw [hclose] at hback
      simp [plainTurn,stateOf,usual_special,bufOf,hback]
    | some dirs =>
      rw [hclose] at hback
      simp [plainTurn,stateOf,usual_special,bufOf,hback]
      rfl
  · have hclose : closeSegment mergeSlashes dirs cur = some (cur :: dirs) := by
      rw [stateOf_eq_usual_iff] at hcur
      simp_all [closeSegment]
    rw [hclose,hcur]
    simp [plainTurn,usual_special,bufOf,UriBuf.put,written]
    rfl

theorem hexValue_decimal {ch : UInt8} (hch : 48 ≤ ch ∧ ch ≤ 57) : hexValue ch = some (ch - 48) := if_pos hch

theorem hexValue_letter (ch : UInt8) (hch : ¬ (48 ≤ ch ∧ ch ≤ 57)) :
    hexValue ch = if 97 ≤ ch ||| 0x20 ∧ ch ||| 0x20 ≤ 102 then some ((ch ||| 0x20) - 97 + 10) else none := by
  have h : ∀ n : Fin 256, ¬ (48 ≤ UInt8.ofNat n ∧ UInt8.ofNat n ≤ 57) → hexValue (.ofNat n) =
      if 97 ≤ UInt8.ofNat n ||| 0x20 ∧ UInt8.ofNat n ||| 0x20 ≤ 102 then some ((UInt8.ofNat n ||| 0x20) - 97 + 10)
      else none := by decide +kernel
  simpa using h ⟨ch.toNat,ch.toNat_lt⟩ (by simpa using hch)

theorem uriTurn_quoted (mergeSlashes : Bool) (state : UriState) (ch : UInt8) (b : UriBuf) :
    uriTurn mergeSlashes (.quoted state) ch b =
      match hexValue ch with
      | some x => .go (.quotedSecond state x) { b with quotedUri := true }
      | none => .invalid := by
  by_cases hdecimal : 48 ≤ ch ∧ ch ≤ 57
  · rw [hexValue_decimal hdecimal]
    simp [uriTurn,hdecimal]
  · rw [hexValue_letter ch hdecimal]
    by_cases hletter : 97 ≤ ch ||| 0x20 ∧ ch ||| 0x20 ≤ 102 <;> simp [uriTurn,hdecimal,hletter]

/-- The two branches for the second digit: a number ends in less than ten, a letter in
ten or more. -/
theorem hexValue_second {ch y : UInt8} (hch : hexValue ch = some y) (x : UInt8) :
    (48 ≤ ch ∧ ch ≤ 57) ∧ (x <<< 4) + ch - 48 = 16 * x + y ∧ (16 * x + y).toNat % 16 < 10 ∨
    ¬ (48 ≤ ch ∧ ch ≤ 57) ∧ (97 ≤ ch ||| 0x20 ∧ ch ||| 0x20 ≤ 102) ∧
      (x <<< 4) + (ch ||| 0x20) - 97 + 10 = 16 * x + y ∧ 10 ≤ (16 * x + y).toNat % 16 := by
  have hshift : x <<< 4 = 16 * x := by
    have h : ∀ n : Fin 256, UInt8.ofNat n <<< 4 = 16 * UInt8.ofNat n := by decide +kernel
    simpa using h ⟨x.toNat,x.toNat_lt⟩
  have hlow : (16 * x + y).toNat % 16 = y.toNat % 16 := by
    simp only [UInt8.toNat_add,UInt8.toNat_mul,UInt8.reduceToNat]
    omega
  rw [hlow]
  by_cases hdecimal : 48 ≤ ch ∧ ch ≤ 57
  · left
    rw [hexValue_decimal hdecimal] at hch
    obtain rfl := Option.some.inj hch
    refine ⟨hdecimal,by grind,?_⟩
    rw [UInt8.le_iff_toNat_le,UInt8.le_iff_toNat_le] at hdecimal
    rw [UInt8.toNat_sub_of_le _ _ (UInt8.le_iff_toNat_le.mpr hdecimal.1)]
    simp only [UInt8.reduceToNat] at hdecimal ⊢
    omega
  · right
    rw [hexValue_letter ch hdecimal] at hch
    split_ifs at hch with hletter
    generalize ch ||| 0x20 = c at hch hletter
    obtain rfl := Option.some.inj hch
    refine ⟨hdecimal,hletter,by grind,?_⟩
    rw [UInt8.le_iff_toNat_le,UInt8.le_iff_toNat_le] at hletter
    rw [UInt8.toNat_add,UInt8.toNat_sub_of_le _ _ (UInt8.le_iff_toNat_le.mpr hletter.1)]
    simp only [UInt8.reduceToNat] at hletter ⊢
    omega

/-- What a byte of a name or a slash does, wherever the byte comes from. -/
def literalTurn (mergeSlashes : Bool) (dirs : List Bytes) (cur : Bytes) (plusInUri quotedUri : Bool)
    (ch : UInt8) : UriTurn :=
  if ch = 47 then
    match closeSegment mergeSlashes dirs cur with
    | some dirs => .go (.plain (stateOf [])) (bufOf dirs [] plusInUri quotedUri)
    | none => .invalid
  else .go (.plain (stateOf (cur ++ [ch]))) (bufOf dirs (cur ++ [ch]) (plusInUri || ch = 43) quotedUri)

section
variable {dirs : List Bytes} (hdirs : ∀ d ∈ dirs, 47 ∉ d) (mergeSlashes : Bool) (cur : Bytes)
  (plusInUri quotedUri : Bool)
include hdirs

theorem plainTurn_literal {ch : UInt8} (hch : ch ∉ ([35,37,63] : Bytes)) :
    plainTurn mergeSlashes (stateOf cur) ch (bufOf dirs cur plusInUri quotedUri) =
      literalTurn mergeSlashes dirs cur plusInUri quotedUri ch := by
  rw [literalTurn]
  split_ifs with hslash
  · rw [hslash]
    exact plainTurn_slash hdirs mergeSlashes cur plusInUri quotedUri
  · refine plainTurn_snoc ?_ mergeSlashes dirs cur plusInUri quotedUri
    simpa [hslash] using hch

omit hdirs in
/-- An escaped byte that would end the path is a byte of a name. -/
theorem literalTurn_end {ch : UInt8} (hch : ch ∈ ([35,37,63] : Bytes)) :
    literalTurn mergeSlashes dirs cur plusInUri quotedUri ch =
      .go (.plain .usual) ((bufOf dirs cur plusInUri quotedUri).put ch) := by
  have hne : ch ≠ 47 ∧ ch ≠ 46 ∧ ch ≠ 43 := by
    simp only [List.mem_cons,List.not_mem_nil,or_false] at hch
    rcases hch with rfl | rfl | rfl <;> decide
  rw [literalTurn,if_neg hne.1,stateOf_snoc hne.2.1,bufOf_snoc hne.2.1]
  simp [hne.2.2]

theorem uriTurn_quotedSecond (x ch : UInt8) :
    uriTurn mergeSlashes (.quotedSecond (stateOf cur) x) ch (bufOf dirs cur plusInUri quotedUri) =
      match hexValue ch with
      | some y =>
        if 16 * x + y = 0 then .invalid else literalTurn mergeSlashes dirs cur plusInUri quotedUri (16 * x + y)
      | none => .invalid := by
  cases hch : hexValue ch with
  | none =>
    have hdecimal : ¬ (48 ≤ ch ∧ ch ≤ 57) := fun h => by simp [hexValue_decimal h] at hch
    have hletter : ¬ (97 ≤ ch ||| 0x20 ∧ ch ||| 0x20 ≤ 102) := fun h => by
      simp [hexValue_letter ch hdecimal,h] at hch
    simp [uriTurn,hdecimal,hletter]
  | some y =>
    rcases hexValue_second hch x with ⟨hdecimal,hvalue,hlow⟩ | ⟨hdecimal,hletter,hvalue,hlow⟩
    · simp only [uriTurn,if_pos hdecimal,hvalue]
      generalize 16 * x + y = n at hlow
      have hquery : n ≠ 63 := fun h => absurd hlow (h ▸ by decide)
      by_cases hname : n = 37 ∨ n = 35
      · have hnul : n ≠ 0 := fun h => absurd hname (h ▸ by decide)
        rw [if_pos hname,if_neg hnul,literalTurn_end mergeSlashes cur plusInUri quotedUri
          (by simpa [hquery,or_comm] using hname)]
      · rw [if_neg hname]
        split_ifs
        · rfl
        · exact plainTurn_literal hdirs mergeSlashes cur plusInUri quotedUri (by simpa [hquery,or_comm] using hname)
    · simp only [uriTurn,if_neg hdecimal,if_pos hletter,hvalue]
      generalize 16 * x + y = n at hlow
      have hname : n ≠ 37 ∧ n ≠ 35 ∧ n ≠ 0 :=
        ⟨fun h => absurd hlow (h ▸ by decide),fun h => absurd hlow (h ▸ by decide),fun h => absurd hlow (h ▸ by decide)⟩
      rw [if_neg hname.2.2]
      by_cases hquery : n = 63
      · rw [if_pos hquery,literalTurn_end mergeSlashes cur plusInUri quotedUri (by simp [hquery])]
      · have hend : n ∉ ([35,37,63] : Bytes) := by simp [hname,hquery]
        rw [if_neg hquery,← plainTurn_literal hdirs mergeSlashes cur plusInUri quotedUri hend]
        split_ifs with hplus
        · have hfree : n ∉ ([35,37,46,47,63] : Bytes) := by simp [hplus]
          rw [plainTurn_name hfree,plainTurn_name hfree]
          simp [hplus]
        · rfl

end

def settle (mergeSlashes : Bool) (dirs : List Bytes) (cur : Bytes) (plusInUri quotedUri : Bool)
    (u : Unescaped) : Option ParsedUri :=
  (((cur ++ u.path).splitOn 47).dropLast.foldlM (closeSegment mergeSlashes) dirs).map fun dirs =>
    let last := ((cur ++ u.path).splitOn 47).getLastD []
    (⟨47 :: [47].intercalate (dirs.reverse ++ [last]),extension last,none,none,
      plusInUri || u.path.contains 43,quotedUri || u.escaped⟩ : ParsedUri).withQuery u.query

theorem settle_push {cur : Bytes} (hcur : 47 ∉ cur) (mergeSlashes : Bool) (dirs : List Bytes)
    (plusInUri quotedUri : Bool) (ch : UInt8) (u : Unescaped) :
    settle mergeSlashes dirs cur plusInUri quotedUri (u.push ch) =
      if ch = 47 then (closeSegment mergeSlashes dirs cur).bind fun dirs =>
        settle mergeSlashes dirs [] plusInUri quotedUri u
      else settle mergeSlashes dirs (cur ++ [ch]) (plusInUri || ch = 43) quotedUri u := by
  split_ifs with hslash
  · subst hslash
    have hsplit : (cur ++ 47 :: u.path).splitOn 47 = cur :: u.path.splitOn 47 :=
      List.splitOn_append_cons_self_of_not_mem hcur u.path
    have hne := List.splitOn_ne_nil 47 u.path
    have hdrop : (cur :: u.path.splitOn 47).dropLast = cur :: (u.path.splitOn 47).dropLast :=
      List.dropLast_cons_of_ne_nil hne
    have hlast : (cur :: u.path.splitOn 47).getLastD [] = (u.path.splitOn 47).getLastD [] := by
      simp [List.getLastD_eq_getLast?,List.getLast?_cons,List.getLast?_eq_getLast_of_ne_nil hne]
    simp only [settle,Unescaped.push,hsplit,hdrop,hlast,List.foldlM_cons,List.nil_append]
    cases closeSegment mergeSlashes dirs cur <;> simp
  · simp [settle,Unescaped.push,Bool.or_assoc,eq_comm]

theorem intercalate_written (dirs : List Bytes) (cur : Bytes) :
    (cur.reverse ++ written dirs).reverse = 47 :: [47].intercalate (dirs.reverse ++ [cur]) := by
  have happend (front : List Bytes) : 47 :: [47].intercalate (front ++ [cur]) =
      front.flatMap (fun d => 47 :: d) ++ 47 :: cur := by
    induction front with
    | nil => simp
    | cons d front ih =>
      rw [List.cons_append,List.intercalate_cons_of_ne_nil (by simp),List.append_assoc,List.singleton_append,ih]
      simp
  have hwritten : (written dirs).reverse = dirs.reverse.flatMap (fun d => 47 :: d) ++ [47] := by
    induction dirs with
    | nil => rfl
    | cons d dirs ih => simp [written,ih]
  rw [happend,List.reverse_append,List.reverse_reverse,hwritten,List.append_assoc,List.singleton_append]

theorem extension_suffix {name e : Bytes} (he : extension name = some e) : e <:+ name := by
  unfold extension at he
  split at he
  · cases he
  · split_ifs at he
    obtain rfl := Option.some.inj he
    rw [← List.reverse_prefix,List.reverse_reverse]
    exact List.takeWhile_prefix _

theorem uriDone_bufOf (dirs : List Bytes) (cur : Bytes) (plusInUri quotedUri : Bool) :
    uriDone (bufOf dirs cur plusInUri quotedUri) =
      ⟨47 :: [47].intercalate (dirs.reverse ++ [cur]),extension cur,none,none,plusInUri,quotedUri⟩ := by
  have hext : (extension cur).map (fun e => (cur.reverse ++ written dirs).reverse.drop
      ((cur.reverse ++ written dirs).length - e.length)) = extension cur := by
    cases he : extension cur with
    | none => rfl
    | some e =>
      obtain ⟨front,rfl⟩ := extension_suffix he
      have hsplit : ((front ++ e).reverse ++ written dirs).reverse = ((written dirs).reverse ++ front) ++ e := by simp
      have hlen : ((front ++ e).reverse ++ written dirs).length - e.length =
          ((written dirs).reverse ++ front).length := by
        simp only [List.length_append,List.length_reverse]
        omega
      rw [Option.map_some,hsplit,hlen,List.drop_left]
  rw [intercalate_written] at hext
  simp only [uriDone,bufOf,intercalate_written,Option.map_map,Function.comp_def]
  rw [hext]

theorem closeSegment_mem {mergeSlashes : Bool} {dirs dirs' : List Bytes} {segment d : Bytes}
    (hclose : closeSegment mergeSlashes dirs segment = some dirs') (hd : d ∈ dirs') :
    d = segment ∧ d ≠ [46] ∧ d ≠ [46,46] ∧ (mergeSlashes = true → d ≠ []) ∨ d ∈ dirs := by
  unfold closeSegment at hclose
  split_ifs at hclose with hempty hmerge hdot hdots
  · obtain rfl := Option.some.inj hclose
    exact .inr hd
  · obtain rfl := Option.some.inj hclose
    rcases List.mem_cons.mp hd with rfl | hd
    · exact .inl ⟨hempty.symm,by decide,by decide,fun h => absurd h hmerge⟩
    · exact .inr hd
  · obtain rfl := Option.some.inj hclose
    exact .inr hd
  · split at hclose
    · cases hclose
    · cases hclose
    · obtain rfl := Option.some.inj hclose
      exact .inr (List.mem_cons_of_mem _ (List.mem_cons_of_mem _ hd))
    · obtain rfl := Option.some.inj hclose
      exact .inr (List.mem_cons_of_mem _ hd)
  · obtain rfl := Option.some.inj hclose
    rcases List.mem_cons.mp hd with rfl | hd
    · exact .inl ⟨rfl,hdot,hdots,fun _ => hempty⟩
    · exact .inr hd

theorem closeSegment_free {mergeSlashes : Bool} {dirs dirs' : List Bytes} {segment : Bytes}
    (hclose : closeSegment mergeSlashes dirs segment = some dirs') (hsegment : 47 ∉ segment)
    (hdirs : ∀ d ∈ dirs, 47 ∉ d) : ∀ d ∈ dirs', 47 ∉ d := by
  intro d hd
  rcases closeSegment_mem hclose hd with ⟨rfl,-⟩ | hd
  · exact hsegment
  · exact hdirs d hd

/-- What the loop does behind a turn. -/
def afterTurn (mergeSlashes : Bool) (rest : Bytes) : UriTurn → Option ParsedUri
  | .go state b => complexUriLoop mergeSlashes state rest b
  | .args b => some (uriArgs b rest)
  | .done b => some (uriDone b)
  | .invalid => none

theorem complexUriLoop_cons (mergeSlashes : Bool) (state : SwState) (ch : UInt8) (rest : Bytes) (b : UriBuf) :
    complexUriLoop mergeSlashes state (ch :: rest) b =
      afterTurn mergeSlashes rest (uriTurn mergeSlashes state ch b) := by
  rw [complexUriLoop]
  cases uriTurn mergeSlashes state ch b <;> rfl

/-- The loop from a segment on, as both passes over what is left. -/
def Settles (mergeSlashes : Bool) (rest : Bytes) : Prop :=
  ∀ dirs cur plusInUri quotedUri, (∀ d ∈ dirs, 47 ∉ d) → 47 ∉ cur →
    complexUriLoop mergeSlashes (.plain (stateOf cur)) rest (bufOf dirs cur plusInUri quotedUri) =
      (unescape rest).bind (settle mergeSlashes dirs cur plusInUri quotedUri)

theorem Settles.literal {mergeSlashes : Bool} {rest : Bytes} (h : Settles mergeSlashes rest) {dirs : List Bytes}
    (hdirs : ∀ d ∈ dirs, 47 ∉ d) {cur : Bytes} (hcur : 47 ∉ cur) (plusInUri quotedUri : Bool) (ch : UInt8) :
    afterTurn mergeSlashes rest (literalTurn mergeSlashes dirs cur plusInUri quotedUri ch) =
      (unescape rest).bind fun u => settle mergeSlashes dirs cur plusInUri quotedUri (u.push ch) := by
  simp only [settle_push hcur,literalTurn]
  split_ifs with hslash
  · cases hclose : closeSegment mergeSlashes dirs cur with
    | none => cases unescape rest <;> rfl
    | some dirs' => exact h dirs' [] plusInUri quotedUri (closeSegment_free hclose hcur hdirs) List.not_mem_nil
  · exact h dirs (cur ++ [ch]) _ quotedUri hdirs (by simpa [hcur] using fun h => hslash h.symm)

theorem unescape_query (rest : Bytes) : unescape (63 :: rest) = some ⟨[],false,some rest⟩ := by
  rw [unescape.eq_def]
  simp

theorem unescape_fragment (rest : Bytes) : unescape (35 :: rest) = some ⟨[],false,none⟩ := by
  rw [unescape.eq_def]
  simp

theorem unescape_name {ch : UInt8} (hch : ch ∉ ([35,37,63] : Bytes)) (rest : Bytes) :
    unescape (ch :: rest) = (unescape rest).map (Unescaped.push ch) := by
  simp only [List.mem_cons,List.not_mem_nil,not_or] at hch
  rw [unescape.eq_def]
  simp [hch]

theorem unescape_escape (a c : UInt8) (rest : Bytes) :
    unescape (37 :: a :: c :: rest) = (hexValue a).bind fun x => (hexValue c).bind fun y =>
      if 16 * x + y = 0 then none
      else (unescape rest).map fun u => { u.push (16 * x + y) with escaped := true } := by
  rw [unescape.eq_def]
  cases ha : hexValue a <;> cases hc : hexValue c <;> simp [ha,hc]

theorem complexUriLoop_settles (mergeSlashes : Bool) (rest : Bytes) : Settles mergeSlashes rest := by
  have hstop (dirs : List Bytes) {cur : Bytes} (hcur : 47 ∉ cur) (plusInUri quotedUri escaped : Bool)
      (query : Option Bytes) :
      settle mergeSlashes dirs cur plusInUri quotedUri ⟨[],escaped,query⟩ =
        some ((uriDone (bufOf dirs cur plusInUri (quotedUri || escaped))).withQuery query) := by
    rw [uriDone_bufOf]
    simp [settle,List.splitOn_eq_singleton hcur]
  have hquoted (cur : Bytes) (b : UriBuf) (rest : Bytes) :
      complexUriLoop mergeSlashes (.plain (stateOf cur)) (37 :: rest) b =
        complexUriLoop mergeSlashes (.quoted (stateOf cur)) rest b := by
    have hturn : uriTurn mergeSlashes (.plain (stateOf cur)) 37 b = .go (.quoted (stateOf cur)) b := by
      cases stateOf cur <;> rfl
    rw [complexUriLoop_cons,hturn]
    rfl
  have hescape (dirs : List Bytes) (cur : Bytes) (plusInUri quotedUri : Bool) (a c : UInt8) (rest : Bytes)
      (hdirs : ∀ d ∈ dirs, 47 ∉ d) :
      complexUriLoop mergeSlashes (.plain (stateOf cur)) (37 :: a :: c :: rest) (bufOf dirs cur plusInUri quotedUri) =
        (hexValue a).bind fun x => (hexValue c).bind fun y =>
          if 16 * x + y = 0 then none
          else afterTurn mergeSlashes rest (literalTurn mergeSlashes dirs cur plusInUri true (16 * x + y)) := by
    rw [hquoted,complexUriLoop_cons,uriTurn_quoted]
    cases hexValue a with
    | none => rfl
    | some x =>
      have hsecond := uriTurn_quotedSecond hdirs mergeSlashes cur plusInUri true x c
      simp only [afterTurn,Option.bind_some]
      rw [complexUriLoop_cons,show ({ bufOf dirs cur plusInUri quotedUri with quotedUri := true } : UriBuf) =
        bufOf dirs cur plusInUri true from rfl,hsecond]
      cases hexValue c with
      | none => rfl
      | some y =>
        simp only [Option.bind_some]
        split_ifs <;> rfl
  fun_induction unescape rest with
  | case1 =>
    intro dirs cur plusInUri quotedUri hdirs hcur
    simp [unescape,hstop dirs hcur,complexUriLoop,ParsedUri.withQuery]
  | case2 rest =>
    intro dirs cur plusInUri quotedUri hdirs hcur
    have hturn (b : UriBuf) : uriTurn mergeSlashes (.plain (stateOf cur)) 63 b = .args b := by
      cases stateOf cur <;> rfl
    rw [complexUriLoop_cons,hturn,unescape_query,Option.bind_some,hstop dirs hcur,Bool.or_false]
    rfl
  | case3 rest =>
    intro dirs cur plusInUri quotedUri hdirs hcur
    have hturn (b : UriBuf) : uriTurn mergeSlashes (.plain (stateOf cur)) 35 b = .done b := by
      cases stateOf cur <;> rfl
    rw [complexUriLoop_cons,hturn,unescape_fragment,Option.bind_some,hstop dirs hcur,Bool.or_false]
    rfl
  | case4 =>
    intro dirs cur plusInUri quotedUri hdirs hcur
    rw [hquoted,show unescape [37] = some ⟨[],false,none⟩ from rfl,Option.bind_some,hstop dirs hcur,Bool.or_false]
    rfl
  | case5 a =>
    intro dirs cur plusInUri quotedUri hdirs hcur
    rw [hquoted,complexUriLoop_cons,uriTurn_quoted,
      show unescape [37,a] = (hexValue a).map fun _ => ⟨[],true,none⟩ from rfl]
    cases hexValue a with
    | none => rfl
    | some x =>
      rw [Option.map_some,Option.bind_some,hstop dirs hcur,Bool.or_true]
      rfl
  | case6 a c rest x y hc ha hnul =>
    intro dirs cur plusInUri quotedUri hdirs hcur
    simp [hescape dirs cur plusInUri quotedUri a c rest hdirs,unescape_escape,ha,hc,hnul]
  | case7 a c rest x y hc ha hnul _ _ ih =>
    intro dirs cur plusInUri quotedUri hdirs hcur
    simp [hescape dirs cur plusInUri quotedUri a c rest hdirs,unescape_escape,ha,hc,hnul,ih.literal hdirs hcur]
    cases unescape rest with
    | none => rfl
    | some u => simp [settle,Unescaped.push]
  | case8 a c rest hbad =>
    intro dirs cur plusInUri quotedUri hdirs hcur
    rw [hescape dirs cur plusInUri quotedUri a c rest hdirs,unescape_escape]
    cases ha : hexValue a with
    | none => rfl
    | some x =>
      cases hc : hexValue c with
      | none => rfl
      | some y => exact (hbad x y ha hc).elim
  | case9 ch rest hquery hfragment hquote ih =>
    intro dirs cur plusInUri quotedUri hdirs hcur
    have hends : ch ∉ ([35,37,63] : Bytes) := by simp [hquery,hfragment,hquote]
    rw [complexUriLoop_cons,uriTurn,plainTurn_literal hdirs mergeSlashes cur plusInUri quotedUri hends,
      ih.literal hdirs hcur,unescape_name hends]
    cases unescape rest <;> rfl

theorem complexUri_normal (mergeSlashes : Bool) (rest : Bytes) (plusInUri quotedUri : Bool) :
    parseComplexUri mergeSlashes (47 :: rest) plusInUri quotedUri =
      normalUri mergeSlashes rest plusInUri quotedUri := by
  have hfirst : parseComplexUri mergeSlashes (47 :: rest) plusInUri quotedUri =
      complexUriLoop mergeSlashes (.plain (stateOf [])) rest (bufOf [] [] plusInUri quotedUri) := rfl
  rw [hfirst,complexUriLoop_settles mergeSlashes rest [] [] plusInUri quotedUri (by simp) List.not_mem_nil,normalUri]
  cases unescape rest with
  | none => rfl
  | some u =>
    simp only [Option.bind_some,settle,resolve,List.nil_append,Option.bind_eq_bind]
    cases (u.path.splitOn 47).dropLast.foldlM (closeSegment mergeSlashes) [] <;> rfl

theorem not_mem_of_mem_splitOn {c : UInt8} {s piece : Bytes} (hpiece : piece ∈ s.splitOn c) : c ∉ piece := by
  induction s generalizing piece with
  | nil =>
    rw [List.splitOn_nil,List.mem_singleton] at hpiece
    simp [hpiece]
  | cons a s ih =>
    rw [List.splitOn_cons_eq_if_modifyHead] at hpiece
    split_ifs at hpiece with ha
    · rcases List.mem_cons.mp hpiece with rfl | hpiece
      · exact List.not_mem_nil
      · exact ih hpiece
    · cases hs : s.splitOn c with
      | nil => exact absurd hs (List.splitOn_ne_nil c s)
      | cons first others =>
        rw [hs] at ih hpiece
        rcases List.mem_cons.mp hpiece with rfl | hpiece
        · have hac : c ≠ a := fun h => ha (by simp [h])
          simpa [hac] using ih List.mem_cons_self
        · exact ih (List.mem_cons_of_mem first hpiece)

/-- A name that can stay before a slash. -/
def Kept (mergeSlashes : Bool) (d : Bytes) : Prop :=
  47 ∉ d ∧ d ≠ [46] ∧ d ≠ [46,46] ∧ (mergeSlashes = true → d ≠ [])

theorem closeSegments_kept {mergeSlashes : Bool} {segments dirs dirs' : List Bytes}
    (hsegments : ∀ d ∈ segments, 47 ∉ d) (hdirs : ∀ d ∈ dirs, Kept mergeSlashes d)
    (hclose : segments.foldlM (closeSegment mergeSlashes) dirs = some dirs') : ∀ d ∈ dirs', Kept mergeSlashes d := by
  induction segments generalizing dirs with
  | nil =>
    obtain rfl := Option.some.inj hclose
    exact hdirs
  | cons segment segments ih =>
    rw [List.foldlM_cons] at hclose
    obtain ⟨next,hnext,hclose⟩ := Option.bind_eq_some_iff.mp hclose
    refine ih (fun d hd => hsegments d (List.mem_cons_of_mem segment hd)) (fun d hd => ?_) hclose
    rcases closeSegment_mem hnext hd with ⟨rfl,hkept⟩ | hd
    · exact ⟨hsegments d List.mem_cons_self,hkept⟩
    · exact hdirs d hd

theorem resolve_kept {mergeSlashes : Bool} {path : Bytes} {dirs : List Bytes} {last : Bytes}
    (hresolve : resolve mergeSlashes path = some (dirs,last)) :
    47 ∉ last ∧ ∀ d ∈ dirs, Kept mergeSlashes d := by
  obtain ⟨dirs',hclose,hpair⟩ := Option.map_eq_some_iff.mp hresolve
  obtain ⟨rfl,rfl⟩ := Prod.mk.inj hpair
  have hne := List.splitOn_ne_nil 47 path
  have hlast : (path.splitOn 47).getLastD [] ∈ path.splitOn 47 := by
    rw [List.getLastD_eq_getLast?,List.getLast?_eq_getLast_of_ne_nil hne]
    exact List.getLast_mem hne
  refine ⟨not_mem_of_mem_splitOn hlast,closeSegments_kept (fun d hd => ?_) (by simp) hclose⟩
  exact not_mem_of_mem_splitOn (List.mem_of_mem_dropLast hd)

end Aret.Http
