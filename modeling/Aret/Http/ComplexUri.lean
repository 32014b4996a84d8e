import Aret.Lib.Decimal

/-! `ngx_http_parse_complex_uri`: a uri with escapes, dots or double slashes is
copied byte by byte into a buffer of its own. What has been written is kept last
byte first, so that the moves of the write pointer are moves at the head. -/
namespace Aret.Http
open Lib

def usualWords : List UInt32 :=
  [0xffffdbfe,0x7fff37d6,0xffffffff,0xffffffff,0xffffffff,0xffffffff,0xffffffff,0xffffffff]

def usual (ch : UInt8) : Bool :=
  (usualWords.getD (ch >>> 5).toNat 0) &&& (1 <<< (ch &&& 0x1f).toUInt32) != 0

/-- The states in which a byte is looked at as it is. -/
inductive UriState where
  | usual | slash | dot | dotDot
  deriving DecidableEq, Repr

/-- With the states in which the two digits of an escape are read. -/
inductive SwState where
  | plain (state : UriState)
  | quoted (quotedState : UriState)
  | quotedSecond (quotedState : UriState) (decoded : UInt8)
  deriving DecidableEq, Repr

/-- The bytes from `uri.data` up to `u`, the offset `uri_ext`, and two flags. -/
structure UriBuf where
  out : Bytes
  ext : Option Nat
  plusInUri : Bool
  quotedUri : Bool
  deriving DecidableEq, Repr

def UriBuf.put (b : UriBuf) (ch : UInt8) : UriBuf := { b with out := ch :: b.out }

/-- One pass of the loop: another state, the label `args` or `done`, or an error. -/
inductive UriTurn where
  | go (state : SwState) (b : UriBuf)
  | args (b : UriBuf)
  | done (b : UriBuf)
  | invalid
  deriving DecidableEq, Repr

/-- `u -= 5` and the loop back to a slash; `none` when it runs over the start. -/
def backToSlash (out : Bytes) : Option Bytes :=
  match (out.drop 4).dropWhile (· ≠ 47) with
  | [] => none
  | out => some out

def plainTurn (mergeSlashes : Bool) (state : UriState) (ch : UInt8) (b : UriBuf) : UriTurn :=
  if usual ch then .go (.plain .usual) (b.put ch)
  else if ch = 37 then .go (.quoted state) b
  else if ch = 63 then .args b
  else if ch = 35 then .done b
  else if ch = 43 then .go (.plain .usual) ({ b with plusInUri := true }.put ch)
  else
    match state with
    | .usual =>
      if ch = 47 then .go (.plain .slash) ({ b with ext := none }.put ch)
      else if ch = 46 then .go (.plain .usual) ({ b with ext := some (b.out.length + 1) }.put ch)
      else .go (.plain .usual) (b.put ch)
    | .slash =>
      if ch = 47 then .go (.plain .slash) (if mergeSlashes then b else b.put ch)
      else if ch = 46 then .go (.plain .dot) (b.put ch)
      else .go (.plain .usual) (b.put ch)
    | .dot =>
      if ch = 47 then .go (.plain .slash) { b with out := b.out.tail }
      else if ch = 46 then .go (.plain .dotDot) (b.put ch)
      else .go (.plain .usual) (b.put ch)
    | .dotDot =>
      if ch = 47 then
        match backToSlash b.out with
        | some out => .go (.plain .slash) { b with out }
        | none => .invalid
      else .go (.plain .usual) (b.put ch)

def uriTurn (mergeSlashes : Bool) (state : SwState) (ch : UInt8) (b : UriBuf) : UriTurn :=
  match state with
  | .plain state => plainTurn mergeSlashes state ch b
  | .quoted quotedState =>
    let b := { b with quotedUri := true }
    if 48 ≤ ch ∧ ch ≤ 57 then .go (.quotedSecond quotedState (ch - 48)) b
    else
      let c := ch ||| 0x20
      if 97 ≤ c ∧ c ≤ 102 then .go (.quotedSecond quotedState (c - 97 + 10)) b else .invalid
  | .quotedSecond quotedState decoded =>
    if 48 ≤ ch ∧ ch ≤ 57 then
      let ch := (decoded <<< 4) + ch - 48
      if ch = 37 ∨ ch = 35 then .go (.plain .usual) (b.put ch)
      else if ch = 0 then .invalid
      else plainTurn mergeSlashes quotedState ch b
    else
      let c := ch ||| 0x20
      if 97 ≤ c ∧ c ≤ 102 then
        let ch := (decoded <<< 4) + c - 97 + 10
        if ch = 63 then .go (.plain .usual) (b.put ch)
        else plainTurn mergeSlashes quotedState ch (if ch = 43 then { b with plusInUri := true } else b)
      else .invalid

/-- What the parse leaves in the request: `uri`, `exten`, `args_start` (as the bytes
up to `uri_end`) and `args`, each as far as it is set. -/
structure ParsedUri where
  uri : Bytes
  exten : Option Bytes
  argsStart : Option Bytes
  args : Option Bytes
  plusInUri : Bool
  quotedUri : Bool
  deriving DecidableEq, Repr

def uriDone (b : UriBuf) : ParsedUri :=
  ⟨b.out.reverse,b.ext.map (fun n => b.out.reverse.drop n),none,none,b.plusInUri,b.quotedUri⟩

def uriArgs (b : UriBuf) (rest : Bytes) : ParsedUri :=
  if rest.contains 35 then { uriDone b with args := some (rest.takeWhile (· ≠ 35)) }
  else { uriDone b with argsStart := some rest }

/-- The loop over the bytes from `uri_start` to `uri_end`; `none` is
`NGX_HTTP_PARSE_INVALID_REQUEST`. -/
def complexUriLoop (mergeSlashes : Bool) : SwState → Bytes → UriBuf → Option ParsedUri
  | _,[],b => some (uriDone b)
  | state,ch :: rest,b =>
    match uriTurn mergeSlashes state ch b with
    | .go state b => complexUriLoop mergeSlashes state rest b
    | .args b => some (uriArgs b rest)
    | .done b => some (uriDone b)
    | .invalid => none

def parseComplexUri (mergeSlashes : Bool) (uri : Bytes) (plusInUri quotedUri : Bool) : Option ParsedUri :=
  complexUriLoop mergeSlashes (.plain .usual) uri ⟨[],none,plusInUri,quotedUri⟩

end Aret.Http
