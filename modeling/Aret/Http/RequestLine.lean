import Aret.Http.AretModule
import Aret.Http.ComplexUri

/-! `ngx_http_parse_request_line` and `ngx_http_process_request_uri`. The fields of
the request point into the buffer it is read from, so they are addresses, with 0
for a null pointer; `port_end`, which nothing reads, is left out. -/
namespace Aret.Http
open Lib

inductive LineState where
  | start | method | spacesBeforeUri | schema | schemaSlash | schemaSlashSlash | hostStart | host | hostEnd
  | hostIpLiteral | port | hostHttp09 | afterSlashInUri | checkUri | checkUriHttp09 | uri | http09 | httpH | httpHT
  | httpHTT | httpHTTP | firstMajorDigit | majorDigit | firstMinorDigit | minorDigit | spacesAfterDigit | almostDone
  deriving DecidableEq, Repr

inductive LineError where
  | invalidMethod | invalidRequest | invalid09Method
  deriving DecidableEq, Repr

structure RequestLine where
  state : LineState
  requestStart : Int
  requestEnd : Int
  methodEnd : Int
  uriStart : Int
  uriEnd : Int
  schemaStart : Int
  schemaEnd : Int
  hostStart : Int
  hostEnd : Int
  uriExt : Int
  argsStart : Int
  httpProtocol : Int
  method : Method
  httpMajor : Nat
  httpMinor : Nat
  complexUri : Bool
  quotedUri : Bool
  plusInUri : Bool
  spaceInUri : Bool
  deriving DecidableEq, Repr

/-- The request as `ngx_http_create_request` leaves it. -/
def RequestLine.init : RequestLine :=
  ⟨.start,0,0,0,0,0,0,0,0,0,0,0,0,.unknown,0,0,false,false,false,false⟩

inductive LineTurn where
  | go (r : RequestLine)
  | done (r : RequestLine)
  | error (e : LineError)
  deriving DecidableEq, Repr

/-- The switch over the length of the method, with the comparisons of each case. -/
def methodOf (m : Bytes) (method : Method) : Method :=
  match m.length with
  | 3 =>
    if m = [71,69,84] then .get else if m = [80,85,84] then .put else method
  | 4 =>
    if m.getD 1 0 = 79 then
      if m = [80,79,83,84] then .post
      else if m = [67,79,80,89] then .copy
      else if m = [77,79,86,69] then .move
      else if m = [76,79,67,75] then .lock
      else method
    else if m = [72,69,65,68] then .head else method
  | 5 =>
    if m = [84,82,65,67,69] then .trace
    else if m = [80,65,84,67,72] then .patch
    else if m = [77,75,67,79,76] then .mkcol
    else method
  | 6 =>
    if m = [68,69,76,69,84,69] then .delete else if m = [85,78,76,79,67,75] then .unlock else method
  | 7 => if m = [79,80,84,73,79,78,83] then .options else method
  | 8 => if m = [80,82,79,80,70,73,78,68] then .propfind else method
  | 9 => if m = [80,82,79,80,80,65,84,67,72] then .proppatch else method
  | _ => method

def isMethodByte (ch : UInt8) : Bool := (65 ≤ ch && ch ≤ 90) || ch == 95

def isAlpha (ch : UInt8) : Bool := 97 ≤ (ch ||| 0x20) && (ch ||| 0x20) ≤ 122

def literalBytes : Bytes := [58,45,46,95,126,33,36,38,39,40,41,42,43,44,59,61]

/-- The end of the line from a state that has seen no version. -/
def lineEnd09 (r : RequestLine) (ch : UInt8) (otherwise : LineTurn) : LineTurn :=
  if ch = 13 then .go { r with httpMinor := 9, state := .almostDone }
  else if ch = 10 then .done { r with httpMinor := 9 }
  else otherwise

/-- The label `sw_host_end`, which `sw_host` falls into. -/
def hostEndTurn (r : RequestLine) (p : Int) (ch : UInt8) : LineTurn :=
  let r := { r with hostEnd := p }
  if ch = 58 then .go { r with state := .port }
  else if ch = 47 then .go { r with uriStart := p, state := .afterSlashInUri }
  else if ch = 32 then .go { r with uriStart := r.schemaEnd + 1, uriEnd := r.schemaEnd + 2, state := .hostHttp09 }
  else .error .invalidRequest

def hostTurn (r : RequestLine) (p : Int) (ch : UInt8) : LineTurn :=
  if isAlpha ch || isDigit ch || ch == 46 || ch == 45 then .go r else hostEndTurn r p ch

/-- What `sw_after_slash_in_uri`, `sw_check_uri` and `sw_uri` do with a blank or the
end of the line; the state behind a blank differs. -/
def uriEndTurn (r : RequestLine) (p : Int) (ch : UInt8) (behind : LineState) (otherwise : LineTurn) : LineTurn :=
  if ch = 32 then .go { r with uriEnd := p, state := behind }
  else if ch = 13 ∨ ch = 10 then lineEnd09 { r with uriEnd := p } ch otherwise
  else if ch = 0 then .error .invalidRequest
  else otherwise

def afterSlashTurn (r : RequestLine) (p : Int) (ch : UInt8) : LineTurn :=
  if usual ch then .go { r with state := .checkUri }
  else uriEndTurn r p ch .checkUriHttp09 <|
    if ch = 46 ∨ ch = 47 ∨ ch = 35 then .go { r with complexUri := true, state := .uri }
    else if ch = 37 then .go { r with quotedUri := true, state := .uri }
    else if ch = 63 then .go { r with argsStart := p + 1, state := .uri }
    else if ch = 43 then .go { r with plusInUri := true }
    else .go { r with state := .checkUri }

def checkUriTurn (r : RequestLine) (p : Int) (ch : UInt8) : LineTurn :=
  if usual ch then .go r
  else uriEndTurn r p ch .checkUriHttp09 <|
    if ch = 47 then .go { r with uriExt := 0, state := .afterSlashInUri }
    else if ch = 46 then .go { r with uriExt := p + 1 }
    else if ch = 37 then .go { r with quotedUri := true, state := .uri }
    else if ch = 63 then .go { r with argsStart := p + 1, state := .uri }
    else if ch = 35 then .go { r with complexUri := true, state := .uri }
    else if ch = 43 then .go { r with plusInUri := true }
    else .go r

def uriByteTurn (r : RequestLine) (p : Int) (ch : UInt8) : LineTurn :=
  if usual ch then .go r
  else uriEndTurn r p ch .http09 <| if ch = 35 then .go { r with complexUri := true } else .go r

/-- A blank in the uri or behind it: `p--` gives the byte to the state `again`. -/
def behindUriTurn (r : RequestLine) (p : Int) (ch : UInt8) (again : LineTurn) : LineTurn :=
  if ch = 32 then .go r
  else lineEnd09 r ch <| if ch = 72 then .go { r with httpProtocol := p, state := .httpH } else again

def expectTurn (r : RequestLine) (ch expected : UInt8) (state : LineState) : LineTurn :=
  if ch = expected then .go { r with state := state } else .error .invalidRequest

/-- `http_major` and `http_minor` are fields of sixteen bits. -/
def pushDigit (n : Nat) (ch : UInt8) : Nat := (n * 10 + (ch.toNat - 48)) % 2^16

/-- The switch over the state, for the byte `ch` at `p`; `m` is the text from
`request_start` up to `p`. -/
def lineTurn (m : Bytes) (r : RequestLine) (p : Int) (ch : UInt8) : LineTurn :=
  match r.state with
  | .start =>
    let r := { r with requestStart := p }
    if ch = 13 ∨ ch = 10 then .go r
    else if isMethodByte ch then .go { r with state := .method }
    else .error .invalidMethod
  | .method =>
    if ch = 32 then .go { r with methodEnd := p - 1, method := methodOf m r.method, state := .spacesBeforeUri }
    else if isMethodByte ch then .go r
    else .error .invalidMethod
  | .spacesBeforeUri =>
    if ch = 47 then .go { r with uriStart := p, state := .afterSlashInUri }
    else if isAlpha ch then .go { r with schemaStart := p, state := .schema }
    else if ch = 32 then .go r
    else .error .invalidRequest
  | .schema =>
    if isAlpha ch then .go r
    else if ch = 58 then .go { r with schemaEnd := p, state := .schemaSlash }
    else .error .invalidRequest
  | .schemaSlash => expectTurn r ch 47 .schemaSlashSlash
  | .schemaSlashSlash => expectTurn r ch 47 .hostStart
  | .hostStart =>
    let r := { r with hostStart := p }
    if ch = 91 then .go { r with state := .hostIpLiteral } else hostTurn { r with state := .host } p ch
  | .host => hostTurn r p ch
  | .hostEnd => hostEndTurn r p ch
  | .hostIpLiteral =>
    if isDigit ch || isAlpha ch then .go r
    else if ch = 93 then .go { r with state := .hostEnd }
    else if literalBytes.contains ch then .go r
    else .error .invalidRequest
  | .port =>
    if isDigit ch then .go r
    else if ch = 47 then .go { r with uriStart := p, state := .afterSlashInUri }
    else if ch = 32 then .go { r with uriStart := r.schemaEnd + 1, uriEnd := r.schemaEnd + 2, state := .hostHttp09 }
    else .error .invalidRequest
  | .hostHttp09 => behindUriTurn r p ch (.error .invalidRequest)
  | .afterSlashInUri => afterSlashTurn r p ch
  | .checkUri => checkUriTurn r p ch
  | .checkUriHttp09 => behindUriTurn r p ch (checkUriTurn { r with spaceInUri := true, state := .checkUri } p ch)
  | .uri => uriByteTurn r p ch
  | .http09 => behindUriTurn r p ch (uriByteTurn { r with spaceInUri := true, state := .uri } p ch)
  | .httpH => expectTurn r ch 84 .httpHT
  | .httpHT => expectTurn r ch 84 .httpHTT
  | .httpHTT => expectTurn r ch 80 .httpHTTP
  | .httpHTTP => expectTurn r ch 47 .firstMajorDigit
  | .firstMajorDigit =>
    if 49 ≤ ch ∧ ch ≤ 57 then .go { r with httpMajor := ch.toNat - 48, state := .majorDigit }
    else .error .invalidRequest
  | .majorDigit =>
    if ch = 46 then .go { r with state := .firstMinorDigit }
    else if isDigit ch then .go { r with httpMajor := pushDigit r.httpMajor ch }
    else .error .invalidRequest
  | .firstMinorDigit =>
    if isDigit ch then .go { r with httpMinor := ch.toNat - 48, state := .minorDigit }
    else .error .invalidRequest
  | .minorDigit =>
    if ch = 13 then .go { r with state := .almostDone }
    else if ch = 10 then .done r
    else if ch = 32 then .go { r with state := .spacesAfterDigit }
    else if isDigit ch then .go { r with httpMinor := pushDigit r.httpMinor ch }
    else .error .invalidRequest
  | .spacesAfterDigit =>
    if ch = 32 then .go r
    else if ch = 13 then .go { r with state := .almostDone }
    else if ch = 10 then .done r
    else .error .invalidRequest
  | .almostDone =>
    let r := { r with requestEnd := p - 1 }
    if ch = 10 then .done r else .error .invalidRequest

/-- The buffer `header_in`: the bytes from `start` to `last` and the room up to `end`. -/
structure HeaderIn where
  start : Int
  data : Bytes
  size : Nat
  deriving DecidableEq, Repr

def HeaderIn.text (b : HeaderIn) (first last : Int) : Bytes :=
  (b.data.drop (first - b.start).toNat).take (last - first).toNat

inductive LineResult where
  | again (r : RequestLine) (pos : Int)
  | ok (r : RequestLine) (pos : Int)
  | error (e : LineError)
  deriving DecidableEq, Repr

def RequestLine.httpVersion (r : RequestLine) : Nat := r.httpMajor * 1000 + r.httpMinor

/-- The label `done`, for the byte at `p`. -/
def lineDone (r : RequestLine) (p : Int) : LineResult :=
  if r.httpVersion = 9 ∧ r.method ≠ .get then .error .invalid09Method
  else .ok { r with requestEnd := if r.requestEnd = 0 then p else r.requestEnd, state := .start } (p + 1)

def lineLoop (b : HeaderIn) : RequestLine → Int → Bytes → LineResult
  | r,p,[] => .again r p
  | r,p,ch :: rest =>
    match lineTurn (b.text r.requestStart p) r p ch with
    | .go r => lineLoop b r (p + 1) rest
    | .done r => lineDone r p
    | .error e => .error e

def parseRequestLine (b : HeaderIn) (r : RequestLine) (pos : Int) : LineResult :=
  lineLoop b r pos (b.data.drop (pos - b.start).toNat)

structure Target where
  uri : Bytes
  unparsedUri : Bytes
  exten : Option Bytes
  args : Bytes
  plusInUri : Bool
  quotedUri : Bool
  validUnparsedUri : Bool
  deriving DecidableEq, Repr

/-- `r->uri.len` before the uri is parsed, one less than what is allocated for it. -/
def RequestLine.uriLen (r : RequestLine) : Int :=
  if r.argsStart ≠ 0 then r.argsStart - 1 - r.uriStart else r.uriEnd - r.uriStart

/-- The request once the complex uri is parsed: `args_start`, if it is still set, gives
the query up to the end of the uri. -/
def ParsedUri.target (u : ParsedUri) (raw : Bytes) (spaceInUri : Bool) : Target :=
  ⟨u.uri,raw,u.exten,(u.args.orElse fun _ => u.argsStart).getD [],u.plusInUri,u.quotedUri,!spaceInUri⟩

/-- `ngx_http_process_request_uri`; `none` is the answer 400. -/
def processRequestUri (mergeSlashes : Bool) (b : HeaderIn) (r : RequestLine) : Option Target :=
  let raw := b.text r.uriStart r.uriEnd
  if r.complexUri || r.quotedUri then
    (parseComplexUri mergeSlashes raw r.plusInUri r.quotedUri).map fun u => u.target raw r.spaceInUri
  else
    some ⟨b.text r.uriStart (r.uriStart + r.uriLen),raw,
      if r.uriExt ≠ 0 then
        some (b.text r.uriExt (if r.argsStart ≠ 0 then r.argsStart - 1 else r.uriEnd)) else none,
      if r.argsStart ≠ 0 ∧ r.argsStart < r.uriEnd then b.text r.argsStart r.uriEnd else [],
      r.plusInUri,r.quotedUri,!r.spaceInUri⟩

inductive ScanState where
  | start | afterSlashInUri | checkUri | uri
  deriving DecidableEq, Repr

/-- What `ngx_http_parse_uri` sets, with offsets from `uri_start` for addresses. -/
structure UriScan where
  state : ScanState
  uriExt : Option Nat
  argsStart : Option Nat
  complexUri : Bool
  quotedUri : Bool
  plusInUri : Bool
  spaceInUri : Bool
  deriving DecidableEq, Repr

def UriScan.init : UriScan := ⟨.start,none,none,false,false,false,false⟩

/-- The switch of `ngx_http_parse_uri`, for the byte `ch` at the offset `n`; only the
first byte can be refused. -/
def scanTurn (s : UriScan) (n : Nat) (ch : UInt8) : Option UriScan :=
  match s.state with
  | .start => if ch = 47 then some { s with state := .afterSlashInUri } else none
  | .afterSlashInUri =>
    some <|
      if usual ch then { s with state := .checkUri }
      else if ch = 32 then { s with spaceInUri := true, state := .checkUri }
      else if ch = 46 ∨ ch = 47 ∨ ch = 35 then { s with complexUri := true, state := .uri }
      else if ch = 37 then { s with quotedUri := true, state := .uri }
      else if ch = 63 then { s with argsStart := some (n + 1), state := .uri }
      else if ch = 43 then { s with plusInUri := true }
      else { s with state := .checkUri }
  | .checkUri =>
    some <|
      if usual ch then s
      else if ch = 47 then { s with uriExt := none, state := .afterSlashInUri }
      else if ch = 46 then { s with uriExt := some (n + 1) }
      else if ch = 32 then { s with spaceInUri := true }
      else if ch = 37 then { s with quotedUri := true, state := .uri }
      else if ch = 63 then { s with argsStart := some (n + 1), state := .uri }
      else if ch = 35 then { s with complexUri := true, state := .uri }
      else if ch = 43 then { s with plusInUri := true }
      else s
  | .uri =>
    some <|
      if usual ch then s
      else if ch = 32 then { s with spaceInUri := true }
      else if ch = 35 then { s with complexUri := true }
      else s

def scanLoop : UriScan → Nat → Bytes → Option UriScan
  | s,_,[] => some s
  | s,n,ch :: rest => (scanTurn s n ch).bind fun s => scanLoop s (n + 1) rest

def parseUri (raw : Bytes) : Option UriScan := scanLoop .init 0 raw

end Aret.Http
