import Aret.Lib.ByteOrder

/-! `ngx_conf_read_token`, which reads the configuration through a buffer. What the
file still holds is put behind the bytes from `start` on, which are moved to the
front. The flag `found` never outlives one pass of the loop and is left out. -/
namespace Aret.Conf
open Lib

/-- What `ngx_conf_read_token` returns besides errors. -/
inductive Token where
  | ok | blockStart | blockDone | fileDone
  deriving DecidableEq, Repr

inductive Message where
  | unexpectedEndOfParameter
  | unexpectedEndOfFile
  | tooLong (first : Bytes)
  | missingTerminating (ch : UInt8)
  | unexpected (ch : UInt8)
  | expectingBrace
  | blockInParameter
  | notTerminated (name : Bytes)
  | noOpening (name : Bytes)
  | invalidNumber (name : Bytes)
  | notAllowedHere (name : Bytes)
  | unknownDirective (name : Bytes)
  | directive (name text : Bytes)
  deriving DecidableEq, Repr

def Message.text : Message → Bytes
  | .unexpectedEndOfParameter => bytes "unexpected end of parameter, expecting \";\""
  | .unexpectedEndOfFile => bytes "unexpected end of file, expecting \";\" or \"\x7d\""
  | .tooLong first => bytes "too long parameter \"" ++ first ++ bytes "...\" started"
  | .missingTerminating ch => bytes "too long parameter, probably missing terminating \"" ++ ch :: bytes "\" character"
  | .unexpected ch => bytes "unexpected \"" ++ ch :: bytes "\""
  | .expectingBrace => bytes "unexpected end of file, expecting \"\x7d\""
  | .blockInParameter => bytes "block directives are not supported in -g option"
  | .notTerminated name => bytes "directive \"" ++ name ++ bytes "\" is not terminated by \";\""
  | .noOpening name => bytes "directive \"" ++ name ++ bytes "\" has no opening \"\x7b\""
  | .invalidNumber name => bytes "invalid number of arguments in \"" ++ name ++ bytes "\" directive"
  | .notAllowedHere name => bytes "\"" ++ name ++ bytes "\" directive is not allowed here"
  | .unknownDirective name => bytes "unknown directive \"" ++ name ++ bytes "\""
  | .directive name text => bytes "\"" ++ name ++ bytes "\" directive " ++ text

structure ConfError where
  message : Message
  line : Nat
  deriving DecidableEq, Repr

/-- The locals of the function, `cf->args`, and `cf->conf_file->line`. -/
structure Flags where
  needSpace : Bool
  lastSpace : Bool
  sharpComment : Bool
  inVariable : Bool
  quoted : Bool
  sQuoted : Bool
  dQuoted : Bool
  args : List Bytes
  line : Nat
  startLine : Nat
  deriving DecidableEq, Repr

def Flags.init (line : Nat) : Flags := ⟨false,true,false,false,false,false,false,[],line,line⟩

/-- What becomes of `start` in a pass: it stays, or it is set to the byte read or behind it. -/
inductive Start where
  | keep | here | behind
  deriving DecidableEq, Repr

inductive Pass where
  | go (s : Flags) (start : Start)
  | done (s : Flags) (rc : Token)
  | error (e : ConfError)
  deriving DecidableEq, Repr

def isBlank (ch : UInt8) : Bool := ch == 32 || ch == 9 || ch == 13 || ch == 10

/-- The loop that copies a word, over the bytes from `src` up to `b->pos`; it ends at the
last of them, which a backslash before it takes in as well. -/
def copyWord : Bytes → Bytes
  | [] => []
  | [_] => []
  | ch :: next :: rest =>
    if ch = 92 then
      if next = 34 ∨ next = 39 ∨ next = 92 then next :: copyWord rest
      else if next = 116 then 9 :: copyWord rest
      else if next = 114 then 13 :: copyWord rest
      else if next = 110 then 10 :: copyWord rest
      else ch :: copyWord (next :: rest)
    else ch :: copyWord (next :: rest)

/-- A word is found; `token` runs from `start` up to `b->pos`. -/
def foundWord (s : Flags) (token : Bytes) (ch : UInt8) : Pass :=
  let s := { s with args := s.args ++ [copyWord token] }
  if ch = 59 then .done s .ok else if ch = 123 then .done s .blockStart else .go s .keep

/-- The branch `last_space`. -/
def spacePass (s : Flags) (ch : UInt8) : Pass :=
  if isBlank ch then .go s .keep
  else
    let s := { s with startLine := s.line }
    if ch = 59 ∨ ch = 123 then
      if s.args = [] then .error ⟨.unexpected ch,s.line⟩
      else if ch = 123 then .done s .blockStart
      else .done s .ok
    else if ch = 125 then if s.args ≠ [] then .error ⟨.unexpected 125,s.line⟩ else .done s .blockDone
    else if ch = 35 then .go { s with sharpComment := true } .here
    else if ch = 92 then .go { s with quoted := true, lastSpace := false } .here
    else if ch = 34 then .go { s with dQuoted := true, lastSpace := false } .behind
    else if ch = 39 then .go { s with sQuoted := true, lastSpace := false } .behind
    else .go { s with lastSpace := false } .here

def wordPass (s : Flags) (token : Bytes) (ch : UInt8) : Pass :=
  if ch = 123 ∧ s.inVariable then .go s .keep
  else
    let s := { s with inVariable := false }
    if ch = 92 then .go { s with quoted := true } .keep
    else if ch = 36 then .go { s with inVariable := true } .keep
    else if s.dQuoted then
      if ch = 34 then foundWord { s with dQuoted := false, needSpace := true } token ch else .go s .keep
    else if s.sQuoted then
      if ch = 39 then foundWord { s with sQuoted := false, needSpace := true } token ch else .go s .keep
    else if isBlank ch || ch == 59 || ch == 123 then foundWord { s with lastSpace := true } token ch
    else .go s .keep

def bytePass (s : Flags) (token : Bytes) (ch : UInt8) : Pass :=
  if s.lastSpace then spacePass s ch else wordPass s token ch

/-- The body of the loop for the byte `ch`, the last one of `token`. -/
def pass (s : Flags) (token : Bytes) (ch : UInt8) : Pass :=
  let s := if ch = 10 then { s with line := s.line + 1, sharpComment := false } else s
  if s.sharpComment then .go s .keep
  else if s.quoted then .go { s with quoted := false } .keep
  else if s.needSpace then
    if isBlank ch then .go { s with lastSpace := true, needSpace := false } .keep
    else if ch = 59 then .done s .ok
    else if ch = 123 then .done s .blockStart
    else if ch = 41 then bytePass { s with lastSpace := true, needSpace := false } token ch
    else .error ⟨.unexpected ch,s.line⟩
  else bytePass s token ch

/-- `cf->conf_file`: the buffer from `b->start` up to `b->last`, `b->pos`, and the bytes of
the file from its offset on; a parameter of the command line has no file behind it. -/
structure ConfFile where
  buffer : Bytes
  pos : Nat
  rest : Bytes
  line : Nat
  isFile : Bool
  deriving DecidableEq, Repr

inductive ReadResult where
  | token (rc : Token) (args : List Bytes) (file : ConfFile)
  | error (e : ConfError)
  deriving DecidableEq, Repr

def endOfFile (s : Flags) (isFile : Bool) : Option ConfError :=
  if s.args ≠ [] ∨ s.lastSpace = false then
    some ⟨if isFile then .unexpectedEndOfFile else .unexpectedEndOfParameter,s.line⟩
  else none

def tooLong (s : Flags) (token : Bytes) : ConfError :=
  ⟨if s.dQuoted then .missingTerminating 34 else if s.sQuoted then .missingTerminating 39 else .tooLong (token.take 10),
    s.startLine⟩

def ConfFile.token (file : ConfFile) (start : Nat) : Bytes := (file.buffer.drop start).take (file.pos - start)

inductive Filled where
  | ready (file : ConfFile) (start : Nat)
  | stop (result : ReadResult)
  deriving DecidableEq, Repr

/-- The first half of a pass, for a buffer of `size` bytes. -/
def refill (size : Nat) (file : ConfFile) (start : Nat) (s : Flags) : Filled :=
  if file.pos < file.buffer.length then .ready file start
  else if file.rest = [] then
    match endOfFile s file.isFile with
    | none => .stop (.token .fileDone s.args { file with line := s.line })
    | some e => .stop (.error e)
  else
    let len := file.pos - start
    if len = size then .stop (.error (tooLong s (file.token start)))
    else
      -- the token is moved to the front, and the file is read behind it
      .ready { file with
        buffer := file.token start ++ file.rest.take (size - len)
        pos := len
        rest := file.rest.drop (size - len) } 0

def Start.move (start pos : Nat) : Start → Nat
  | .keep => start
  | .here => pos - 1
  | .behind => pos

/-- The loop; each pass takes a byte, so that `fuel` is never used up. -/
def readLoop (size : Nat) : Nat → ConfFile → Nat → Flags → ReadResult
  | 0,_,_,s => .error (tooLong s [])
  | fuel + 1,file,start,s =>
    match refill size file start s with
    | .stop result => result
    | .ready file start =>
      let ch := file.buffer.getD file.pos 0
      let file := { file with pos := file.pos + 1 }
      match pass s (file.token start) ch with
      | .go s move => readLoop size fuel file (move.move start file.pos) s
      | .done s rc => .token rc s.args { file with line := s.line }
      | .error e => .error e

def ConfFile.left (file : ConfFile) : Bytes := file.buffer.drop file.pos ++ file.rest

def readToken (size : Nat) (file : ConfFile) : ReadResult :=
  readLoop size (file.left.length + 1) file file.pos (.init file.line)

end Aret.Conf
