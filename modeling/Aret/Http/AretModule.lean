import Aret.Engine.ReEngine
import Aret.Lib.Sscanf

/-! The two request handlers of `ngx_http_aret_module.cc`. nginx itself enters
through the results of the calls a handler makes. `none` stands for undefined
behaviour: that of the engine, a null pointer, a store or an index out of range. -/
namespace Aret.Http
open Lib Tera Engine

inductive Method where
  | unknown | get | head | post | put | delete | mkcol | copy | move | options | propfind | proppatch | lock | unlock
  | patch | trace
  deriving DecidableEq, Repr

/-- The bits `NGX_HTTP_*`. -/
def Method.bit : Method → Nat
  | .unknown => 0x0001
  | .get => 0x0002
  | .head => 0x0004
  | .post => 0x0008
  | .put => 0x0010
  | .delete => 0x0020
  | .mkcol => 0x0040
  | .copy => 0x0080
  | .move => 0x0100
  | .options => 0x0200
  | .propfind => 0x0400
  | .proppatch => 0x0800
  | .lock => 0x1000
  | .unlock => 0x2000
  | .patch => 0x4000
  | .trace => 0x8000

def Method.allowed (method : Method) : Bool :=
  method.bit &&& (Method.bit .head ||| Method.bit .get ||| Method.bit .post) != 0

def ngxOk : Int := 0
def ngxHttpOk : Int := 200
def ngxHttpNotAllowed : Int := 405
def ngxHttpInternalServerError : Int := 500

/-- What nginx answers during one request: whether `ngx_pcalloc` succeeds in
`str_to_buf` and for the response buffer, the first `ngx_http_send_header`, and
`ngx_http_output_filter`. -/
structure Nginx where
  sendBuf : Bool
  responseBuf : Bool
  sendHeader : Int
  outputFilter : Bytes → Int

/-- `ngx_http_send_header`; once the header is sent it returns `NGX_OK`. -/
def ngxHttpSendHeader (ngx : Nginx) (headerSent : Bool) : Int := if headerSent then ngxOk else ngx.sendHeader

/-- The headers set, the bytes handed to the output filter if it is called, and
the handler's return value. -/
structure Response where
  contentType : Bytes
  status : Int
  contentLength : Nat
  body : Option Bytes
  rc : Int
  deriving DecidableEq, Repr

/-- The second half of both handlers. `send_buf` holds `err + content`, and the
buffer ends `content.size()` bytes behind its start. -/
def respond (ngx : Nginx) (method : Method) (err content : Bytes) : Option Response :=
  let response (body : Option Bytes) (rc : Int) : Response := ⟨bytes "text/html",ngxHttpOk,content.length,body,rc⟩
  if !ngx.sendBuf then none
  else if method = .head ∧ ngxHttpSendHeader ngx false ≠ ngxOk then
    some (response none (ngxHttpSendHeader ngx false))
  else if !ngx.responseBuf then some (response none ngxHttpInternalServerError)
  else
    let rc := ngxHttpSendHeader ngx (method = .head)
    if rc ≠ ngxOk then some (response none rc)
    else
      let out := (err ++ content).take content.length
      some (response (some out) (ngx.outputFilter out))

inductive Outcome where
  | notAllowed
  | answered (err content : Bytes) (response : Response)
  deriving DecidableEq, Repr

def Outcome.rc : Outcome → Int
  | .notAllowed => ngxHttpNotAllowed
  | .answered _ _ response => response.rc

def anchor (url title tag : Bytes) : Bytes :=
  bytes "<a href=view?url=" ++ url ++ bytes ">" ++ title ++ bytes "</a><br/>" ++ bytes "Tag: " ++ tag ++ bytes "<br/>"

/-- The loop over `urls`, which indexes the other two vectors unchecked. -/
def recommendLinks (lists : Lists) : Nat → List Bytes → Option Bytes
  | _,[] => some []
  | i,url :: urls =>
    match lists.desc[i]?,lists.tags[i]?,recommendLinks lists (i + 1) urls with
    | some title,some tag,some rest => some (anchor url title tag ++ rest)
    | _,_,_ => none

/-- `ngx_http_recommend_handler`, with the static cursor of the engine. -/
def recommendHandler (lib : CxxLib) (usertable : Read) (tagtable : Scan) (lastRand : Key) (ngx : Nginx)
    (method : Method) : Option (Outcome × Key) :=
  if !method.allowed then some (.notAllowed,lastRand)
  else
    (getRecommend lib usertable tagtable lastRand (bytes "user") 10 .empty).bind (fun out =>
      (if out.ret then recommendLinks out.lists 0 out.lists.urls else some (bytes "GetRecommend fail~")).bind
        (fun content =>
          (respond ngx method out.err content).map (fun response => (.answered out.err content response,out.lastRand))))

def userFormat : List Directive :=
  (bytes "user=").map .lit ++ [.str 128] ++ (bytes "&url=").map .lit ++ [.str 1024]

def urlFormat : List Directive := (bytes "url=").map .lit ++ [.str 1024]

/-- `parse_args` on the memory from `args` on, `none` for a null pointer, with
the values `user` and `url` have before. -/
def parseArgs (args : Option Bytes) (user url : Bytes) : Option (Bool × Bytes × Bytes) :=
  match args with
  | none => none
  | some memory =>
    match sscanf (cString memory) userFormat with
    | none => none
    | some (2,[userbuf,urlbuf]) => some (true,userbuf,urlbuf)
    | some _ =>
      match sscanf (cString memory) urlFormat with
      | none => none
      | some (1,[urlbuf]) => some (true,user,urlbuf)
      | some _ => some (false,user,url)

def viewHtml (webtable : Read) (url : Key) : Bytes :=
  let (found,html) := getHtml webtable url []
  if url = [] ∨ !found then bytes "No this page in WebTable" else html

/-- `ngx_http_view_handler`; the parsed user is not used. -/
def viewHandler {σ : Type} (webtable : Read) (usertable : Table σ) (s : σ) (ngx : Nginx) (method : Method)
    (args : Option Bytes) : Option (Outcome × σ) :=
  if !method.allowed then some (.notAllowed,s)
  else
    (parseArgs args [] []).bind (fun (_,_,url) =>
      (recordActions webtable usertable s (bytes "user") .view [url] []).bind (fun (s,_,err) =>
        let html := viewHtml webtable url
        (respond ngx method err html).map (fun response => (.answered err html response,s))))

end Aret.Http
