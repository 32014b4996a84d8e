import Aret.Http.AretModule
import Aret.Indexer.RunLog
import Aret.Lib.Interleaving

/-! The processes of a running site: indexers and nginx workers over the same
three tables. A process is cut where it sends a message to a table server, so
that any other process may act between two of its messages. A worker serves one
request at a time and keeps the static cursor of the engine. -/
namespace Aret.Site
open Lib Tera Engine Indexer Http

/-- Where an indexer stands: before a `Scan`, before a row of its slice, before the
write of a tag or, with no tag left, of the page. -/
inductive Pc where
  | scan
  | rows (todo : List (Key × Record))
  | tags (rowKey title : Bytes) (ts : Int) (kws : List Bytes) (i : Nat) (record : Record) (todo : List (Key × Record))
  | stop

section
variable {σ τ : Type} (env : Env σ τ) (endKey : Key)

def indexerStep : State σ τ × Pc → State σ τ × Pc
  | (st,.scan) =>
    if st.lastKey ≠ [] ∨ st.lastKey ≤ endKey then
      let slice := (env.table.scan st.web st.lastKey (bytes "~")).2
      if slice.isEmpty then (st,.stop) else (st,.rows slice.entries)
    else (st,.stop)
  | (st,.rows []) => (st,.scan)
  | (st,.rows ((rowKey,record) :: todo)) =>
    let st := { st with lastKey := rowKey ++ [0], log := st.log ++ [.row rowKey] }
    if find (bytes "2014") rowKey = none then (st,.rows todo)
    else
      match (column record (bytes "page")).entries with
      | [] => (st,.rows todo)
      | (ts,page) :: _ =>
        let html := stripCode page
        let record := record.insert (bytes "page") ((column record (bytes "page")).insert ts html)
        (st,.tags rowKey (env.parseTitle html) ts (env.parseKeyword html) 0 record todo)
  | (st,.tags rowKey title ts (kw :: kws) i record todo) =>
    (writeTag env rowKey title ts kw st,
      .tags rowKey title ts kws (i + 1) (record.insert (bytes "tag") ((column record (bytes "tag")).insert i kw)) todo)
  | (st,.tags rowKey _ _ [] _ record todo) =>
    ({ st with
      web := (env.table.write st.web rowKey record).2
      log := st.log ++ [.webWrite rowKey record] },.rows todo)
  | (st,.stop) => (st,.stop)

end

/-- Where a worker stands: before the `Read` of the profile, the `Scan` for a tag,
the two `Scan`s of the fill, or before the `Read` of the viewed page, the `Read`
and the `Write` of the profile and the `Read` of the page to show. -/
inductive Job where
  | idle
  | profileRead
  | tagScan (di : ℚ) (todo : List TagItem) (lists : Lists) (serr : Bytes)
  | fillScan (lists : Lists) (serr : Bytes)
  | refillScan (lists : Lists) (serr : Bytes)
  | pageRead (url : Key)
  | userRead (url : Key) (tags : List Bytes)
  | userWrite (url : Key) (tags : List Bytes) (row : Record)
  | htmlRead (url : Key) (err : Bytes)
  | crashed

inductive Request where
  | recommend (ngx : Nginx) (method : Method)
  | view (ngx : Nginx) (method : Method) (args : Option Bytes)

def Request.ngx : Request → Nginx
  | .recommend ngx _ => ngx
  | .view ngx _ _ => ngx

def Request.method : Request → Method
  | .recommend _ method => method
  | .view _ method _ => method

/-- A worker with the request taken up last. `served` is a ghost: what it has
answered so far. -/
structure Worker where
  request : Request
  job : Job
  lastRand : Key
  served : List (Request × Outcome)

def Worker.answer (w : Worker) (outcome : Outcome) : Worker :=
  { w with job := .idle, served := w.served ++ [(w.request,outcome)] }

def Worker.crash (w : Worker) : Worker := { w with job := .crashed }

def Worker.respond (w : Worker) (err content : Bytes) : Worker :=
  match Http.respond w.request.ngx w.request.method err content with
  | some response => w.answer (.answered err content response)
  | none => w.crash

/-- What follows the call of `GetRecommend`. -/
def Worker.showRecommend (w : Worker) (out : Recommendation) : Worker :=
  match if out.ret then recommendLinks out.lists 0 out.lists.urls else some (bytes "GetRecommend fail~") with
  | some content => { w with lastRand := out.lastRand }.respond out.err content
  | none => w.crash

/-- What follows the last `Scan` of the fill. -/
def Worker.fill (w : Worker) (slice : TableSlice) (lists : Lists) (serr : Bytes) : Worker :=
  match randomRecommendLoop (fillNum 10 lists.urls.length) slice.entries 0 (lists,w.lastRand) with
  | some (lists,lastRand) => w.showRecommend ⟨true,{ lists with tags := lists.tags.map stripKey },
      serr ++ bytes "url_num: " ++ decimal lists.urls.length ++ bytes ", title_num: " ++
        decimal lists.desc.length ++ bytes "<br/>\n",lastRand⟩
  | none => w.crash

def Worker.start (w : Worker) (request : Request) : Worker :=
  let w := { w with request }
  if !request.method.allowed then w.answer .notAllowed
  else
    match request with
    | .recommend _ _ => { w with job := .profileRead }
    | .view _ _ args =>
      match parseArgs args [] [] with
      | some (_,_,url) => { w with job := .pageRead url }
      | none => w.crash

/-- What `GetRecommend` does with the profile it has read. -/
def Worker.profile (lib : CxxLib) (w : Worker) (ok : Bool) (userRecord : Record) : Worker :=
  if ok && userRecord.size != 0 then
    let used := (lib.sort (tagItems userRecord)).take 5
    if allPrio used = 0 then
      w.showRecommend ⟨false,.empty,bytes "No url can be Recommend: all_prio == 0",w.lastRand⟩
    else
      let di := double.round (1 / allPrio used)
      { w with job := .tagScan di used .empty (bytes "di= " ++ lib.showDouble di ++ bytes "<br/>\n") }
  else { w with job := .fillScan .empty [] }

structure Programs (σ τ υ : Type) where
  webtable : Table σ
  tagtable : Table τ
  usertable : Table υ
  lib : CxxLib
  parseKeyword : Bytes → List Bytes
  parseTitle : Bytes → Bytes

/-- The tables, with a ghost: the tags that each finished view has counted. -/
structure Servers (σ τ υ : Type) where
  web : σ
  tag : τ
  user : υ
  counted : List (List Bytes)

section
variable {σ τ υ : Type} (prog : Programs σ τ υ)

/-- The next message of a worker, or the request it takes up. -/
def workerStep (request : Option Request) : Servers σ τ υ × Worker → Servers σ τ υ × Worker
  | (s,w) =>
    match w.job with
    | .idle => (s,(request.map w.start).getD w)
    | .profileRead =>
      let (ok,userRecord) := prog.usertable.read s.user (bytes "user")
      (s,w.profile prog.lib ok userRecord)
    | .tagScan di (item :: todo) lists serr =>
      match profileLoop double prog.lib (prog.tagtable.scan s.tag) di 10 [item] (lists,serr) with
      | some (lists,serr) => (s,{ w with job := .tagScan di todo lists serr })
      | none => (s,w.crash)
    | .tagScan _ [] lists serr => (s,{ w with job := .fillScan lists serr })
    | .fillScan lists serr =>
      let (ok,slice) := prog.tagtable.scan s.tag w.lastRand (bytes "~")
      (s,if ok then w.fill slice lists serr else { w with lastRand := [], job := .refillScan lists serr })
    | .refillScan lists serr => (s,w.fill (prog.tagtable.scan s.tag [] (bytes "~")).2 lists serr)
    | .pageRead url => (s,{ w with job := .userRead url (viewTags (prog.webtable.read s.web) [url]) })
    | .userRead url tags => (s,{ w with job := .userWrite url tags (prog.usertable.read s.user (bytes "user")).2 })
    | .userWrite url tags row =>
      match recordTags row tags with
      | some row =>
        ({ s with user := (prog.usertable.write s.user (bytes "user") row).2, counted := s.counted ++ [tags] },
          { w with job := .htmlRead url (bytes "tags num: " ++ decimal tags.length ++ [10]) })
      | none => (s,w.crash)
    | .htmlRead url err => (s,w.respond err (viewHtml (prog.webtable.read s.web) url))
    | .crashed => (s,w)

structure IndexerState where
  endKey : Key
  getMicros : Nat → Int
  ticks : Nat
  lastKey : Key
  log : List Event
  pc : Pc

def Programs.env (getMicros : Nat → Int) : Env σ τ :=
  ⟨prog.webtable,prog.tagtable,prog.parseKeyword,prog.parseTitle,getMicros⟩

/-- The next message of an indexer, as far as the tables are concerned. -/
def indexerMove : (σ × τ) × IndexerState → (σ × τ) × IndexerState
  | ((web,tag),p) =>
    let (st,pc) := indexerStep (prog.env p.getMicros) p.endKey (⟨web,tag,p.ticks,p.lastKey,p.log⟩,p.pc)
    ((st.web,st.tag),{ p with ticks := st.ticks, lastKey := st.lastKey, log := st.log, pc })

inductive Process where
  | indexer (p : IndexerState)
  | worker (w : Worker)

/-- One move of a process. Only an idle worker looks at the request. -/
def processStep (request : Option Request) : Servers σ τ υ × Process → Servers σ τ υ × Process
  | (s,.indexer p) =>
    let ((web,tag),p) := indexerMove prog ((s.web,s.tag),p)
    ({ s with web, tag },.indexer p)
  | (s,.worker w) =>
    let (s,w) := workerStep prog request (s,w)
    (s,.worker w)

/-- A running site: its tables and any number of processes. -/
abbrev Running (ι σ τ υ : Type) := Interleaving.Config ι (Servers σ τ υ) Process

def Running.run {ι : Type} [DecidableEq ι] (c : Running ι σ τ υ) (moves : List (ι × Option Request)) :
    Running ι σ τ υ :=
  Interleaving.Config.run (processStep prog) c moves

end

end Aret.Site
