import Aret.Lib.Decimal
import Aret.Tera.Table

/-! The indexing program `ec.cc`: it scans the WebTable, extracts keywords and a
title from each page, and writes both tables. The library `pk` and the clock
are parameters. -/
namespace Aret.Indexer
open Lib Tera

/-- What `main` gets from outside: its tables, `pk::parse_keyword` on an empty
vector, `pk::parse_title`, and the successive readings of `get_micros`. -/
structure Env (σ τ : Type) where
  table : Table σ
  tagTable : Table τ
  parseKeyword : Bytes → List Bytes
  parseTitle : Bytes → Bytes
  getMicros : Nat → Int

inductive Event where
  | row (rowKey : Key)
  | tagWrite (rowKey kw title : Bytes) (ts nt : Int)
  | webWrite (rowKey : Key) (record : Record)

structure State (σ τ : Type) where
  web : σ
  tag : τ
  ticks : Nat
  lastKey : Key
  log : List Event

def code : Bytes := bytes "content=\"text/html; charset=utf-8\" />"

def stripCode (html : Bytes) : Bytes :=
  match find code html with
  | some pos => html.take pos ++ html.drop (pos + code.length)
  | none => html

def tagKey (kw : Bytes) (ts nt : Int) : Key := kw ++ bytes "-" ++ showInt ts ++ bytes "-" ++ showInt nt

def tagRecord (rowKey title : Bytes) : Record :=
  ((∅ : Record).insert (bytes "url") (.single 0 rowKey)).insert (bytes "title") (.single 0 title)

section
variable {σ τ : Type} (env : Env σ τ)

def writeTag (rowKey title : Bytes) (ts : Int) (kw : Bytes) (st : State σ τ) : State σ τ :=
  let nt := env.getMicros st.ticks
  { st with
    tag := (env.tagTable.write st.tag (tagKey kw ts nt) (tagRecord rowKey title)).2
    ticks := st.ticks + 1
    log := st.log ++ [.tagWrite rowKey kw title ts nt] }

/-- The loop over `kws` from index `i`, with the record it fills. -/
def tagLoop (rowKey title : Bytes) (ts : Int) : List Bytes → Nat → State σ τ × Record → State σ τ × Record
  | [],_,st => st
  | kw :: kws,i,(st,record) =>
    tagLoop rowKey title ts kws (i + 1)
      (writeTag env rowKey title ts kw st,
        record.insert (bytes "tag") ((column record (bytes "tag")).insert i kw))

/-- One pass of the inner loop. `html` is edited in place, so the record that is
written back holds the edited page; `sort` and `unique` run on the still empty
vector `kws`. -/
def processRow (st : State σ τ) (row : Key × Record) : State σ τ :=
  let (rowKey,record) := row
  let st := { st with lastKey := rowKey ++ [0], log := st.log ++ [.row rowKey] }
  if find (bytes "2014") rowKey = none then st
  else
    match (column record (bytes "page")).entries with
    | [] => st
    | (ts,page) :: _ =>
      let html := stripCode page
      let record := record.insert (bytes "page") ((column record (bytes "page")).insert ts html)
      let (st,record) := tagLoop env rowKey (env.parseTitle html) ts (env.parseKeyword html) 0 (st,record)
      { st with
        web := (env.table.write st.web rowKey record).2
        log := st.log ++ [.webWrite rowKey record] }

/-- The scan loop; `none` means that `fuel` slices were not enough. -/
def mainLoop (endKey : Key) : Nat → State σ τ → Option (State σ τ)
  | 0,_ => none
  | fuel + 1,st =>
    if st.lastKey ≠ [] ∨ st.lastKey ≤ endKey then
      let slice := (env.table.scan st.web st.lastKey (bytes "~")).2
      if slice.isEmpty then some st else mainLoop endKey fuel (slice.entries.foldl (processRow env) st)
    else some st

/-- `main` with its two optional arguments, `""` when they are missing. -/
def main (startKey endKey : Key) (fuel : Nat) (web : σ) (tag : τ) : Option (State σ τ) :=
  mainLoop env endKey fuel ⟨web,tag,0,startKey,[]⟩

end

end Aret.Indexer
