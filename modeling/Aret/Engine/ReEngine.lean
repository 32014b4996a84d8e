import Aret.Lib.Decimal
import Aret.Lib.Rounding
import Aret.Tera.Table

/-! The recommendation engine of `re_engine.cc`. A call sees its tables through
`Read` and `Scan`; the static cursor `last_rand` and the three result vectors
are passed along. `none` stands for undefined behaviour: a missing cell that is
read, an `int` that overflows, a `double` that is no `int` when cast to one. -/
namespace Aret.Engine
open Lib Tera

structure TagItem where
  num : Int
  tag : Bytes
  deriving DecidableEq, Repr

/-- `TagItem::operator<`. -/
def TagItem.less (a b : TagItem) : Prop := a.num > b.num

/-- The library calls whose result the standard leaves open: `std::sort` may
order equal items freely, and no property depends on the text of a `double`. -/
structure CxxLib where
  sort : List TagItem → List TagItem
  sort_perm : ∀ items, (sort items).Perm items
  sort_sorted : ∀ items, (sort items).Pairwise (fun a b => ¬ b.less a)
  showDouble : ℚ → Bytes

def getHtml (webtable : Read) (url : Key) (html : Bytes) : Bool × Bytes :=
  let (ok,record) := webtable url
  let html := if ok && !record.isEmpty then
      match (column record (bytes "page")).entries with
      | [] => html
      | (_,htmlstr) :: _ => htmlstr
    else html
  (!html.isEmpty,html)

/-- What `GetUrlForTag` returns and fills. `picked` is a ghost: the rows the
pushed urls and titles were taken from. -/
structure TagScan where
  ret : Int
  urls : List Bytes
  titles : List Bytes
  err : Bytes
  picked : List (Key × Record)

def getUrlForTagLoop (tag : Bytes) (num : Int) : List (Key × Record) → TagScan → TagScan
  | [],st => st
  | (rowKey,row) :: rest,st =>
    if st.ret < num then
      if find tag rowKey = none then
        { st with err := st.err ++ bytes "row_key " ++ rowKey ++ bytes " find " ++ tag ++ bytes "fail <br/>\n" }
      else if row.isEmpty then
        getUrlForTagLoop tag num rest { st with err := st.err ++ bytes "Empty row in user table<br/>" }
      else
        getUrlForTagLoop tag num rest { st with
          ret := st.ret + 1
          urls := st.urls ++ [cell row (bytes "url") 0]
          titles := st.titles ++ [cell row (bytes "title") 0]
          picked := st.picked ++ [(rowKey,row)] }
    else st

def getUrlForTag (tagtable : Scan) (tag : Bytes) (num : Int) (urls titles : List Bytes) (err : Bytes) : TagScan :=
  let (ok,slice) := tagtable tag (bytes "~")
  if !ok || slice.isEmpty then
    ⟨0,urls,titles,err ++ bytes "Scan tagtable " ++ tag ++ bytes "fail <br/>\n",[]⟩
  else getUrlForTagLoop tag num slice.entries ⟨0,urls,titles,err,[]⟩

structure Lists where
  urls : List Bytes
  desc : List Bytes
  tags : List Bytes
  deriving DecidableEq, Repr

def Lists.empty : Lists := ⟨[],[],[]⟩

/-- `begin()->second` of a column; there is nothing to dereference in an empty one. -/
def beginCell (column : Column) : Option Bytes := column.entries.head?.map Prod.snd

def randomRecommendLoop (num : Int) : List (Key × Record) → Int → Lists × Key → Option (Lists × Key)
  | [],_,st => some st
  | (rowKey,record) :: rest,n,(lists,lastRand) =>
    if n < num then
      match beginCell (column record (bytes "url")),beginCell (column record (bytes "title")) with
      | some url,some title =>
        randomRecommendLoop num rest (n + 1)
          (⟨lists.urls ++ [url],lists.desc ++ [title],lists.tags ++ [rowKey]⟩,rowKey ++ [0])
      | _,_ => none
    else some (lists,lastRand)

/-- What `last_rand` is set to before the rows are taken, if it is, and the slice to
take them from. A failed `Scan` sets it to `""` and scans again from the start. -/
def randomScan (tagtable : Scan) (lastRand : Key) : Option Key × TableSlice :=
  let (ok,slice) := tagtable lastRand (bytes "~")
  if ok then (none,slice) else (some [],(tagtable [] (bytes "~")).2)

/-- `RandomRecommend` with its static cursor made explicit. -/
def randomRecommend (tagtable : Scan) (num : Int) (lists : Lists) (lastRand : Key) : Option (Bool × Lists × Key) :=
  let (set,slice) := randomScan tagtable lastRand
  (randomRecommendLoop num slice.entries 0 (lists,set.getD lastRand)).map (fun st => (true,st))

/-- `ckey.substr(ckey.find(":") + 1)`; without a colon `npos + 1` wraps to `0`. -/
def afterColon (ckey : Key) : Bytes :=
  match find [58] ckey with
  | some pos => ckey.drop (pos + 1)
  | none => ckey

def tagItemsFrom : List (Key × Column) → List TagItem
  | [] => []
  | (ckey,tagColumn) :: rest =>
    if ckey < bytes "tag~" then ⟨atoi (tagColumn.get 0 []),afterColon ckey⟩ :: tagItemsFrom rest else []

/-- `tag_items`, starting at `lower_bound("tag")`. -/
def tagItems (userRecord : Record) : List TagItem :=
  tagItemsFrom (userRecord.entries.dropWhile (fun p => p.1 < bytes "tag"))

/-- `all_prio` over the at most five items in use; a sum of so few `int`s is
exact in a `double`. -/
def allPrio (used : List TagItem) : ℚ := (used.map (fun item => (item.num : ℚ))).sum

/-- `static_cast<int>`, undefined when the integer part is out of range. -/
def truncToInt (q : ℚ) : Option Int := if -2^31 ≤ truncate q ∧ truncate q < 2^31 then some (truncate q) else none

/-- The arithmetic of `double`, a significand of 53 bits. No value that occurs
here comes near the ends of the exponent's range. -/
def double : Rounding 53 := .nearest 53

section
variable (fp : Rounding 53)

def recommendRadio : ℚ := fp.round (7 / 10)

def tagNum (prio di : ℚ) (num : Int) : Option Int :=
  (truncToInt (fp.round (fp.round (fp.round (prio * di) * num) * recommendRadio fp))).map (fun tagNum =>
    if tagNum > 2 then 2 else tagNum)

def profileLoop (lib : CxxLib) (tagtable : Scan) (di : ℚ) (num : Int) :
    List TagItem → Lists × Bytes → Option (Lists × Bytes)
  | [],st => some st
  | item :: rest,(lists,serr) =>
    (tagNum fp item.num di num).bind (fun quota =>
      let got := getUrlForTag tagtable item.tag quota lists.urls lists.desc serr
      let serr := got.err ++ bytes "GetUrlForTag " ++ lib.showDouble item.num ++ bytes " \"" ++ item.tag ++
        bytes "\" " ++ showInt quota ++ bytes " ret: " ++ showInt got.ret ++ bytes "<br/>\n"
      profileLoop lib tagtable di num rest
        (⟨got.urls,got.titles,lists.tags ++ List.replicate got.ret.toNat item.tag⟩,serr))

/-- The part of `GetRecommend` that follows the user's profile. -/
def profilePart (lib : CxxLib) (tagtable : Scan) (userRecord : Record) (num : Int) (lists : Lists) :
    Option (Except Bytes (Lists × Bytes)) :=
  let used := (lib.sort (tagItems userRecord)).take 5
  if allPrio used = 0 then some (.error (bytes "No url can be Recommend: all_prio == 0"))
  else
    let di := fp.round (1 / allPrio used)
    (profileLoop fp lib tagtable di num used (lists,bytes "di= " ++ lib.showDouble di ++ bytes "<br/>\n")).map .ok

end

/-- `num - urls->size()` in `size_t`, converted back to `int`. -/
def fillNum (num : Int) (size : Nat) : Int := toInt32 ((num - size) % 2^64)

/-- The two `rfind("-")` and the `resize` that turn a row key into its keyword;
at `0` the position `pos - 1` wraps to `npos`. -/
def stripKey (tag : Bytes) : Bytes :=
  match rfind 45 tag none with
  | none => tag
  | some pos =>
    match rfind 45 tag (if pos = 0 then none else some (pos - 1)) with
    | none => tag
    | some pos => tag.take pos

structure Recommendation where
  ret : Bool
  lists : Lists
  err : Bytes
  lastRand : Key
  deriving DecidableEq, Repr

/-- `GetRecommend`, with the arithmetic its `double`s are computed in. -/
def getRecommendWith (fp : Rounding 53) (lib : CxxLib) (usertable : Read) (tagtable : Scan) (lastRand : Key)
    (user : Key) (num : Int) (lists : Lists) : Option Recommendation :=
  let (ok,userRecord) := usertable user
  let profile := if ok && userRecord.size != 0 then profilePart fp lib tagtable userRecord num lists
    else some (.ok (lists,[]))
  profile.bind (fun
    | .error text => some ⟨false,lists,text,lastRand⟩
    | .ok (lists,serr) =>
      (randomRecommend tagtable (fillNum num lists.urls.length) lists lastRand).map (fun (ret,lists,lastRand) =>
        let serr := serr ++ bytes "url_num: " ++ decimal lists.urls.length ++ bytes ", title_num: " ++
          decimal lists.desc.length ++ bytes "<br/>\n"
        ⟨ret,{ lists with tags := lists.tags.map stripKey },serr,lastRand⟩))

def getRecommend (lib : CxxLib) (usertable : Read) (tagtable : Scan) (lastRand : Key) (user : Key) (num : Int)
    (lists : Lists) : Option Recommendation :=
  getRecommendWith double lib usertable tagtable lastRand user num lists

inductive ActionType where
  | view | ignore | like | dislike | arrive
  deriving DecidableEq, Repr

def pageTags (webtable : Read) (url : Key) : List Bytes :=
  (column (webtable url).2 (bytes "tag")).entries.map Prod.snd

def viewTags (webtable : Read) (content : List Key) : List Bytes := content.flatMap (pageTags webtable)

/-- One pass of the counting loop; `num + 1` overflows at the top of `int`. -/
def bumpTag (userRecord : Record) (tag : Bytes) : Option Record :=
  let nowTag := bytes "tag:" ++ tag
  let tagColumn := column userRecord nowTag
  if tagColumn.isEmpty then some (userRecord.insert nowTag (tagColumn.insert 0 (bytes "1")))
  else
    let num := atoi (tagColumn.get 0 [])
    if num = 2^31 - 1 then none
    else some (userRecord.insert nowTag (tagColumn.insert 0 (showInt (num + 1))))

def recordTags (userRecord : Record) (tags : List Bytes) : Option Record := tags.foldlM bumpTag userRecord

/-- `RecordActions`: the new state of the user table, the return value, `err`. -/
def recordActions {σ : Type} (webtable : Read) (usertable : Table σ) (s : σ) (user : Key) (action : ActionType)
    (content : List Key) (err : Bytes) : Option (σ × Bool × Bytes) :=
  if action ≠ .view then some (s,true,err)
  else
    let tags := viewTags webtable content
    let userRecord := (usertable.read s user).2
    (recordTags userRecord tags).map (fun userRecord =>
      ((usertable.write s user userRecord).2,true,bytes "tags num: " ++ decimal tags.length ++ [10]))

end Aret.Engine
