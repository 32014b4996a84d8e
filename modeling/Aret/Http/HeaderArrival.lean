import Aret.Http.RequestUri

/-! How a request line comes in: read by read into the buffer of the connection, and
moved to a larger one when that is full, with every pointer of the request moved
along (`ngx_http_process_request_line`, `ngx_http_alloc_large_header_buffer`). -/
namespace Aret.Http
open Lib

/-- The directive `large_client_header_buffers`. -/
structure LargeBuffers where
  num : Nat
  size : Nat
  deriving DecidableEq, Repr

/-- A request that is being read: the addresses of the free large buffers and the
number of busy ones belong to the connection. -/
structure Arrival where
  b : HeaderIn
  pos : Int
  r : RequestLine
  free : List Int
  nbusy : Nat
  deriving DecidableEq, Repr

/-- `new + (x - old)`, which moves a null pointer as well. -/
def moveTo (old new x : Int) : Int := new + (x - old)

def moveSet (old new x : Int) : Int := if x ≠ 0 then moveTo old new x else x

/-- The pointers of the request after its line has been copied from `old` to `new`. -/
def relocate (r : RequestLine) (old new : Int) : RequestLine :=
  { r with
    requestStart := new
    requestEnd := moveSet old new r.requestEnd
    methodEnd := moveTo old new r.methodEnd
    uriStart := moveTo old new r.uriStart
    uriEnd := moveTo old new r.uriEnd
    schemaStart := moveSet old new r.schemaStart
    schemaEnd := if r.schemaStart ≠ 0 then moveTo old new r.schemaEnd else r.schemaEnd
    hostStart := moveSet old new r.hostStart
    hostEnd := if r.hostStart ≠ 0 then moveSet old new r.hostEnd else r.hostEnd
    uriExt := moveSet old new r.uriExt
    argsStart := moveSet old new r.argsStart
    httpProtocol := moveSet old new r.httpProtocol }

def Arrival.moved (a : Arrival) (size : Nat) (new : Int) : Arrival :=
  let old := a.r.requestStart
  { a with
    b := ⟨new,a.b.text old a.pos,size⟩
    pos := new + (a.pos - old)
    r := relocate a.r old new
    nbusy := a.nbusy + 1 }

def HeaderIn.received (b : HeaderIn) (chunk : Bytes) : HeaderIn := { b with data := b.data ++ chunk }

/-- A connection at the start of a request, behind the bytes of earlier ones that are
still in the buffer. A pipelined request that is there already counts as received by
the first event. -/
def Arrival.init (b : HeaderIn) (free : List Int) (nbusy : Nat) : Arrival :=
  ⟨b,b.start + b.data.length,.init,free,nbusy⟩

/-- A pointer that the code tests: null in both requests, or moved by `d` and within
the line, which starts at `lo` and has been read up to `hi`. -/
def Tested (d lo hi x x' : Int) : Prop := (x = 0 ∧ x' = 0) ∨ (x ≠ 0 ∧ x' ≠ 0 ∧ x' = x + d ∧ lo ≤ x' ∧ x' ≤ hi)

/-- A pointer that is moved untested: right as soon as it has been set. -/
def Untested (d lo hi x x' : Int) : Prop := x' ≠ 0 → x' = x + d ∧ lo ≤ x' ∧ x' ≤ hi

/-- The same request, read in place in one buffer (`r'`) and moved about (`r`). -/
structure Moved (d lo hi : Int) (r r' : RequestLine) : Prop where
  state : r'.state = r.state ∧ r.state ≠ .start
  start : r.requestStart = lo
  requestStart : r'.requestStart = r.requestStart + d
  requestEnd : Tested d r'.requestStart hi r.requestEnd r'.requestEnd
  methodEnd : Untested d r'.requestStart (hi - 1) r.methodEnd r'.methodEnd
  uriStart : Untested d r'.requestStart hi r.uriStart r'.uriStart
  uriEnd : Untested d r'.requestStart hi r.uriEnd r'.uriEnd
  schemaStart : Tested d r'.requestStart hi r.schemaStart r'.schemaStart
  schemaEnd : Untested d r'.requestStart hi r.schemaEnd r'.schemaEnd
  hostStart : Tested d r'.requestStart hi r.hostStart r'.hostStart
  hostEnd : Tested d r'.requestStart hi r.hostEnd r'.hostEnd
  uriExt : Tested d r'.requestStart hi r.uriExt r'.uriExt
  argsStart : Tested d r'.requestStart hi r.argsStart r'.argsStart
  httpProtocol : Tested d r'.requestStart hi r.httpProtocol r'.httpProtocol
  schema : r'.schemaEnd ≠ 0 → r'.schemaStart ≠ 0
  host : r'.hostEnd ≠ 0 → r'.hostStart ≠ 0
  method : r'.method = r.method
  httpMajor : r'.httpMajor = r.httpMajor
  httpMinor : r'.httpMinor = r.httpMinor
  complexUri : r'.complexUri = r.complexUri
  quotedUri : r'.quotedUri = r.quotedUri
  plusInUri : r'.plusInUri = r.plusInUri
  spaceInUri : r'.spaceInUri = r.spaceInUri

inductive TurnMoved (d lo hi : Int) : LineTurn → LineTurn → Prop where
  | go {r r' : RequestLine} (h : Moved d lo hi r r') : TurnMoved d lo hi (.go r) (.go r')
  | done {r r' : RequestLine} (h : Moved d lo hi r r') : TurnMoved d lo hi (.done r) (.done r')
  | error (e : LineError) : TurnMoved d lo hi (.error e) (.error e)

theorem Tested.mono {d lo hi hi' x x' : Int} (hle : hi ≤ hi') (h : Tested d lo hi x x') : Tested d lo hi' x x' :=
  h.imp id fun ⟨h0,h1,h2,h3,h4⟩ => ⟨h0,h1,h2,h3,h4.trans hle⟩

theorem Untested.mono {d lo hi hi' x x' : Int} (hle : hi ≤ hi') (h : Untested d lo hi x x') : Untested d lo hi' x x' :=
  fun hx => ⟨(h hx).1,(h hx).2.1,(h hx).2.2.trans hle⟩

theorem Moved.mono {d lo hi hi' : Int} {r r' : RequestLine} (hle : hi ≤ hi') (h : Moved d lo hi r r') :
    Moved d lo hi' r r' where
  state := h.state
  start := h.start
  requestStart := h.requestStart
  requestEnd := h.requestEnd.mono hle
  methodEnd := h.methodEnd.mono (by omega)
  uriStart := h.uriStart.mono hle
  uriEnd := h.uriEnd.mono hle
  schemaStart := h.schemaStart.mono hle
  schemaEnd := h.schemaEnd.mono hle
  hostStart := h.hostStart.mono hle
  hostEnd := h.hostEnd.mono hle
  uriExt := h.uriExt.mono hle
  argsStart := h.argsStart.mono hle
  httpProtocol := h.httpProtocol.mono hle
  schema := h.schema
  host := h.host
  method := h.method
  httpMajor := h.httpMajor
  httpMinor := h.httpMinor
  complexUri := h.complexUri
  quotedUri := h.quotedUri
  plusInUri := h.plusInUri
  spaceInUri := h.spaceInUri

section Turn
variable {d p lo hi : Int} {r r' : RequestLine} {ch : UInt8}

/-- The byte at `p` belongs to a line that starts before it, and null is no address. -/
structure OnLine (d p lo : Int) : Prop where
  pos : 0 < lo
  lt : lo < p + d
  here : 1 < p

theorem Tested.here (hp : OnLine d p lo) : Tested d lo (p + d + 1) p (p + d) := by
  obtain ⟨h0,h1,h2⟩ := hp
  exact .inr ⟨by omega,by omega,rfl,by omega,by omega⟩

theorem Tested.next (hp : OnLine d p lo) : Tested d lo (p + d + 1) (p + 1) (p + d + 1) := by
  obtain ⟨h0,h1,h2⟩ := hp
  exact .inr ⟨by omega,by omega,by omega,by omega,by omega⟩

theorem Tested.before (hp : OnLine d p lo) : Tested d lo (p + d + 1) (p - 1) (p + d - 1) := by
  obtain ⟨h0,h1,h2⟩ := hp
  exact .inr ⟨by omega,by omega,by omega,by omega,by omega⟩

theorem Tested.null : Tested d lo hi 0 0 := .inl ⟨rfl,rfl⟩

theorem Untested.here (hp : OnLine d p lo) : Untested d lo (p + d + 1) p (p + d) :=
  fun _ => ⟨rfl,hp.lt.le,by omega⟩

theorem Untested.before (hp : OnLine d p lo) : Untested d lo (p + d + 1 - 1) (p - 1) (p + d - 1) :=
  fun _ => ⟨by omega,by have := hp.lt; omega,by omega⟩

theorem Untested.plus {x x' : Int} (h : Untested d lo (p + d + 1) x x') (hx : x' ≠ 0 ∧ x' + 2 ≤ p + d) {n : Int}
    (hn : 0 ≤ n ∧ n ≤ 2) : Untested d lo (p + d + 1) (x + n) (x' + n) := by
  obtain ⟨h0,h1,h2⟩ := h hx.1
  exact fun _ => ⟨by omega,by omega,by omega⟩

theorem expectTurn_moved (h : Moved d lo (p + d + 1) r r') (expected : UInt8) {state : LineState}
    (hstate : state ≠ .start) :
    TurnMoved d lo (p + d + 1) (expectTurn r ch expected state) (expectTurn r' ch expected state) := by
  unfold expectTurn
  split_ifs
  · exact .go { h with state := ⟨rfl,hstate⟩ }
  · exact .error _

theorem lineEnd09_moved (h : Moved d lo (p + d + 1) r r') {turn turn' : LineTurn}
    (hturn : TurnMoved d lo (p + d + 1) turn turn') :
    TurnMoved d lo (p + d + 1) (lineEnd09 r ch turn) (lineEnd09 r' ch turn') := by
  unfold lineEnd09
  split_ifs
  · exact .go { h with httpMinor := rfl, state := ⟨rfl,by simp⟩ }
  · exact .done { h with httpMinor := rfl }
  · exact hturn

theorem uriEndTurn_moved (h : Moved d lo (p + d + 1) r r') (hp : OnLine d p r'.requestStart) {behind : LineState}
    (hbehind : behind ≠ .start) {turn turn' : LineTurn} (hturn : TurnMoved d lo (p + d + 1) turn turn') :
    TurnMoved d lo (p + d + 1) (uriEndTurn r p ch behind turn) (uriEndTurn r' (p + d) ch behind turn') := by
  unfold uriEndTurn
  split_ifs
  · exact .go { h with uriEnd := .here hp, state := ⟨rfl,hbehind⟩ }
  · refine lineEnd09_moved ?_ hturn
    exact { h with uriEnd := .here hp }
  · exact .error _
  · exact hturn

theorem hostEndTurn_moved (h : Moved d lo (p + d + 1) r r') (hp : OnLine d p r'.requestStart)
    (hschema : r'.schemaEnd ≠ 0 ∧ r'.schemaEnd + 2 ≤ p + d)
    (hhost : r'.hostStart ≠ 0) :
    TurnMoved d lo (p + d + 1) (hostEndTurn r p ch) (hostEndTurn r' (p + d) ch) := by
  unfold hostEndTurn
  split_ifs
  · exact .go { h with hostEnd := .here hp, host := fun _ => hhost, state := ⟨rfl,by simp⟩ }
  · exact .go { h with hostEnd := .here hp, host := fun _ => hhost, uriStart := .here hp, state := ⟨rfl,by simp⟩ }
  · exact .go { h with
      hostEnd := .here hp
      host := fun _ => hhost
      uriStart := h.schemaEnd.plus hschema (by decide)
      uriEnd := h.schemaEnd.plus hschema (by decide)
      state := ⟨rfl,by simp⟩ }
  · exact .error _

theorem hostTurn_moved (h : Moved d lo (p + d + 1) r r') (hp : OnLine d p r'.requestStart)
    (hschema : r'.schemaEnd ≠ 0 ∧ r'.schemaEnd + 2 ≤ p + d)
    (hhost : r'.hostStart ≠ 0) :
    TurnMoved d lo (p + d + 1) (hostTurn r p ch) (hostTurn r' (p + d) ch) := by
  unfold hostTurn
  split_ifs
  · exact .go h
  · exact hostEndTurn_moved h hp hschema hhost

theorem behindUriTurn_moved (h : Moved d lo (p + d + 1) r r') (hp : OnLine d p r'.requestStart) {turn turn' : LineTurn}
    (hturn : TurnMoved d lo (p + d + 1) turn turn') :
    TurnMoved d lo (p + d + 1) (behindUriTurn r p ch turn) (behindUriTurn r' (p + d) ch turn') := by
  unfold behindUriTurn
  split_ifs
  · exact .go h
  · exact lineEnd09_moved h (.go { h with httpProtocol := .here hp, state := ⟨rfl,by simp⟩ })
  · exact lineEnd09_moved h hturn

theorem afterSlashTurn_moved (h : Moved d lo (p + d + 1) r r') (hp : OnLine d p r'.requestStart) :
    TurnMoved d lo (p + d + 1) (afterSlashTurn r p ch) (afterSlashTurn r' (p + d) ch) := by
  unfold afterSlashTurn
  split_ifs
  · exact .go { h with state := ⟨rfl,by simp⟩ }
  · exact uriEndTurn_moved h hp (by simp) (.go { h with complexUri := rfl, state := ⟨rfl,by simp⟩ })
  · exact uriEndTurn_moved h hp (by simp) (.go { h with quotedUri := rfl, state := ⟨rfl,by simp⟩ })
  · exact uriEndTurn_moved h hp (by simp) (.go { h with argsStart := .next hp, state := ⟨rfl,by simp⟩ })
  · exact uriEndTurn_moved h hp (by simp) (.go { h with plusInUri := rfl })
  · exact uriEndTurn_moved h hp (by simp) (.go { h with state := ⟨rfl,by simp⟩ })

theorem checkUriTurn_moved (h : Moved d lo (p + d + 1) r r') (hp : OnLine d p r'.requestStart) :
    TurnMoved d lo (p + d + 1) (checkUriTurn r p ch) (checkUriTurn r' (p + d) ch) := by
  unfold checkUriTurn
  split_ifs
  · exact .go h
  · exact uriEndTurn_moved h hp (by simp) (.go { h with uriExt := .null, state := ⟨rfl,by simp⟩ })
  · exact uriEndTurn_moved h hp (by simp) (.go { h with uriExt := .next hp })
  · exact uriEndTurn_moved h hp (by simp) (.go { h with quotedUri := rfl, state := ⟨rfl,by simp⟩ })
  · exact uriEndTurn_moved h hp (by simp) (.go { h with argsStart := .next hp, state := ⟨rfl,by simp⟩ })
  · exact uriEndTurn_moved h hp (by simp) (.go { h with complexUri := rfl, state := ⟨rfl,by simp⟩ })
  · exact uriEndTurn_moved h hp (by simp) (.go { h with plusInUri := rfl })
  · exact uriEndTurn_moved h hp (by simp) (.go h)

theorem uriByteTurn_moved (h : Moved d lo (p + d + 1) r r') (hp : OnLine d p r'.requestStart) :
    TurnMoved d lo (p + d + 1) (uriByteTurn r p ch) (uriByteTurn r' (p + d) ch) := by
  unfold uriByteTurn
  split_ifs
  · exact .go h
  · exact uriEndTurn_moved h hp (by simp) (.go { h with complexUri := rfl })
  · exact uriEndTurn_moved h hp (by simp) (.go h)

/-- A byte of the line does the same to both requests, if the method is read from the
same text. -/
theorem lineTurn_moved {b' : HeaderIn} (hnull : 0 < b'.start) (h : Moved d lo (p + d) r r')
    (hknown : LineInv b' r' (p + d))
    (hp : OnLine d p r'.requestStart) (m : Bytes) (ch : UInt8) :
    TurnMoved d lo (p + d + 1) (lineTurn m r p ch) (lineTurn m r' (p + d) ch) := by
  replace h := h.mono (by omega : p + d ≤ p + d + 1)
  have hne : p + d ≠ 0 := by
    have := hp.pos
    have := hp.lt
    omega
  have hschema (h : SchemaSlash b' r' (p + d)) : r'.schemaEnd ≠ 0 ∧ r'.schemaEnd + 2 ≤ p + d :=
    ⟨by have := h.1; omega,h.2.1⟩
  rcases r with ⟨state⟩
  rcases r' with ⟨state'⟩
  obtain ⟨rfl,hstate⟩ := h.state
  cases state' with
  | start => simp at hstate
  | method =>
    simp only [lineTurn]
    split_ifs
    · exact .go { h with methodEnd := .before hp, method := congrArg (methodOf m) h.method, state := ⟨rfl,by simp⟩ }
    · exact .go h
    · exact .error _
  | spacesBeforeUri =>
    simp only [lineTurn]
    split_ifs
    · exact .go { h with uriStart := .here hp, state := ⟨rfl,by simp⟩ }
    · exact .go { h with schemaStart := .here hp, schema := fun _ => hne, state := ⟨rfl,by simp⟩ }
    · exact .go h
    · exact .error _
  | schema =>
    simp only [lineTurn]
    split_ifs
    · exact .go h
    · exact .go { h with schemaEnd := .here hp, schema := fun _ => hknown.2, state := ⟨rfl,by simp⟩ }
    · exact .error _
  | schemaSlash => exact expectTurn_moved h 47 (by simp)
  | schemaSlashSlash => exact expectTurn_moved h 47 (by simp)
  | hostStart =>
    simp only [lineTurn]
    split_ifs
    · exact .go { h with hostStart := .here hp, host := fun _ => hne, state := ⟨rfl,by simp⟩ }
    · exact hostTurn_moved { h with hostStart := .here hp, host := fun _ => hne, state := ⟨rfl,by simp⟩ } hp
        (hschema hknown.2) hne
  | host => exact hostTurn_moved h hp (hschema hknown.2.1) hknown.2.2
  | hostEnd => exact hostEndTurn_moved h hp (hschema hknown.2.1) hknown.2.2
  | hostIpLiteral =>
    simp only [lineTurn]
    split_ifs
    · exact .go h
    · exact .go { h with state := ⟨rfl,by simp⟩ }
    · exact .go h
    · exact .error _
  | port =>
    have hend := hschema hknown.2
    simp only [lineTurn]
    split_ifs
    · exact .go h
    · exact .go { h with uriStart := .here hp, state := ⟨rfl,by simp⟩ }
    · exact .go { h with
        uriStart := h.schemaEnd.plus hend (by decide)
        uriEnd := h.schemaEnd.plus hend (by decide)
        state := ⟨rfl,by simp⟩ }
    · exact .error _
  | hostHttp09 => exact behindUriTurn_moved h hp (.error _)
  | afterSlashInUri => exact afterSlashTurn_moved h hp
  | checkUri => exact checkUriTurn_moved h hp
  | checkUriHttp09 =>
    exact behindUriTurn_moved h hp (checkUriTurn_moved { h with spaceInUri := rfl, state := ⟨rfl,by simp⟩ } hp)
  | uri => exact uriByteTurn_moved h hp
  | http09 => exact behindUriTurn_moved h hp (uriByteTurn_moved { h with spaceInUri := rfl, state := ⟨rfl,by simp⟩ } hp)
  | httpH => exact expectTurn_moved h 84 (by simp)
  | httpHT => exact expectTurn_moved h 84 (by simp)
  | httpHTT => exact expectTurn_moved h 80 (by simp)
  | httpHTTP => exact expectTurn_moved h 47 (by simp)
  | firstMajorDigit =>
    simp only [lineTurn]
    split_ifs
    · exact .go { h with httpMajor := rfl, state := ⟨rfl,by simp⟩ }
    · exact .error _
  | majorDigit =>
    simp only [lineTurn]
    split_ifs
    · exact .go { h with state := ⟨rfl,by simp⟩ }
    · exact .go { h with httpMajor := congrArg (pushDigit · ch) h.httpMajor }
    · exact .error _
  | firstMinorDigit =>
    simp only [lineTurn]
    split_ifs
    · exact .go { h with httpMinor := rfl, state := ⟨rfl,by simp⟩ }
    · exact .error _
  | minorDigit =>
    simp only [lineTurn]
    split_ifs
    · exact .go { h with state := ⟨rfl,by simp⟩ }
    · exact .done h
    · exact .go { h with state := ⟨rfl,by simp⟩ }
    · exact .go { h with httpMinor := congrArg (pushDigit · ch) h.httpMinor }
    · exact .error _
  | spacesAfterDigit =>
    simp only [lineTurn]
    split_ifs
    · exact .go h
    · exact .go { h with state := ⟨rfl,by simp⟩ }
    · exact .done h
    · exact .error _
  | almostDone =>
    simp only [lineTurn]
    split_ifs
    · exact .done { h with requestEnd := .before hp }
    · exact .error _

end Turn

/-- No byte of the line has come yet; only `request_start` follows the blank lines. -/
def Blank (r : RequestLine) : Prop := ∃ x, r = { RequestLine.init with requestStart := x }

/-- The bytes read so far are the same, and the pointers into them correspond. -/
structure Aligned (whole b : HeaderIn) (d p : Int) (r r' : RequestLine) : Prop where
  moved : Moved d r.requestStart (p + d) r r'
  start_le : b.start ≤ r.requestStart
  start_le' : whole.start ≤ r'.requestStart
  lt : r.requestStart < p
  text : b.text r.requestStart p = whole.text r'.requestStart (p + d)

/-- A request before the byte at `p`, and the same one read in place before `p + d`. -/
def Beside (whole b : HeaderIn) (d p : Int) (r r' : RequestLine) : Prop :=
  LineInv whole r' (p + d) ∧ (Blank r ∧ Blank r' ∨ Aligned whole b d p r r')

section Loop
variable {whole b : HeaderIn} {d p : Int} {r r' : RequestLine} {ch : UInt8}

/-- The text of the line grows by the same byte on both sides. -/
theorem Aligned.snoc (h : Aligned whole b d p r r') (hp : b.At p ch) (hp' : whole.At (p + d) ch) {s s' : RequestLine}
    (hmoved : Moved d r.requestStart (p + d + 1) s s') : Aligned whole b d (p + 1) s s' := by
  have hstart := hmoved.start
  have hstart' : s'.requestStart = r'.requestStart := by rw [hmoved.requestStart,h.moved.requestStart,hstart]
  have hnext : p + 1 + d = p + d + 1 := by omega
  have hlt := h.lt
  have hlt' : r'.requestStart ≤ p + d := by
    rw [h.moved.requestStart]
    omega
  refine ⟨by rw [hnext,hstart]; exact hmoved,hstart ▸ h.start_le,hstart' ▸ h.start_le',by omega,?_⟩
  rw [hnext,hstart,hstart',text_snoc h.start_le hlt.le hp,text_snoc h.start_le' hlt' hp',h.text]

theorem moved_first (d p : Int) :
    Moved d p (p + d + 1) { RequestLine.init with requestStart := p, state := .method }
      { RequestLine.init with requestStart := p + d, state := .method } where
  state := ⟨rfl,by simp⟩
  start := rfl
  requestStart := rfl
  requestEnd := .null
  methodEnd := fun h => absurd rfl h
  uriStart := fun h => absurd rfl h
  uriEnd := fun h => absurd rfl h
  schemaStart := .null
  schemaEnd := fun h => absurd rfl h
  hostStart := .null
  hostEnd := .null
  uriExt := .null
  argsStart := .null
  httpProtocol := .null
  schema := fun h => absurd rfl h
  host := fun h => absurd rfl h
  method := rfl
  httpMajor := rfl
  httpMinor := rfl
  complexUri := rfl
  quotedUri := rfl
  plusInUri := rfl
  spaceInUri := rfl

inductive TurnBeside (whole b : HeaderIn) (d p : Int) : LineTurn → LineTurn → Prop where
  | go {s s' : RequestLine} (h : Beside whole b d (p + 1) s s') : TurnBeside whole b d p (.go s) (.go s')
  | done {s s' : RequestLine} (hp : OnLine d p s'.requestStart) (h : Aligned whole b d (p + 1) s s')
    (huri : ∃ u, ScannedTo whole s' s'.uriEnd u) : TurnBeside whole b d p (.done s) (.done s')
  | error (e : LineError) : TurnBeside whole b d p (.error e) (.error e)

theorem Beside.turn (hnull : 0 < whole.start) (hb : 0 < b.start) (h : Beside whole b d p r r') (hp : b.At p ch)
    (hp' : whole.At (p + d) ch) :
    TurnBeside whole b d p (lineTurn (b.text r.requestStart p) r p ch)
      (lineTurn (whole.text r'.requestStart (p + d)) r' (p + d) ch) := by
  have hpos := hp.1
  have hpos' := hp'.1
  have hknown := lineTurn_known hnull (whole.text r'.requestStart (p + d)) h.1 hp'
  have hnext : p + 1 + d = p + d + 1 := by omega
  obtain ⟨hinv,⟨⟨x,rfl⟩,⟨x',rfl⟩⟩ | haligned⟩ := h
  · simp only [lineTurn,RequestLine.init] at hknown ⊢
    split_ifs at hknown ⊢
    · exact .go ⟨hnext ▸ hknown,.inl ⟨⟨p,rfl⟩,⟨p + d,rfl⟩⟩⟩
    · refine .go ⟨hnext ▸ hknown,.inr ⟨?_,hpos,hpos',by simp,?_⟩⟩
      · rw [hnext]
        exact moved_first d p
      · show b.text p (p + 1) = whole.text (p + d) (p + 1 + d)
        rw [hnext,text_one hp,text_one hp']
    · exact .error _
  · have hlt := haligned.lt
    have hstart := haligned.start_le
    have hstart' := haligned.start_le'
    have honline : OnLine d p r'.requestStart :=
      ⟨by omega,by rw [haligned.moved.requestStart]; omega,by omega⟩
    rw [haligned.text]
    have hturn := lineTurn_moved hnull haligned.moved hinv honline (whole.text r'.requestStart (p + d)) ch
    revert hknown hturn
    generalize lineTurn (whole.text r'.requestStart (p + d)) r p ch = turn
    generalize lineTurn (whole.text r'.requestStart (p + d)) r' (p + d) ch = turn'
    intro hknown hturn
    cases hturn with
    | go hmoved => exact .go ⟨hnext ▸ hknown,.inr (haligned.snoc hp hp' hmoved)⟩
    | @done s s' hmoved =>
      have hstart : s'.requestStart = r'.requestStart := by
        rw [hmoved.requestStart,hmoved.start,haligned.moved.requestStart]
      exact .done (hstart ▸ honline) (haligned.snoc hp hp' hmoved) hknown
    | error e => exact .error e

end Loop

section Relocate
variable {whole b : HeaderIn} {d p new : Int} {r r' : RequestLine}

theorem Tested.move {lo hi x x' old : Int} (hold : lo = old + d) (hnew : 0 < new) (h : Tested d lo hi x x') :
    Tested (d + old - new) lo hi (moveSet old new x) x' := by
  rcases h with ⟨rfl,rfl⟩ | ⟨hx,hx',hmove,hlo,hhi⟩
  · exact .inl ⟨by simp [moveSet],rfl⟩
  · have hset : moveSet old new x = new + (x - old) := if_pos hx
    rw [hset]
    exact .inr ⟨by omega,hx',by omega,hlo,hhi⟩

theorem Untested.move {lo hi x x' old : Int} (h : Untested d lo hi x x') :
    Untested (d + old - new) lo hi (moveTo old new x) x' := by
  intro hx
  obtain ⟨hmove,hlo,hhi⟩ := h hx
  exact ⟨by rw [moveTo]; omega,hlo,hhi⟩

/-- The pointers of a relocated request correspond again, to the same line in place. -/
theorem Moved.relocate {hi : Int} (hnew : 0 < new) (h : Moved d r.requestStart hi r r') :
    Moved (d + r.requestStart - new) new hi (relocate r r.requestStart new) r' where
  state := h.state
  start := rfl
  requestStart := by
    rw [h.requestStart]
    show _ = new + _
    omega
  requestEnd := h.requestEnd.move h.requestStart hnew
  methodEnd := h.methodEnd.move
  uriStart := h.uriStart.move
  uriEnd := h.uriEnd.move
  schemaStart := h.schemaStart.move h.requestStart hnew
  schemaEnd := by
    intro hset
    have hstart : r.schemaStart ≠ 0 := by
      rcases h.schemaStart with ⟨-,hnull⟩ | ⟨hset,-⟩
      · exact absurd hnull (h.schema hset)
      · exact hset
    have hend : (Http.relocate r r.requestStart new).schemaEnd = moveTo r.requestStart new r.schemaEnd := if_pos hstart
    rw [hend]
    exact h.schemaEnd.move hset
  hostStart := h.hostStart.move h.requestStart hnew
  hostEnd := by
    by_cases hstart : r.hostStart ≠ 0
    · have hend : (Http.relocate r r.requestStart new).hostEnd = moveSet r.requestStart new r.hostEnd := if_pos hstart
      rw [hend]
      exact h.hostEnd.move h.requestStart hnew
    · have hend : (Http.relocate r r.requestStart new).hostEnd = r.hostEnd := if_neg hstart
      have hnull : r'.hostStart = 0 := by
        rcases h.hostStart with ⟨-,hnull⟩ | ⟨hset,-⟩
        · exact hnull
        · exact absurd hset hstart
      have hend' : r'.hostEnd = 0 := not_not.mp fun hset => h.host hset hnull
      rw [hend]
      rcases h.hostEnd with hboth | ⟨-,hset,-⟩
      · exact .inl hboth
      · exact absurd hend' hset
  uriExt := h.uriExt.move h.requestStart hnew
  argsStart := h.argsStart.move h.requestStart hnew
  httpProtocol := h.httpProtocol.move h.requestStart hnew
  schema := h.schema
  host := h.host
  method := h.method
  httpMajor := h.httpMajor
  httpMinor := h.httpMinor
  complexUri := h.complexUri
  quotedUri := h.quotedUri
  plusInUri := h.plusInUri
  spaceInUri := h.spaceInUri

theorem Aligned.relocate (hnew : 0 < new) (h : Aligned whole b d p r r') (hlast : p = b.start + b.data.length)
    (size : Nat) :
    Aligned whole ⟨new,b.text r.requestStart p,size⟩ (d + r.requestStart - new) (new + (p - r.requestStart))
      (relocate r r.requestStart new) r' := by
  have hlt := h.lt
  have hstart := h.start_le
  have hsum : new + (p - r.requestStart) + (d + r.requestStart - new) = p + d := by omega
  have hlen : (b.text r.requestStart p).length = (p - r.requestStart).toNat := by
    rw [HeaderIn.text,List.length_take,List.length_drop]
    omega
  refine ⟨?_,le_rfl,h.start_le',?_,?_⟩
  · rw [hsum]
    exact h.moved.relocate hnew
  · show new < _
    omega
  · rw [hsum,← h.text]
    show HeaderIn.text _ new _ = _
    rw [HeaderIn.text,sub_self,Int.toNat_zero,List.drop_zero,add_sub_cancel_left,← hlen,List.take_length]

/-- A request between two reads, beside the same one read in place. -/
structure Reads (whole : HeaderIn) (a : Arrival) (d : Int) (r' : RequestLine) (left : Bytes) : Prop where
  beside : Beside whole a.b d a.pos a.r r'
  start : 0 < a.b.start
  free : ∀ x ∈ a.free, 0 < x
  last : a.pos = a.b.start + a.b.data.length
  here : whole.start ≤ a.pos + d
  unread : whole.data.drop (a.pos + d - whole.start).toNat = left
  run : readLine whole = lineLoop whole r' (a.pos + d) left

theorem Reads.moved {large : LargeBuffers} {a : Arrival} {left : Bytes} (h : Reads whole a d r' left) (hnew : 0 < new)
    (haligned : Aligned whole a.b d a.pos a.r r') {free : List Int} (hfree : ∀ x ∈ free, 0 < x) :
    ∃ d', Reads whole { a.moved large.size new with free := free } d' r' left := by
  have hsum : new + (a.pos - a.r.requestStart) + (d + a.r.requestStart - new) = a.pos + d := by omega
  have hlt := haligned.lt
  have hstart := haligned.start_le
  have hlast := h.last
  have hlen : (a.b.text a.r.requestStart a.pos).length = (a.pos - a.r.requestStart).toNat := by
    rw [HeaderIn.text,List.length_take,List.length_drop]
    omega
  refine ⟨d + a.r.requestStart - new,⟨?_,.inr (haligned.relocate hnew h.last large.size)⟩,hnew,hfree,?_,?_,?_,?_⟩
  · show LineInv whole r' (new + (a.pos - a.r.requestStart) + (d + a.r.requestStart - new))
    rw [hsum]
    exact h.beside.1
  · show new + (a.pos - a.r.requestStart) = new + ((a.b.text a.r.requestStart a.pos).length : Int)
    omega
  · show whole.start ≤ new + (a.pos - a.r.requestStart) + (d + a.r.requestStart - new)
    rw [hsum]
    exact h.here
  · show whole.data.drop (new + (a.pos - a.r.requestStart) + (d + a.r.requestStart - new) - whole.start).toNat = left
    rw [hsum]
    exact h.unread
  · show readLine whole = lineLoop whole r' (new + (a.pos - a.r.requestStart) + (d + a.r.requestStart - new)) left
    rw [hsum]
    exact h.run

end Relocate

section Method
variable {r : RequestLine} {p : Int} {ch : UInt8} {turn : LineTurn}

end Method

section Same
variable {whole b : HeaderIn} {d p : Int} {r r' : RequestLine}

theorem text_within {lo hi x y : Int} (hlo : b.start ≤ lo) (hx : lo ≤ x) (hy : y ≤ hi) :
    b.text x y = ((b.text lo hi).drop (x - lo).toNat).take (y - x).toNat := by
  have hdrop : (x - b.start).toNat = (lo - b.start).toNat + (x - lo).toNat := by omega
  have hmin : min (y - x).toNat ((hi - lo).toNat - (x - lo).toNat) = (y - x).toNat := by omega
  rw [HeaderIn.text,HeaderIn.text,List.drop_take,List.take_take,List.drop_drop,hmin,hdrop]

theorem Aligned.slice (h : Aligned whole b d p r r') {x x' y y' : Int} (hx : x' = x + d) (hy : y' = y + d)
    (hlo : r'.requestStart ≤ x') (hhi : y' ≤ p + d) : b.text x y = whole.text x' y' := by
  have hstart := h.moved.requestStart
  rw [text_within h.start_le (by omega : r.requestStart ≤ x) (by omega : y ≤ p),h.text,
    text_within h.start_le' hlo hhi,show x - r.requestStart = x' - r'.requestStart by omega,
      show y - x = y' - x' by omega]

theorem Tested.set {lo hi x x' : Int} (h : Tested d lo hi x x') (hx : x' ≠ 0) : x' = x + d ∧ lo ≤ x' ∧ x' ≤ hi := by
  rcases h with ⟨-,hx'⟩ | ⟨-,-,hmove⟩
  · exact absurd hx' hx
  · exact hmove

end Same

section Process
variable {whole : HeaderIn}

/-- More bytes behind the line change nothing of it. -/
theorem Beside.extend {b : HeaderIn} {d p : Int} {r r' : RequestLine} (h : Beside whole b d p r r')
    (hlast : p = b.start + b.data.length) (chunk : Bytes) :
    Beside whole (b.received chunk) d p r r' := by
  refine ⟨h.1,h.2.imp id fun haligned => ⟨haligned.moved,haligned.start_le,haligned.start_le',haligned.lt,?_⟩⟩
  have hstart := haligned.start_le
  have hlt := haligned.lt
  have hdrop : (r.requestStart - b.start).toNat ≤ b.data.length := by omega
  have htake : (p - r.requestStart).toNat ≤ (b.data.drop (r.requestStart - b.start).toNat).length := by
    rw [List.length_drop]
    omega
  rw [← haligned.text]
  show ((b.data ++ chunk).drop (r.requestStart - b.start).toNat).take (p - r.requestStart).toNat = _
  rw [List.drop_append_of_le_length hdrop,List.take_append_of_le_length htake]
  rfl

theorem Reads.init (whole : HeaderIn) {b : HeaderIn} (hb : 0 < b.start) {free : List Int} (hfree : ∀ x ∈ free, 0 < x)
    (nbusy : Nat) : Reads whole (.init b free nbusy) (whole.start - (b.start + b.data.length)) .init whole.data := by
  have hsum : (Arrival.init b free nbusy).pos + (whole.start - (b.start + b.data.length)) = whole.start :=
    add_sub_cancel _ _
  refine ⟨⟨⟨rfl,rfl,rfl,rfl,rfl,rfl⟩,.inl ⟨⟨0,rfl⟩,⟨0,rfl⟩⟩⟩,hb,hfree,rfl,hsum.ge,?_,?_⟩
  · rw [hsum,sub_self]
    rfl
  · rw [hsum,readLine,parseRequestLine,sub_self]
    rfl

end Process

end Aret.Http
