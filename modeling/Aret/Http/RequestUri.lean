import Aret.Http.PlainUri

/-! The request line scans its uri while it looks for the end of it. Over any line
that is accepted this is what `ngx_http_parse_uri` finds in the uri alone. -/
namespace Aret.Http
open Lib

def HeaderIn.At (b : HeaderIn) (p : Int) (ch : UInt8) : Prop :=
  b.start ≤ p ∧ b.data[(p - b.start).toNat]? = some ch

section Text
variable {b : HeaderIn} {first mid last p : Int} {ch : UInt8}

theorem text_append (hfirst : b.start ≤ first) (hmid : first ≤ mid) (hlast : mid ≤ last) :
    b.text first last = b.text first mid ++ b.text mid last := by
  have hlen : (last - first).toNat = (mid - first).toNat + (last - mid).toNat := by omega
  have hdrop : (mid - b.start).toNat = (first - b.start).toNat + (mid - first).toNat := by omega
  rw [HeaderIn.text,HeaderIn.text,HeaderIn.text,hlen,List.take_add,hdrop,List.drop_drop]

theorem text_one (hp : b.At p ch) : b.text p (p + 1) = [ch] := by
  obtain ⟨hstart,hch⟩ := hp
  have hlen : (p + 1 - p).toNat = 1 := by omega
  rw [HeaderIn.text,hlen]
  obtain ⟨hlt,rfl⟩ := List.getElem?_eq_some_iff.mp hch
  rw [List.drop_eq_getElem_cons hlt]
  rfl

theorem text_snoc (hfirst : b.start ≤ first) (hle : first ≤ p) (hp : b.At p ch) :
    b.text first (p + 1) = b.text first p ++ [ch] := by
  rw [text_append hfirst hle (by omega),text_one hp]

theorem text_length (hfirst : b.start ≤ first) (hp : b.At p ch) :
    (b.text first p).length = (p - first).toNat := by
  obtain ⟨hlt,-⟩ := List.getElem?_eq_some_iff.mp hp.2
  rw [HeaderIn.text,List.length_take,List.length_drop]
  omega

theorem HeaderIn.At.fits (hp : b.At p ch) : p + 1 ≤ b.start + b.data.length := by
  obtain ⟨hstart,hch⟩ := hp
  obtain ⟨hlt,-⟩ := List.getElem?_eq_some_iff.mp hch
  omega

theorem text_drop (hfirst : b.start ≤ first) (n : Nat) : (b.text first last).drop n = b.text (first + n) last := by
  have hlen : (last - (first + n)).toNat = (last - first).toNat - n := by omega
  have hdrop : (first + n - b.start).toNat = (first - b.start).toNat + n := by omega
  rw [HeaderIn.text,HeaderIn.text,List.drop_take,List.drop_drop,hlen,hdrop]

theorem text_take {n : Nat} (hn : first + n ≤ last) : (b.text first last).take n = b.text first (first + n) := by
  have hlen : min n (last - first).toNat = (first + n - first).toNat := by omega
  rw [HeaderIn.text,HeaderIn.text,List.take_take,hlen]

end Text

/-- An offset into the uri as an address. -/
def RequestLine.addr (r : RequestLine) : Option Nat → Int
  | none => 0
  | some n => r.uriStart + n

@[simp] theorem addr_none (r : RequestLine) : r.addr none = 0 := rfl

@[simp] theorem addr_some (r : RequestLine) (n : Nat) : r.addr (some n) = r.uriStart + n := rfl

/-- The request line knows what the scan of the uri knows. -/
structure Matches (r : RequestLine) (s : UriScan) : Prop where
  uriExt : r.uriExt = r.addr s.uriExt
  argsStart : r.argsStart = r.addr s.argsStart
  complexUri : r.complexUri = s.complexUri
  quotedUri : r.quotedUri = s.quotedUri
  plusInUri : r.plusInUri = s.plusInUri
  spaceInUri : r.spaceInUri = s.spaceInUri

def lineStateOf : ScanState → LineState
  | .start => .start
  | .afterSlashInUri => .afterSlashInUri
  | .checkUri => .checkUri
  | .uri => .uri

/-- A byte of the uri either goes on with the scan or ends it. -/
inductive UriStep (r : RequestLine) (p : Int) (s : UriScan) (n : Nat) (ch : UInt8) (behind : LineState) :
    LineTurn → Prop where
  | more {s' : UriScan} {r' : RequestLine} (hturn : scanTurn s n ch = some s') (hmatches : Matches r' s')
    (hstart : r'.uriStart = r.uriStart) (hstate : r'.state = lineStateOf s'.state) : UriStep r p s n ch behind (.go r')
  | blank (hblank : ch = 32) : UriStep r p s n ch behind (.go { r with uriEnd := p, state := behind })
  | cr : UriStep r p s n ch behind (.go { r with uriEnd := p, httpMinor := 9, state := .almostDone })
  | lf : UriStep r p s n ch behind (.done { r with uriEnd := p, httpMinor := 9 })
  | error (e : LineError) : UriStep r p s n ch behind (.error e)

theorem uriEndTurn_step {r : RequestLine} {p : Int} {s : UriScan} {n : Nat} {ch : UInt8} {behind : LineState}
    {otherwise : LineTurn} (hotherwise : ch ≠ 32 → UriStep r p s n ch behind otherwise) :
    UriStep r p s n ch behind (uriEndTurn r p ch behind otherwise) := by
  unfold uriEndTurn lineEnd09
  split_ifs with hblank hend hcr hlf hnul
  · exact .blank hblank
  · exact .cr
  · exact .lf
  · exact hotherwise hblank
  · exact .error .invalidRequest
  · exact hotherwise hblank

section Step
variable {r : RequestLine} {s : UriScan} {p : Int} {n : Nat} (hmatches : Matches r s) (hp : p = r.uriStart + n)
  (ch : UInt8)
include hmatches hp

omit hmatches in
private theorem next_addr : p + 1 = r.uriStart + ((n + 1 : Nat) : Int) := by omega

theorem afterSlashTurn_step (hs : s.state = .afterSlashInUri) (hr : r.state = .afterSlashInUri) :
    UriStep r p s n ch .checkUriHttp09 (afterSlashTurn r p ch) := by
  obtain ⟨hext,hargs,hcomplex,hquoted,hplus,hspace⟩ := hmatches
  unfold afterSlashTurn
  split_ifs with husual hfound hquote hquery hplusByte
  · have hscan : scanTurn s n ch = some { s with state := .checkUri } := by simp [scanTurn,hs,husual]
    exact .more hscan ⟨hext,hargs,hcomplex,hquoted,hplus,hspace⟩ rfl rfl
  · refine uriEndTurn_step fun hblank => ?_
    have hscan : scanTurn s n ch = some { s with complexUri := true, state := .uri } := by
      simp [scanTurn,hs,husual,hblank,hfound]
    exact .more hscan ⟨hext,hargs,rfl,hquoted,hplus,hspace⟩ rfl rfl
  · refine uriEndTurn_step fun hblank => ?_
    have hscan : scanTurn s n ch = some { s with quotedUri := true, state := .uri } := by
      simp [scanTurn,hs,hquote,usual_special]
    exact .more hscan ⟨hext,hargs,hcomplex,rfl,hplus,hspace⟩ rfl rfl
  · refine uriEndTurn_step fun hblank => ?_
    have hscan : scanTurn s n ch = some { s with argsStart := some (n + 1), state := .uri } := by
      simp [scanTurn,hs,hquery,usual_special]
    exact .more hscan ⟨hext,next_addr hp,hcomplex,hquoted,hplus,hspace⟩ rfl rfl
  · refine uriEndTurn_step fun hblank => ?_
    have hscan : scanTurn s n ch = some { s with plusInUri := true } := by
      simp [scanTurn,hs,hplusByte,usual_special]
    exact .more hscan ⟨hext,hargs,hcomplex,hquoted,rfl,hspace⟩ rfl (by simp [hr,hs,lineStateOf])
  · refine uriEndTurn_step fun hblank => ?_
    have hscan : scanTurn s n ch = some { s with state := .checkUri } := by
      simp [scanTurn,hs,husual,hblank,hfound,hquote,hquery,hplusByte]
    exact .more hscan ⟨hext,hargs,hcomplex,hquoted,hplus,hspace⟩ rfl rfl

theorem checkUriTurn_step (hs : s.state = .checkUri) (hr : r.state = .checkUri) :
    UriStep r p s n ch .checkUriHttp09 (checkUriTurn r p ch) := by
  obtain ⟨hext,hargs,hcomplex,hquoted,hplus,hspace⟩ := hmatches
  unfold checkUriTurn
  split_ifs with husual hslash hdot hquote hquery hfragment hplusByte
  · have hscan : scanTurn s n ch = some s := by simp [scanTurn,hs,husual]
    exact .more hscan ⟨hext,hargs,hcomplex,hquoted,hplus,hspace⟩ rfl (by rw [hr,hs]; rfl)
  · refine uriEndTurn_step fun hblank => ?_
    have hscan : scanTurn s n ch = some { s with uriExt := none, state := .afterSlashInUri } := by
      simp [scanTurn,hs,hslash,usual_special]
    exact .more hscan ⟨rfl,hargs,hcomplex,hquoted,hplus,hspace⟩ rfl rfl
  · refine uriEndTurn_step fun hblank => ?_
    have hscan : scanTurn s n ch = some { s with uriExt := some (n + 1) } := by
      simp [scanTurn,hs,hdot,usual_special]
    exact .more hscan ⟨next_addr hp,hargs,hcomplex,hquoted,hplus,hspace⟩ rfl (by simp [hr,hs,lineStateOf])
  · refine uriEndTurn_step fun hblank => ?_
    have hscan : scanTurn s n ch = some { s with quotedUri := true, state := .uri } := by
      simp [scanTurn,hs,hquote,usual_special]
    exact .more hscan ⟨hext,hargs,hcomplex,rfl,hplus,hspace⟩ rfl rfl
  · refine uriEndTurn_step fun hblank => ?_
    have hscan : scanTurn s n ch = some { s with argsStart := some (n + 1), state := .uri } := by
      simp [scanTurn,hs,hquery,usual_special]
    exact .more hscan ⟨hext,next_addr hp,hcomplex,hquoted,hplus,hspace⟩ rfl rfl
  · refine uriEndTurn_step fun hblank => ?_
    have hscan : scanTurn s n ch = some { s with complexUri := true, state := .uri } := by
      simp [scanTurn,hs,hfragment,usual_special]
    exact .more hscan ⟨hext,hargs,rfl,hquoted,hplus,hspace⟩ rfl rfl
  · refine uriEndTurn_step fun hblank => ?_
    have hscan : scanTurn s n ch = some { s with plusInUri := true } := by
      simp [scanTurn,hs,hplusByte,usual_special]
    exact .more hscan ⟨hext,hargs,hcomplex,hquoted,rfl,hspace⟩ rfl (by simp [hr,hs,lineStateOf])
  · refine uriEndTurn_step fun hblank => ?_
    have hscan : scanTurn s n ch = some s := by
      simp [scanTurn,hs,husual,hslash,hdot,hblank,hquote,hquery,hfragment,hplusByte]
    exact .more hscan ⟨hext,hargs,hcomplex,hquoted,hplus,hspace⟩ rfl (by rw [hr,hs]; rfl)

omit hp in
theorem uriByteTurn_step (hs : s.state = .uri) (hr : r.state = .uri) :
    UriStep r p s n ch .http09 (uriByteTurn r p ch) := by
  obtain ⟨hext,hargs,hcomplex,hquoted,hplus,hspace⟩ := hmatches
  unfold uriByteTurn
  split_ifs with husual hfragment
  · have hscan : scanTurn s n ch = some s := by simp [scanTurn,hs,husual]
    exact .more hscan ⟨hext,hargs,hcomplex,hquoted,hplus,hspace⟩ rfl (by rw [hr,hs]; rfl)
  · refine uriEndTurn_step fun hblank => ?_
    have hscan : scanTurn s n ch = some { s with complexUri := true } := by
      simp [scanTurn,hs,hfragment,usual_special]
    exact .more hscan ⟨hext,hargs,rfl,hquoted,hplus,hspace⟩ rfl (by simp [hr,hs,lineStateOf])
  · refine uriEndTurn_step fun hblank => ?_
    have hscan : scanTurn s n ch = some s := by
      simp [scanTurn,hs,husual,hblank,hfragment]
    exact .more hscan ⟨hext,hargs,hcomplex,hquoted,hplus,hspace⟩ rfl (by rw [hr,hs]; rfl)

end Step

/-- The uri up to an address, as far as it has been read. -/
structure ScannedTo (b : HeaderIn) (r : RequestLine) (last : Int) (s : UriScan) : Prop where
  parse : parseUri (b.text r.uriStart last) = some s
  known : Matches r s
  start_le : b.start ≤ r.uriStart
  lt : r.uriStart < last
  fits : last ≤ b.start + b.data.length

/-- What the scan reads and sets. -/
def RequestLine.uriFields (r : RequestLine) : Int × Int × Int × Bool × Bool × Bool × Bool :=
  (r.uriStart,r.uriExt,r.argsStart,r.complexUri,r.quotedUri,r.plusInUri,r.spaceInUri)

theorem ScannedTo.congr {b : HeaderIn} {r r' : RequestLine} {last : Int} {s : UriScan} (h : ScannedTo b r last s)
    (hfields : r'.uriFields = r.uriFields) : ScannedTo b r' last s := by
  obtain ⟨hparse,⟨hext,hargs,hcomplex,hquoted,hplus,hspace⟩,hstart,hlt,hfits⟩ := h
  simp only [RequestLine.uriFields,Prod.mk.injEq] at hfields
  obtain ⟨h0,h1,h2,h3,h4,h5,h6⟩ := hfields
  have haddr (n : Option Nat) : r'.addr n = r.addr n := by
    cases n
    · rfl
    · exact congrArg (· + _) h0
  exact ⟨h0 ▸ hparse,⟨by rw [h1,hext,haddr],by rw [h2,hargs,haddr],h3.trans hcomplex,h4.trans hquoted,h5.trans hplus,
    h6.trans hspace⟩,h0 ▸ hstart,h0 ▸ hlt,hfits⟩

def FreshUri (r : RequestLine) : Prop :=
  r.uriExt = 0 ∧ r.argsStart = 0 ∧ r.complexUri = false ∧ r.quotedUri = false ∧ r.plusInUri = false ∧
    r.spaceInUri = false

/-- The slash behind the schema, which stands for the uri of a bare host. -/
def SchemaSlash (b : HeaderIn) (r : RequestLine) (p : Int) : Prop :=
  b.start ≤ r.schemaEnd ∧ r.schemaEnd + 2 ≤ p ∧ b.At (r.schemaEnd + 1) 47

/-- The uri has been read up to `uri_end`, and only blanks stand behind it. -/
def BlankBehind (b : HeaderIn) (r : RequestLine) (p : Int) (s : UriScan) : Prop :=
  ScannedTo b r r.uriEnd s ∧ r.uriEnd < p ∧ b.text r.uriEnd p = List.replicate (p - r.uriEnd).toNat 32

/-- What is known in each state, before the byte at `p` is read. -/
def LineInv (b : HeaderIn) (r : RequestLine) (p : Int) : Prop :=
  match r.state with
  | .start | .method | .spacesBeforeUri => FreshUri r
  | .schema => FreshUri r ∧ r.schemaStart ≠ 0
  | .schemaSlash => FreshUri r ∧ b.start ≤ r.schemaEnd ∧ r.schemaEnd + 1 = p
  | .schemaSlashSlash | .hostStart | .port => FreshUri r ∧ SchemaSlash b r p
  | .host | .hostEnd | .hostIpLiteral => FreshUri r ∧ SchemaSlash b r p ∧ r.hostStart ≠ 0
  | .afterSlashInUri => ∃ s, ScannedTo b r p s ∧ s.state = .afterSlashInUri
  | .checkUri => ∃ s, ScannedTo b r p s ∧ s.state = .checkUri
  | .uri => ∃ s, ScannedTo b r p s ∧ s.state = .uri
  | .checkUriHttp09 => ∃ s, BlankBehind b r p s ∧ (s.state = .afterSlashInUri ∨ s.state = .checkUri)
  | .http09 => ∃ s, BlankBehind b r p s ∧ s.state = .uri
  | _ => ∃ s, ScannedTo b r r.uriEnd s

section Inv
variable {b : HeaderIn} {r : RequestLine} {p : Int} {ch : UInt8}

theorem ScannedTo.more {s s' : UriScan} {r' : RequestLine} (h : ScannedTo b r p s) (hp : b.At p ch)
    (hturn : scanTurn s (p - r.uriStart).toNat ch = some s') (hknown : Matches r' s')
    (hstart : r'.uriStart = r.uriStart) : ScannedTo b r' (p + 1) s' := by
  obtain ⟨hparse,-,hle,hlt,-⟩ := h
  refine ⟨?_,hknown,hstart ▸ hle,by omega,hp.fits⟩
  have hlen := text_length hle hp
  rw [hstart,text_snoc hle (by omega) hp,parseUri,scanLoop_append,← parseUri,hparse,Option.bind_some,Nat.zero_add,hlen]
  simp [scanLoop,hturn]

theorem scanTurn_state {s s' : UriScan} {n : Nat} (hturn : scanTurn s n ch = some s') : s'.state ≠ .start := by
  cases hs : s.state with
  | start =>
    simp only [scanTurn,hs] at hturn
    split_ifs at hturn
    obtain rfl := Option.some.inj hturn
    simp
  | afterSlashInUri =>
    simp only [scanTurn,hs,Option.some.injEq] at hturn
    split_ifs at hturn <;> subst hturn <;> simp_all
  | checkUri =>
    simp only [scanTurn,hs,Option.some.injEq] at hturn
    split_ifs at hturn <;> subst hturn <;> simp [hs]
  | uri => simp [(scanTurn_uri hturn hs).2.2.2.1]

/-- What is known once a byte has been read. -/
def LineTurn.Known (b : HeaderIn) (p : Int) : LineTurn → Prop
  | .go r => LineInv b r (p + 1)
  | .done r => ∃ s, ScannedTo b r r.uriEnd s
  | .error _ => True

theorem UriStep.known {s : UriScan} (h : ScannedTo b r p s) (hp : b.At p ch) {behind : LineState}
    (hbehind : BlankBehind b { r with uriEnd := p, state := behind } (p + 1) s →
      LineInv b { r with uriEnd := p, state := behind } (p + 1))
    {turn : LineTurn} (hstep : UriStep r p s (p - r.uriStart).toNat ch behind turn) : turn.Known b p := by
  cases hstep with
  | @more s' r' hturn hmatches hstart hstate =>
    have hscanned := h.more hp hturn hmatches hstart
    rw [LineTurn.Known,LineInv,hstate]
    cases hs : s'.state with
    | start => exact absurd hs (scanTurn_state hturn)
    | afterSlashInUri => exact ⟨s',hscanned,hs⟩
    | checkUri => exact ⟨s',hscanned,hs⟩
    | uri => exact ⟨s',hscanned,hs⟩
  | blank hblank =>
    subst hblank
    have hlen : (p + 1 - p).toNat = 1 := by omega
    refine hbehind ⟨h.congr rfl,by simp,?_⟩
    show b.text p (p + 1) = List.replicate (p + 1 - p).toNat 32
    rw [text_one hp,hlen]
    rfl
  | cr => exact ⟨s,h.congr rfl⟩
  | lf => exact ⟨s,h.congr rfl⟩
  | error e => trivial

/-- The scan over the blanks that stand before another byte of the uri. -/
theorem scanLoop_blanks {s : UriScan} (hs : s.state ≠ .start) (n k : Nat) :
    scanLoop s n (List.replicate (k + 1) 32) =
      some { s with spaceInUri := true, state := if s.state = .uri then .uri else .checkUri } := by
  have husual : usual 32 = false := by decide
  have hturn (s : UriScan) (hs : s.state ≠ .start) (n : Nat) : scanTurn s n 32 =
      some { s with spaceInUri := true, state := if s.state = .uri then .uri else .checkUri } := by
    cases hstate : s.state <;> simp_all [scanTurn]
  induction k generalizing s n with
  | zero => simp [scanLoop,hturn s hs]
  | succ k ih =>
    rw [List.replicate_succ,scanLoop,hturn s hs,Option.bind_some,ih (by split_ifs <;> simp)]
    split_ifs <;> simp_all

/-- The byte behind some blanks is given back to the scan. -/
theorem BlankBehind.resume {s : UriScan} (h : BlankBehind b r p s) (hs : s.state ≠ .start) (hp : b.At p ch) :
    ScannedTo b { r with spaceInUri := true, state := lineStateOf (if s.state = .uri then .uri else .checkUri) } p
      { s with spaceInUri := true, state := if s.state = .uri then .uri else .checkUri } := by
  obtain ⟨⟨hparse,hknown,hstart,hlt,-⟩,hend,hblanks⟩ := h
  have hfits := hp.fits
  obtain ⟨k,hk⟩ : ∃ k, (p - r.uriEnd).toNat = k + 1 := ⟨(p - r.uriEnd).toNat - 1,by omega⟩
  refine ⟨?_,⟨hknown.uriExt,hknown.argsStart,hknown.complexUri,hknown.quotedUri,hknown.plusInUri,rfl⟩,hstart,
    by simp only; omega,by omega⟩
  show parseUri (b.text r.uriStart p) = _
  rw [text_append hstart hlt.le hend.le,parseUri,scanLoop_append,← parseUri,hparse,Option.bind_some,hblanks,hk,
    scanLoop_blanks hs]

theorem behindUriTurn_known (hended : ∃ s, ScannedTo b r r.uriEnd s)
    (hblank : ch = 32 → LineInv b r (p + 1)) {again : LineTurn} (hagain : again.Known b p) :
    (behindUriTurn r p ch again).Known b p := by
  obtain ⟨s,hs⟩ := hended
  unfold behindUriTurn lineEnd09
  split_ifs with h32 hcr hlf hH
  · exact hblank h32
  · exact ⟨s,hs.congr rfl⟩
  · exact ⟨s,hs.congr rfl⟩
  · exact ⟨s,hs.congr rfl⟩
  · exact hagain

theorem BlankBehind.blank {s : UriScan} (h : BlankBehind b r p s) (hp : b.At p 32) : BlankBehind b r (p + 1) s := by
  obtain ⟨hscanned,hlt,hblanks⟩ := h
  have hstart : b.start ≤ r.uriEnd := hscanned.start_le.trans hscanned.lt.le
  refine ⟨hscanned,by omega,?_⟩
  rw [text_snoc hstart hlt.le hp,hblanks,show (p + 1 - r.uriEnd).toNat = (p - r.uriEnd).toNat + 1 by omega,
    List.replicate_succ']

theorem FreshUri.scanned (h : FreshUri r) (hstart : b.start ≤ r.uriStart) (hp : b.At r.uriStart 47) :
    ∃ s, ScannedTo b r (r.uriStart + 1) s ∧ s.state = .afterSlashInUri := by
  obtain ⟨hext,hargs,hcomplex,hquoted,hplus,hspace⟩ := h
  refine ⟨{ UriScan.init with state := .afterSlashInUri },
    ⟨?_,⟨hext,hargs,hcomplex,hquoted,hplus,hspace⟩,hstart,by omega,hp.fits⟩,rfl⟩
  rw [text_one hp]
  rfl

theorem LineInv.of_slash (hstate : r.state = .afterSlashInUri) (hstart : r.uriStart = p) (hp : b.At p 47)
    (h : FreshUri r) : (LineTurn.go r).Known b p := by
  subst hstart
  rw [LineTurn.Known,LineInv,hstate]
  exact h.scanned hp.1 hp

theorem SchemaSlash.next (h : SchemaSlash b r p) : SchemaSlash b r (p + 1) :=
  ⟨h.1,by have := h.2.1; omega,h.2.2⟩

theorem SchemaSlash.scanned (hfresh : FreshUri r) (h : SchemaSlash b r p) :
    ∃ s, ScannedTo b { r with uriStart := r.schemaEnd + 1 } (r.schemaEnd + 2) s := by
  obtain ⟨hstart,-,hslash⟩ := h
  obtain ⟨s,hs,-⟩ := FreshUri.scanned (r := { r with uriStart := r.schemaEnd + 1 }) hfresh (by simp only; omega) hslash
  refine ⟨s,?_⟩
  rw [show r.schemaEnd + 2 = r.schemaEnd + 1 + 1 by omega]
  exact hs

theorem hostEndTurn_known (hfresh : FreshUri r) (h : SchemaSlash b r p) (hp : b.At p ch) :
    (hostEndTurn r p ch).Known b p := by
  unfold hostEndTurn
  split_ifs with hport hslash hblank
  · exact ⟨hfresh,h.next⟩
  · subst hslash
    refine LineInv.of_slash rfl rfl hp ?_
    exact hfresh
  · obtain ⟨s,hs⟩ := h.scanned hfresh
    exact ⟨s,hs.congr rfl⟩
  · trivial

theorem expectTurn_known {expected : UInt8} {state : LineState}
    (h : ch = expected → LineInv b { r with state := state } (p + 1)) : (expectTurn r ch expected state).Known b p := by
  unfold expectTurn
  split_ifs with hch
  · exact h hch
  · trivial

/-- One byte of the line keeps what is known of the uri. -/
theorem lineTurn_known (hnull : 0 < b.start) (m : Bytes) (hinv : LineInv b r p) (hp : b.At p ch) :
    (lineTurn m r p ch).Known b p := by
  have hne : p ≠ 0 := by
    have := hp.1
    omega
  have hoffset (hle : r.uriStart < p) : p = r.uriStart + (p - r.uriStart).toNat := by omega
  rcases r with ⟨state⟩
  cases state with
  | start =>
    simp only [lineTurn]
    split_ifs
    · exact hinv
    · exact hinv
    · trivial
  | method =>
    simp only [lineTurn]
    split_ifs
    · exact hinv
    · exact hinv
    · trivial
  | spacesBeforeUri =>
    simp only [lineTurn]
    split_ifs with hslash
    · subst hslash
      refine LineInv.of_slash rfl rfl hp ?_
      exact hinv
    · exact ⟨hinv,hne⟩
    · exact hinv
    · trivial
  | schema =>
    simp only [lineTurn]
    split_ifs
    · exact hinv
    · exact ⟨hinv.1,hp.1,rfl⟩
    · trivial
  | schemaSlash =>
    refine expectTurn_known fun hch => ?_
    obtain ⟨hfresh,hstart,rfl⟩ := hinv
    subst hch
    exact ⟨hfresh,hstart,by simp only; omega,hp⟩
  | schemaSlashSlash => exact expectTurn_known fun _ => ⟨hinv.1,hinv.2.next⟩
  | hostStart =>
    simp only [lineTurn,hostTurn]
    split_ifs
    · exact ⟨hinv.1,hinv.2.next,hne⟩
    · exact ⟨hinv.1,hinv.2.next,hne⟩
    · exact hostEndTurn_known hinv.1 hinv.2 hp
  | host =>
    simp only [lineTurn,hostTurn]
    split_ifs
    · exact ⟨hinv.1,hinv.2.1.next,hinv.2.2⟩
    · exact hostEndTurn_known hinv.1 hinv.2.1 hp
  | hostEnd => exact hostEndTurn_known hinv.1 hinv.2.1 hp
  | hostIpLiteral =>
    simp only [lineTurn]
    split_ifs
    · exact ⟨hinv.1,hinv.2.1.next,hinv.2.2⟩
    · exact ⟨hinv.1,hinv.2.1.next,hinv.2.2⟩
    · exact ⟨hinv.1,hinv.2.1.next,hinv.2.2⟩
    · trivial
  | port =>
    simp only [lineTurn]
    split_ifs with hdigit hslash
    · exact ⟨hinv.1,hinv.2.next⟩
    · subst hslash
      refine LineInv.of_slash rfl rfl hp ?_
      exact hinv.1
    · obtain ⟨s,hs⟩ := hinv.2.scanned hinv.1
      exact ⟨s,hs.congr rfl⟩
    · trivial
  | hostHttp09 => exact behindUriTurn_known hinv (fun _ => hinv) trivial
  | afterSlashInUri =>
    obtain ⟨s,hscanned,hs⟩ := hinv
    refine (afterSlashTurn_step hscanned.known (hoffset hscanned.lt) ch hs rfl).known hscanned hp fun h => ?_
    exact ⟨s,h,.inl hs⟩
  | checkUri =>
    obtain ⟨s,hscanned,hs⟩ := hinv
    refine (checkUriTurn_step hscanned.known (hoffset hscanned.lt) ch hs rfl).known hscanned hp fun h => ?_
    exact ⟨s,h,.inr hs⟩
  | checkUriHttp09 =>
    obtain ⟨s,hblank,hs⟩ := hinv
    refine behindUriTurn_known ⟨s,hblank.1⟩ ?_ ?_
    · rintro rfl
      exact ⟨s,hblank.blank hp,hs⟩
    · have hresume := hblank.resume (by rcases hs with hs | hs <;> simp [hs]) hp
      have huri : s.state ≠ .uri := by rcases hs with hs | hs <;> simp [hs]
      simp only [if_neg huri] at hresume
      refine (checkUriTurn_step hresume.known (hoffset hresume.lt) ch rfl rfl).known hresume hp fun h => ?_
      exact ⟨_,h,.inr rfl⟩
  | uri =>
    obtain ⟨s,hscanned,hs⟩ := hinv
    refine (uriByteTurn_step hscanned.known ch hs rfl).known hscanned hp fun h => ?_
    exact ⟨s,h,hs⟩
  | http09 =>
    obtain ⟨s,hblank,hs⟩ := hinv
    refine behindUriTurn_known ⟨s,hblank.1⟩ ?_ ?_
    · rintro rfl
      exact ⟨s,hblank.blank hp,hs⟩
    · have hresume := hblank.resume (by simp [hs]) hp
      simp only [if_pos hs] at hresume
      refine (uriByteTurn_step hresume.known ch rfl rfl).known hresume hp fun h => ?_
      exact ⟨_,h,rfl⟩
  | httpH => exact expectTurn_known fun _ => hinv.imp fun s hs => hs.congr rfl
  | httpHT => exact expectTurn_known fun _ => hinv.imp fun s hs => hs.congr rfl
  | httpHTT => exact expectTurn_known fun _ => hinv.imp fun s hs => hs.congr rfl
  | httpHTTP => exact expectTurn_known fun _ => hinv.imp fun s hs => hs.congr rfl
  | firstMajorDigit =>
    simp only [lineTurn]
    split_ifs
    · exact hinv.imp fun s hs => hs.congr rfl
    · trivial
  | majorDigit =>
    simp only [lineTurn]
    split_ifs
    · exact hinv.imp fun s hs => hs.congr rfl
    · exact hinv.imp fun s hs => hs.congr rfl
    · trivial
  | firstMinorDigit =>
    simp only [lineTurn]
    split_ifs
    · exact hinv.imp fun s hs => hs.congr rfl
    · trivial
  | minorDigit =>
    simp only [lineTurn]
    split_ifs
    · exact hinv.imp fun s hs => hs.congr rfl
    · exact hinv
    · exact hinv.imp fun s hs => hs.congr rfl
    · exact hinv.imp fun s hs => hs.congr rfl
    · trivial
  | spacesAfterDigit =>
    simp only [lineTurn]
    split_ifs
    · exact hinv
    · exact hinv.imp fun s hs => hs.congr rfl
    · exact hinv
    · trivial
  | almostDone =>
    simp only [lineTurn]
    split_ifs
    · exact hinv.imp fun s hs => hs.congr rfl
    · trivial

theorem lineDone_ok {r' : RequestLine} {pos : Int} (h : lineDone r p = .ok r' pos) :
    r' = { r with requestEnd := if r.requestEnd = 0 then p else r.requestEnd, state := .start } ∧ pos = p + 1 := by
  rw [lineDone] at h
  by_cases h09 : r.httpVersion = 9 ∧ r.method ≠ .get
  · rw [if_pos h09] at h
    cases h
  · rw [if_neg h09] at h
    obtain ⟨rfl,rfl⟩ := LineResult.ok.inj h
    exact ⟨rfl,rfl⟩

/-- What every byte keeps holds at the end of an accepted line. -/
theorem lineLoop_rule {I : RequestLine → Int → Prop} {Q : RequestLine → Prop}
    (hgo : ∀ {r p ch r'}, I r p → b.At p ch → lineTurn (b.text r.requestStart p) r p ch = .go r' → I r' (p + 1))
    (hdone : ∀ {r p ch r'}, I r p → b.At p ch → lineTurn (b.text r.requestStart p) r p ch = .done r' → Q r')
    {rest : Bytes} (hinv : I r p) (hstart : b.start ≤ p) (hrest : b.data.drop (p - b.start).toNat = rest)
    {r' : RequestLine} {pos : Int} (hloop : lineLoop b r p rest = .ok r' pos) :
    ∃ s requestEnd, Q s ∧ r' = { s with requestEnd := requestEnd, state := .start } := by
  induction rest generalizing r p with
  | nil => simp [lineLoop] at hloop
  | cons ch rest ih =>
    have hp : b.At p ch := by
      refine ⟨hstart,?_⟩
      rw [← List.head?_drop,hrest]
      rfl
    rw [lineLoop] at hloop
    cases hturn : lineTurn (b.text r.requestStart p) r p ch with
    | go next =>
      rw [hturn] at hloop
      refine ih (hgo hinv hp hturn) (by omega) ?_ hloop
      rw [show (p + 1 - b.start).toNat = (p - b.start).toNat + 1 by omega,← List.drop_drop,hrest]
      rfl
    | done next =>
      rw [hturn] at hloop
      exact ⟨next,_,hdone hinv hp hturn,(lineDone_ok hloop).1⟩
    | error e => simp [hturn] at hloop

end Inv

/-- A line read from the start of its buffer. -/
def readLine (b : HeaderIn) : LineResult := parseRequestLine b .init b.start

theorem readLine_scanned {b : HeaderIn} (hnull : 0 < b.start) {r : RequestLine} {pos : Int}
    (hline : readLine b = .ok r pos) :
    ∃ s, ScannedTo b r r.uriEnd s := by
  have hinit : LineInv b .init b.start := ⟨rfl,rfl,rfl,rfl,rfl,rfl⟩
  have hknown {r : RequestLine} {p : Int} {ch : UInt8} {turn : LineTurn} (hinv : LineInv b r p) (hp : b.At p ch)
      (hturn : lineTurn (b.text r.requestStart p) r p ch = turn) : turn.Known b p :=
    hturn ▸ lineTurn_known hnull _ hinv hp
  obtain ⟨last,requestEnd,⟨s,hs⟩,rfl⟩ := lineLoop_rule (Q := fun r => ∃ s, ScannedTo b r r.uriEnd s) hknown hknown hinit
    le_rfl rfl hline
  exact ⟨s,hs.congr rfl⟩

theorem parseUri_slash {raw : Bytes} {s : UriScan} (hne : raw ≠ []) (hscan : parseUri raw = some s) :
    ∃ rest, raw = 47 :: rest := by
  cases raw with
  | nil => exact absurd rfl hne
  | cons ch rest =>
    simp only [parseUri,scanLoop,scanTurn,UriScan.init] at hscan
    split_ifs at hscan with hslash
    · exact ⟨rest,by rw [hslash]⟩
    · simp at hscan

theorem ScannedTo.text_length {b : HeaderIn} {r : RequestLine} {last : Int} {s : UriScan} (h : ScannedTo b r last s) :
    (b.text r.uriStart last).length = (last - r.uriStart).toNat := by
  have hstart := h.start_le
  have hfits := h.fits
  rw [HeaderIn.text,List.length_take,List.length_drop]
  omega

/-- The uri taken as it stands is the one the complex parse would give. -/
theorem processRequestUri_complex {b : HeaderIn} (hnull : 0 < b.start) {r : RequestLine} {s : UriScan}
    (h : ScannedTo b r r.uriEnd s) (mergeSlashes : Bool) :
    processRequestUri mergeSlashes b r =
      (parseComplexUri mergeSlashes (b.text r.uriStart r.uriEnd) r.plusInUri r.quotedUri).map
        fun u => u.target (b.text r.uriStart r.uriEnd) r.spaceInUri := by
  rw [processRequestUri]
  by_cases hfound : r.complexUri || r.quotedUri
  · rw [if_pos hfound]
  · rw [if_neg hfound]
    simp only [Bool.or_eq_true,not_or,Bool.not_eq_true] at hfound
    have hlen := h.text_length
    have hstart := h.start_le
    have hlt := h.lt
    have hne : b.text r.uriStart r.uriEnd ≠ [] := fun hnil => by
      rw [hnil,List.length_nil] at hlen
      omega
    have hplain : s.complexUri = false ∧ s.quotedUri = false :=
      ⟨h.known.complexUri ▸ hfound.1,h.known.quotedUri ▸ hfound.2⟩
    rw [hfound.2,h.known.plusInUri,parseComplexUri_plain hne h.parse hplain]
    have hexten (e : Int) : (if r.uriExt ≠ 0 then some (b.text r.uriExt e) else none) =
        s.uriExt.map fun n => (b.text r.uriStart e).drop n := by
      have hext := h.known.uriExt
      cases hs : s.uriExt with
      | none =>
        rw [hs,addr_none] at hext
        rw [if_neg (not_not.mpr hext)]
        rfl
      | some n =>
        rw [hs,addr_some] at hext
        have hne : r.uriExt ≠ 0 := by omega
        rw [if_pos hne,hext,Option.map_some,text_drop hstart]
    have hargs := h.known.argsStart
    cases hs : s.argsStart with
    | none =>
      rw [hs,addr_none] at hargs
      have hend : r.uriStart + r.uriLen = r.uriEnd := by
        rw [RequestLine.uriLen,if_neg (not_not.mpr hargs)]
        omega
      simp only [hargs,hend,hexten,ne_eq,not_true_eq_false,if_false,false_and,Option.elim_none,List.take_length,
        Option.map_none,Option.map_some,ParsedUri.target]
      rfl
    | some n =>
      obtain ⟨path,args,hraw,rfl⟩ := parseUri_args h.parse hs
      rw [hs,addr_some] at hargs
      have hsome : r.argsStart ≠ 0 := by omega
      have hend : r.uriStart + r.uriLen = r.uriStart + path.length := by
        rw [RequestLine.uriLen,if_pos hsome]
        omega
      have hpath : r.uriStart + path.length ≤ r.uriEnd := by
        rw [hraw,List.length_append] at hlen
        omega
      have htake : (b.text r.uriStart r.uriEnd).take path.length = b.text r.uriStart (r.uriStart + path.length) :=
        text_take hpath
      have hquery : (if r.argsStart ≠ 0 ∧ r.argsStart < r.uriEnd then b.text r.argsStart r.uriEnd else []) =
          (b.text r.uriStart r.uriEnd).drop (path.length + 1) := by
        rw [text_drop hstart,← hargs]
        split_ifs with hnonempty
        · rfl
        · rw [HeaderIn.text,show (r.uriEnd - r.argsStart).toNat = 0 by omega,List.take_zero]
      rw [hend,if_pos hsome,show r.argsStart - 1 = r.uriStart + path.length by omega,hexten,hquery]
      simp [ParsedUri.target,htake]

theorem ScannedTo.slash {b : HeaderIn} {r : RequestLine} {last : Int} {s : UriScan} (h : ScannedTo b r last s) :
    ∃ rest, b.text r.uriStart last = 47 :: rest := by
  have hlen := h.text_length
  have hlt := h.lt
  refine parseUri_slash (fun hnil => ?_) h.parse
  rw [hnil,List.length_nil] at hlen
  omega

/-- `GET /a/../b.c?d`, with the end of the line. -/
def sampleLine : HeaderIn := ⟨64,[71,69,84,32,47,97,47,46,46,47,98,46,99,63,100,10],16⟩

def sampleRequest : RequestLine :=
  ⟨.start,64,79,66,68,79,0,0,0,0,0,0,0,.get,0,9,true,false,false,false⟩

def sampleTarget : Target :=
  ⟨[47,98,46,99],[47,97,47,46,46,47,98,46,99,63,100],some [99],[100],false,false,true⟩

/-- Whatever line is accepted, and whether its uri is taken as it stands or parsed into
a buffer: the request has the path, the extension and the query of the two passes. -/
theorem request_uri_two_passes {b : HeaderIn} (hnull : 0 < b.start) {r : RequestLine} {pos : Int}
    (hline : readLine b = .ok r pos) (mergeSlashes : Bool) :
    ∃ rest, b.text r.uriStart r.uriEnd = 47 :: rest ∧
      processRequestUri mergeSlashes b r =
        (normalUri mergeSlashes rest r.plusInUri r.quotedUri).map fun u => u.target (47 :: rest) r.spaceInUri := by
  obtain ⟨s,hs⟩ := readLine_scanned hnull hline
  obtain ⟨rest,hrest⟩ := hs.slash
  refine ⟨rest,hrest,?_⟩
  rw [processRequestUri_complex hnull hs,hrest,complexUri_normal]

theorem request_uri_two_passes_sample :
    readLine sampleLine = .ok sampleRequest 80 ∧
      ∃ rest, sampleLine.text sampleRequest.uriStart sampleRequest.uriEnd = 47 :: rest ∧
        processRequestUri true sampleLine sampleRequest =
          (normalUri true rest false false).map fun u => u.target (47 :: rest) false :=
  ⟨by decide +kernel,request_uri_two_passes (by decide)
    (by decide +kernel : readLine sampleLine = .ok sampleRequest 80) true⟩

theorem normalUri_names {mergeSlashes plusInUri quotedUri : Bool} {rest : Bytes} {u : ParsedUri}
    (h : normalUri mergeSlashes rest plusInUri quotedUri = some u) :
    ∃ names last, u.uri = 47 :: [47].intercalate (names ++ [last]) ∧ u.exten = extension last ∧ 47 ∉ last ∧
      ∀ d ∈ names, Kept mergeSlashes d := by
  rw [normalUri] at h
  obtain ⟨v,-,h⟩ := Option.bind_eq_some_iff.mp h
  obtain ⟨⟨dirs,last⟩,hresolve,h⟩ := Option.bind_eq_some_iff.mp h
  obtain ⟨hlast,hdirs⟩ := resolve_kept hresolve
  have hquery (r : ParsedUri) (query : Option Bytes) :
      (r.withQuery query).uri = r.uri ∧ (r.withQuery query).exten = r.exten := by
    cases query with
    | none => exact ⟨rfl,rfl⟩
    | some query =>
      rw [ParsedUri.withQuery]
      split_ifs <;> exact ⟨rfl,rfl⟩
  obtain rfl := Option.some.inj h
  exact ⟨dirs.reverse,last,(hquery _ _).1,(hquery _ _).2,hlast,fun d hd => hdirs d (List.mem_reverse.mp hd)⟩

/-- No request gets past the server with a name `.` or `..` before a slash of its path,
nor, where slashes are merged, with an empty one; only the last name can be either. -/
theorem request_path_names {b : HeaderIn} (hnull : 0 < b.start) {r : RequestLine} {pos : Int}
    (hline : readLine b = .ok r pos) {mergeSlashes : Bool} {t : Target}
    (ht : processRequestUri mergeSlashes b r = some t) :
    ∃ names last, t.uri = 47 :: [47].intercalate (names ++ [last]) ∧ t.exten = extension last ∧ 47 ∉ last ∧
      ∀ d ∈ names, 47 ∉ d ∧ d ≠ [46] ∧ d ≠ [46,46] ∧ (mergeSlashes = true → d ≠ []) := by
  obtain ⟨s,hs⟩ := readLine_scanned hnull hline
  obtain ⟨rest,hrest⟩ := hs.slash
  rw [processRequestUri_complex hnull hs,hrest,complexUri_normal] at ht
  obtain ⟨u,hu,rfl⟩ := Option.map_eq_some_iff.mp ht
  exact normalUri_names hu

theorem request_path_names_sample :
    processRequestUri true sampleLine sampleRequest = some sampleTarget ∧
    ∃ names last, sampleTarget.uri = 47 :: [47].intercalate (names ++ [last]) ∧ sampleTarget.exten = extension last ∧
      47 ∉ last ∧ ∀ d ∈ names, 47 ∉ d ∧ d ≠ [46] ∧ d ≠ [46,46] ∧ (true = true → d ≠ []) :=
  ⟨by decide +kernel,
    request_path_names (by decide) (by decide +kernel : readLine sampleLine = .ok sampleRequest 80)
      (by decide +kernel : processRequestUri true sampleLine sampleRequest = some sampleTarget)⟩

/-- The complex parse stays within what is allocated for the uri: at no point of it are
more bytes written than `uri.len`, which is taken from the first scan. -/
theorem complex_uri_in_bounds {b : HeaderIn} {r : RequestLine} {pos : Int} (hline : readLine b = .ok r pos)
    (hnull : 0 < b.start) {mergeSlashes : Bool} {k : Nat} {state : SwState} {out : UriBuf}
    (hrun : uriRun mergeSlashes (.plain .usual) ((b.text r.uriStart r.uriEnd).take k)
      ⟨[],none,r.plusInUri,r.quotedUri⟩ = some (state,out)) : (out.out.length : Int) ≤ r.uriLen := by
  obtain ⟨s,hs⟩ := readLine_scanned hnull hline
  have hlen := hs.text_length
  have hlt := hs.lt
  have hstart := hs.start_le
  have hwritten := uriRun_length hrun
  have hargs := hs.known.argsStart
  rw [List.length_nil,Nat.zero_add,List.length_take] at hwritten
  cases hquery : s.argsStart with
  | none =>
    rw [hquery,addr_none] at hargs
    rw [RequestLine.uriLen,if_neg (not_not.mpr hargs)]
    omega
  | some n =>
    obtain ⟨path,args,hraw,rfl⟩ := parseUri_args hs.parse hquery
    rw [hquery,addr_some] at hargs
    have hk : k ≤ path.length := by
      by_contra hlong
      obtain ⟨j,rfl⟩ : ∃ j, k = path.length + (j + 1) := ⟨k - path.length - 1,by omega⟩
      rw [hraw,List.take_length_add_append,List.take_succ_cons,uriRun_query] at hrun
      cases hrun
    rw [RequestLine.uriLen,if_pos (by omega)]
    omega

theorem complex_uri_in_bounds_sample :
    uriRun true (.plain .usual) ((sampleLine.text sampleRequest.uriStart sampleRequest.uriEnd).take 5)
      ⟨[],none,false,false⟩ = some (.plain .dotDot,⟨[46,46,47,97,47],none,false,false⟩) ∧
    (([46,46,47,97,47] : Bytes).length : Int) ≤ sampleRequest.uriLen :=
  ⟨by decide +kernel,
    complex_uri_in_bounds (by decide +kernel : readLine sampleLine = .ok sampleRequest 80) (by decide)
      (by decide +kernel : uriRun true (.plain .usual)
        ((sampleLine.text sampleRequest.uriStart sampleRequest.uriEnd).take 5)
        ⟨[],none,sampleRequest.plusInUri,sampleRequest.quotedUri⟩ =
          some (.plain .dotDot,⟨[46,46,47,97,47],none,false,false⟩))⟩

end Aret.Http
