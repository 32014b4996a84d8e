import Aret.Http.RequestUri

/-! The request line as a client writes it. What the parser reads back is what was
written, however many blanks stand between the parts and whatever follows. -/
namespace Aret.Http
open Lib

/-- A byte of a target that neither ends it nor is refused. -/
def isTargetByte (ch : UInt8) : Bool := !(ch == 0 || ch == 10 || ch == 13 || ch == 32)

/-- A request line with its version: the line ends sent ahead of it, its parts, and the
blanks behind the method, the target and the version. -/
structure LineText where
  ahead : Bytes
  method : Bytes
  blanks : Nat
  path : Bytes
  blanksBehind : Nat
  major : UInt8
  majors : Bytes
  minor : UInt8
  minors : Bytes
  blanksAfter : Nat
  cr : Bool
  ahead_ends : ∀ ch ∈ ahead, ch = 13 ∨ ch = 10
  method_ne : method ≠ []
  method_bytes : ∀ ch ∈ method, isMethodByte ch = true
  path_bytes : ∀ ch ∈ path, isTargetByte ch = true
  major_digit : 49 ≤ major ∧ major ≤ 57
  majors_digits : ∀ ch ∈ majors, isDigit ch = true
  minor_digit : isDigit minor = true
  minors_digits : ∀ ch ∈ minors, isDigit ch = true

namespace LineText

def target (l : LineText) : Bytes := 47 :: l.path

/-- The version and what stands behind it on the line. -/
def protocol (l : LineText) : Bytes :=
  bytes "HTTP/" ++ (l.major :: l.majors ++ (46 :: (l.minor :: l.minors ++ List.replicate l.blanksAfter 32)))

def line (l : LineText) : Bytes :=
  l.method ++ (List.replicate (l.blanks + 1) 32 ++ (l.target ++ (List.replicate (l.blanksBehind + 1) 32 ++ l.protocol)))

def lineEnd (l : LineText) : Bytes := if l.cr then [13,10] else [10]

def text (l : LineText) : Bytes := l.ahead ++ (l.line ++ l.lineEnd)

def majorNumber (l : LineText) : Nat := digitsValue 0 (l.major :: l.majors)

def minorNumber (l : LineText) : Nat := digitsValue 0 (l.minor :: l.minors)

end LineText

section Loop
variable {b : HeaderIn} {r r' : RequestLine} {p : Int} {ch : UInt8} {rest : Bytes}

theorem lineLoop_go (h : lineTurn (b.text r.requestStart p) r p ch = .go r') :
    lineLoop b r p (ch :: rest) = lineLoop b r' (p + 1) rest := by
  rw [lineLoop,h]

theorem addr_cons (p : Int) (ch : UInt8) (s : Bytes) : p + 1 + (s.length : Int) = p + ((ch :: s).length : Nat) := by
  rw [List.length_cons]
  push_cast
  omega

theorem lineLoop_stay {s : Bytes} (h : ∀ ch ∈ s, ∀ m p, lineTurn m r p ch = .go r) :
    lineLoop b r p (s ++ rest) = lineLoop b r (p + s.length) rest := by
  induction s generalizing p with
  | nil => simp
  | cons ch s ih =>
    rw [List.cons_append,lineLoop_go (h ch List.mem_cons_self _ _),
      ih fun ch' hch => h ch' (List.mem_cons_of_mem ch hch),
      addr_cons]

theorem lineLoop_blanks (h : ∀ m p, lineTurn m r p 32 = .go r) (n : Nat) :
    lineLoop b r p (List.replicate n 32 ++ rest) = lineLoop b r (p + n) rest := by
  rw [lineLoop_stay fun ch hch => List.eq_of_mem_replicate hch ▸ h,List.length_replicate]

/-- Line ends ahead of the line only move `request_start`. -/
theorem lineLoop_ahead {s : Bytes} (hs : ∀ ch ∈ s, ch = 13 ∨ ch = 10) (hr : r.state = .start) :
    ∃ x, lineLoop b r p (s ++ rest) = lineLoop b { r with requestStart := x } (p + s.length) rest := by
  induction s generalizing p r with
  | nil => exact ⟨r.requestStart,by simp⟩
  | cons ch s ih =>
    obtain ⟨hch,hs⟩ := List.forall_mem_cons.mp hs
    have hturn (m : Bytes) : lineTurn m r p ch = .go { r with requestStart := p } := by simp [lineTurn,hr,hch]
    obtain ⟨x,hx⟩ := ih hs (r := { r with requestStart := p }) (p := p + 1) hr
    refine ⟨x,?_⟩
    rw [List.cons_append,lineLoop_go (hturn _),hx,addr_cons]

theorem isMethodByte_ne (h : isMethodByte ch = true) : ch ≠ 13 ∧ ch ≠ 10 ∧ ch ≠ 32 := by
  refine ⟨?_,?_,?_⟩ <;> rintro rfl <;> exact absurd h (by decide)

/-- The method up to the blank behind it, from the state `start` on. -/
theorem lineLoop_method {m : Bytes} (hne : m ≠ []) (hm : ∀ ch ∈ m, isMethodByte ch = true) (hr : r.state = .start)
    (htext : b.text p (p + m.length) = m) :
    lineLoop b r p (m ++ 32 :: rest) =
      lineLoop b { r with requestStart := p, methodEnd := p + m.length - 1, method := methodOf m r.method,
                          state := .spacesBeforeUri } (p + m.length + 1) rest := by
  cases m with
  | nil => exact absurd rfl hne
  | cons ch m =>
    obtain ⟨hch,hm⟩ := List.forall_mem_cons.mp hm
    have hfirst (t : Bytes) : lineTurn t r p ch = .go { r with requestStart := p, state := .method } := by
      simp [lineTurn,hr,hch,isMethodByte_ne hch]
    have hstay : ∀ ch ∈ m, ∀ t q, lineTurn t { r with requestStart := p, state := .method } q ch =
        .go { r with requestStart := p, state := .method } := by
      intro ch hch t q
      simp [lineTurn,hm ch hch,(isMethodByte_ne (hm ch hch)).2.2]
    have hblank : lineTurn (b.text p (p + (ch :: m).length)) { r with requestStart := p, state := .method }
        (p + (ch :: m).length) 32 = .go { r with requestStart := p, methodEnd := p + (ch :: m).length - 1,
                                                 method := methodOf (ch :: m) r.method,
                                                 state := .spacesBeforeUri } := by
      simp only [lineTurn,htext]
      rfl
    rw [List.cons_append,lineLoop_go (hfirst _),lineLoop_stay hstay,addr_cons,lineLoop_go hblank]

/-- The states in which a target is read. -/
def InTarget (state : LineState) : Prop := state = .afterSlashInUri ∨ state = .checkUri ∨ state = .uri

/-- The states behind a blank that may end it. -/
def BehindTarget (state : LineState) : Prop := state = .checkUriHttp09 ∨ state = .http09

/-- Only what a scan of the target sets is different. -/
def SameLine (r r' : RequestLine) : Prop :=
  ∃ state uriExt argsStart complexUri quotedUri plusInUri,
    r' = { r with state := state, uriExt := uriExt, argsStart := argsStart, complexUri := complexUri,
                  quotedUri := quotedUri, plusInUri := plusInUri }

theorem SameLine.refl (r : RequestLine) : SameLine r r := ⟨_,_,_,_,_,_,rfl⟩

theorem SameLine.trans {r s t : RequestLine} (hrs : SameLine r s) (hst : SameLine s t) : SameLine r t := by
  obtain ⟨_,_,_,_,_,_,rfl⟩ := hrs
  obtain ⟨state,uriExt,argsStart,complexUri,quotedUri,plusInUri,rfl⟩ := hst
  exact ⟨state,uriExt,argsStart,complexUri,quotedUri,plusInUri,rfl⟩

theorem uriEndTurn_target (hch : isTargetByte ch = true) (behind : LineState) (otherwise : LineTurn) :
    uriEndTurn r p ch behind otherwise = otherwise := by
  simp only [isTargetByte,Bool.not_eq_true',Bool.or_eq_false_iff,beq_eq_false_iff_ne] at hch
  obtain ⟨⟨⟨hnul,hlf⟩,hcr⟩,hblank⟩ := hch
  simp [uriEndTurn,hnul,hlf,hcr,hblank]

/-- A byte of the target is never refused and never ends it. -/
theorem lineTurn_target (hr : InTarget r.state) (hch : isTargetByte ch = true) (m : Bytes) :
    ∃ r', lineTurn m r p ch = .go r' ∧ SameLine r r' ∧ InTarget r'.state := by
  rcases hr with hr | hr | hr
  · simp only [lineTurn,hr,afterSlashTurn,uriEndTurn_target hch]
    split_ifs
    all_goals exact ⟨_,rfl,⟨_,_,_,_,_,_,rfl⟩,by simp [InTarget]⟩
  · simp only [lineTurn,hr,checkUriTurn,uriEndTurn_target hch]
    split_ifs
    all_goals exact ⟨_,rfl,⟨_,_,_,_,_,_,rfl⟩,by simp [InTarget,hr]⟩
  · simp only [lineTurn,hr,uriByteTurn,uriEndTurn_target hch]
    split_ifs
    all_goals exact ⟨_,rfl,⟨_,_,_,_,_,_,rfl⟩,by simp [InTarget,hr]⟩

theorem lineLoop_target {s : Bytes} (hs : ∀ ch ∈ s, isTargetByte ch = true) (hr : InTarget r.state) :
    ∃ r', lineLoop b r p (s ++ rest) = lineLoop b r' (p + s.length) rest ∧ SameLine r r' ∧ InTarget r'.state := by
  induction s generalizing p r with
  | nil => exact ⟨r,by simp,.refl r,hr⟩
  | cons ch s ih =>
    obtain ⟨hch,hs⟩ := List.forall_mem_cons.mp hs
    obtain ⟨r1,hturn,hsame,hr1⟩ := lineTurn_target hr hch (b.text r.requestStart p) (p := p)
    obtain ⟨r',hloop,hsame',hr'⟩ := ih hs hr1 (p := p + 1)
    refine ⟨r',?_,hsame.trans hsame',hr'⟩
    rw [List.cons_append,lineLoop_go hturn,hloop,addr_cons]

theorem lineTurn_blank (hr : InTarget r.state) (m : Bytes) :
    ∃ behind, BehindTarget behind ∧ lineTurn m r p 32 = .go { r with uriEnd := p, state := behind } := by
  have hblank : usual 32 = false := by decide
  rcases hr with hr | hr | hr
  · exact ⟨.checkUriHttp09,.inl rfl,by simp [lineTurn,hr,afterSlashTurn,uriEndTurn,hblank]⟩
  · exact ⟨.checkUriHttp09,.inl rfl,by simp [lineTurn,hr,checkUriTurn,uriEndTurn,hblank]⟩
  · exact ⟨.http09,.inr rfl,by simp [lineTurn,hr,uriByteTurn,uriEndTurn,hblank]⟩

/-- The blanks behind the target and the word `HTTP/`. -/
theorem lineLoop_protocol (hr : BehindTarget r.state) (n : Nat) :
    lineLoop b r p (List.replicate n 32 ++ (bytes "HTTP/" ++ rest)) =
      lineLoop b { r with httpProtocol := p + n, state := .firstMajorDigit } (p + n + 5) rest := by
  have hstay (m : Bytes) (q : Int) : lineTurn m r q 32 = .go r := by
    rcases hr with hr | hr <;> simp [lineTurn,hr,behindUriTurn]
  have hfirst (m : Bytes) (q : Int) : lineTurn m r q 72 = .go { r with httpProtocol := q, state := .httpH } := by
    rcases hr with hr | hr <;> simp [lineTurn,hr,behindUriTurn,lineEnd09]
  rw [lineLoop_blanks hstay,show bytes "HTTP/" ++ rest = 72 :: 84 :: 84 :: 80 :: 47 :: rest from rfl,
    lineLoop_go (hfirst _ _)]
  simp only [lineLoop,lineTurn,expectTurn,if_true]
  congr 1
  omega

theorem isDigit_ne (h : isDigit ch = true) : ch ≠ 46 ∧ ch ≠ 13 ∧ ch ≠ 10 ∧ ch ≠ 32 := by
  refine ⟨?_,?_,?_,?_⟩ <;> rintro rfl <;> exact absurd h (by decide)

theorem digitsValue_pushDigit {ds : Bytes} (hds : ∀ ch ∈ ds, isDigit ch = true) (n : Nat) :
    ds.foldl pushDigit (n % 2^16) = digitsValue n ds % 2^16 := by
  induction ds generalizing n with
  | nil => rfl
  | cons ch ds ih =>
    obtain ⟨hch,hds⟩ := List.forall_mem_cons.mp hds
    rw [List.foldl_cons,digitsValue,if_pos hch,← ih hds]
    congr 1
    rw [pushDigit]
    omega

/-- A number read digit by digit into sixteen bits. -/
theorem digitsValue_first {ds : Bytes} (hch : isDigit ch = true) (hds : ∀ ch ∈ ds, isDigit ch = true) :
    ds.foldl pushDigit (ch.toNat - 48) = digitsValue 0 (ch :: ds) % 2^16 := by
  have hsmall : (ch.toNat - 48) % 2^16 = ch.toNat - 48 := by
    have hle := (isDigit_iff.mp hch).2
    omega
  rw [digitsValue,if_pos hch,← digitsValue_pushDigit hds,Nat.mul_zero,Nat.zero_add,hsmall]

theorem lineLoop_majors {ds : Bytes} (hds : ∀ ch ∈ ds, isDigit ch = true) (hr : r.state = .majorDigit) :
    lineLoop b r p (ds ++ 46 :: rest) =
      lineLoop b { r with httpMajor := ds.foldl pushDigit r.httpMajor, state := .firstMinorDigit }
        (p + ds.length + 1) rest := by
  induction ds generalizing p r with
  | nil =>
    have hdot (m : Bytes) : lineTurn m r p 46 = .go { r with state := .firstMinorDigit } := by simp [lineTurn,hr]
    rw [List.nil_append,lineLoop_go (hdot _)]
    simp
  | cons ch ds ih =>
    obtain ⟨hch,hds⟩ := List.forall_mem_cons.mp hds
    have hturn (m : Bytes) : lineTurn m r p ch = .go { r with httpMajor := pushDigit r.httpMajor ch } := by
      simp [lineTurn,hr,hch,isDigit_ne hch]
    rw [List.cons_append,lineLoop_go (hturn _),ih hds (by exact hr),addr_cons,List.foldl_cons]

theorem lineLoop_minors {ds : Bytes} (hds : ∀ ch ∈ ds, isDigit ch = true) (hr : r.state = .minorDigit) :
    lineLoop b r p (ds ++ rest) =
      lineLoop b { r with httpMinor := ds.foldl pushDigit r.httpMinor } (p + ds.length) rest := by
  induction ds generalizing p r with
  | nil => simp
  | cons ch ds ih =>
    obtain ⟨hch,hds⟩ := List.forall_mem_cons.mp hds
    have hturn (m : Bytes) : lineTurn m r p ch = .go { r with httpMinor := pushDigit r.httpMinor ch } := by
      simp [lineTurn,hr,hch,isDigit_ne hch]
    rw [List.cons_append,lineLoop_go (hturn _),ih hds (by exact hr),addr_cons,List.foldl_cons]

/-- The end of the line, at which `request_end` is left. -/
theorem lineLoop_end (hr : r.state = .minorDigit ∨ r.state = .spacesAfterDigit) (hend : r.requestEnd = 0) (hp : 0 < p)
    (cr : Bool) :
    lineLoop b r p ((if cr then [13,10] else [10]) ++ rest) =
      if r.httpVersion = 9 ∧ r.method ≠ .get then .error .invalid09Method
      else .ok { r with requestEnd := p, state := .start } (p + (if cr then 2 else 1)) := by
  cases cr with
  | true =>
    have hcr (m : Bytes) : lineTurn m r p 13 = .go { r with state := .almostDone } := by
      rcases hr with hr | hr <;> simp [lineTurn,hr]
    have hdone (m : Bytes) : lineTurn m { r with state := .almostDone } (p + 1) 10 =
        .done { r with state := .almostDone, requestEnd := p } := by
      simp [lineTurn]
    rw [if_pos rfl,if_pos rfl,show [13,10] ++ rest = 13 :: 10 :: rest from rfl,lineLoop_go (hcr _),lineLoop,hdone]
    have hset : p ≠ 0 := hp.ne'
    simp only [lineDone,RequestLine.httpVersion,hset,if_false]
    rw [add_assoc]
    rfl
  | false =>
    have hdone (m : Bytes) : lineTurn m r p 10 = .done r := by
      rcases hr with hr | hr <;> simp [lineTurn,hr]
    rw [if_neg Bool.false_ne_true,if_neg Bool.false_ne_true,List.singleton_append,lineLoop,hdone]
    simp only [lineDone,hend,if_true]

theorem lineLoop_blanksEnd (hr : r.state = .minorDigit) (hend : r.requestEnd = 0) (hp : 0 < p) (n : Nat) (cr : Bool) :
    lineLoop b r p (List.replicate n 32 ++ ((if cr then [13,10] else [10]) ++ rest)) =
      if r.httpVersion = 9 ∧ r.method ≠ .get then .error .invalid09Method
      else .ok { r with requestEnd := p + n, state := .start } (p + n + (if cr then 2 else 1)) := by
  cases n with
  | zero =>
    rw [List.replicate_zero,List.nil_append,lineLoop_end (.inl hr) hend hp,Nat.cast_zero,add_zero]
  | succ n =>
    have hfirst (m : Bytes) : lineTurn m r p 32 = .go { r with state := .spacesAfterDigit } := by simp [lineTurn,hr]
    have hp' : 0 < p + 1 + (n : Int) := by omega
    rw [List.replicate_succ,List.cons_append,lineLoop_go (hfirst _),lineLoop_blanks fun m q => by simp [lineTurn],
      lineLoop_end (.inr rfl) (by exact hend) hp',show p + 1 + (n : Int) = p + (n + 1 : Nat) by omega]
    rfl

end Loop

theorem text_part {b : HeaderIn} {x y z : Bytes} (hdata : b.data = x ++ (y ++ z)) {first last : Int}
    (hfirst : first = b.start + x.length) (hlast : last = first + y.length) : b.text first last = y := by
  rw [HeaderIn.text,hdata,show (first - b.start).toNat = x.length by omega,
    show (last - first).toNat = y.length by omega,
    List.drop_left,List.take_left]

/-- The request line as it is read back. -/
structure LineText.ReadAs (l : LineText) (b : HeaderIn) (r : RequestLine) : Prop where
  line : b.text r.requestStart r.requestEnd = l.line
  methodText : b.text r.requestStart (r.methodEnd + 1) = l.method
  method : r.method = methodOf l.method .unknown
  target : b.text r.uriStart r.uriEnd = l.target
  behind : b.text r.uriStart r.requestEnd = l.target ++ (List.replicate (l.blanksBehind + 1) 32 ++ l.protocol)
  protocol : b.text r.httpProtocol r.requestEnd = l.protocol
  httpMajor : r.httpMajor = l.majorNumber % 2^16
  httpMinor : r.httpMinor = l.minorNumber % 2^16
  spaceInUri : r.spaceInUri = false
  schemaStart : r.schemaStart = 0
  hostStart : r.hostStart = 0

def LineText.httpVersion (l : LineText) : Nat := l.majorNumber % 2^16 * 1000 + l.minorNumber % 2^16

section RoundTrip
variable (l : LineText) {b : HeaderIn} {rest : Bytes}

theorem lineLoop_version {r : RequestLine} {p : Int} (hr : r.state = .firstMajorDigit) (hend : r.requestEnd = 0)
    (hp : 0 < p) :
    lineLoop b r p (l.major :: l.majors ++ (46 :: (l.minor :: l.minors ++
        (List.replicate l.blanksAfter 32 ++ (l.lineEnd ++ rest))))) =
      let last := p + (l.major :: l.majors).length + 1 + (l.minor :: l.minors).length + l.blanksAfter
      if l.httpVersion = 9 ∧ r.method ≠ .get then .error .invalid09Method
      else .ok { r with httpMajor := l.majorNumber % 2^16, httpMinor := l.minorNumber % 2^16, requestEnd := last,
                        state := .start } (last + l.lineEnd.length) := by
  have hmajor : isDigit l.major = true :=
    isDigit_iff.mpr ⟨le_trans (by decide) (UInt8.le_iff_toNat_le.mp l.major_digit.1),
      UInt8.le_iff_toNat_le.mp l.major_digit.2⟩
  have hfirst (m : Bytes) :
      lineTurn m r p l.major = .go { r with httpMajor := l.major.toNat - 48, state := .majorDigit } := by
    simp [lineTurn,hr,l.major_digit]
  have hsecond (r : RequestLine) (m : Bytes) (p : Int) (hr : r.state = .firstMinorDigit) : lineTurn m r p l.minor =
      .go { r with httpMinor := l.minor.toNat - 48, state := .minorDigit } := by
    simp [lineTurn,hr,l.minor_digit]
  have hlast : p + 1 + (l.majors.length : Int) + 1 + 1 + l.minors.length =
      p + (l.major :: l.majors).length + 1 + (l.minor :: l.minors).length := by
    rw [addr_cons p l.major,addr_cons _ l.minor]
  have hlength : (l.lineEnd.length : Int) = if l.cr then 2 else 1 := by
    rw [LineText.lineEnd]
    split_ifs <;> rfl
  rw [List.cons_append,lineLoop_go (hfirst _),lineLoop_majors l.majors_digits rfl,List.cons_append,
    lineLoop_go (hsecond _ _ _ rfl),lineLoop_minors l.minors_digits rfl,LineText.lineEnd,
    lineLoop_blanksEnd rfl (by exact hend) (by omega),hlast]
  simp only [digitsValue_first hmajor l.majors_digits,digitsValue_first l.minor_digit l.minors_digits]
  rw [← LineText.lineEnd,hlength]
  rfl

/-- The rest of the line, from the byte behind the slash of the target on. -/
theorem lineLoop_behindSlash {r : RequestLine} {p : Int} (hr : r.state = .afterSlashInUri) (hend : r.requestEnd = 0)
    (hp : 0 < p)
    (rest : Bytes) :
    ∃ uriExt argsStart complexUri quotedUri plusInUri,
      lineLoop b r p (l.path ++ 32 ::
        (List.replicate l.blanksBehind 32 ++ (bytes "HTTP/" ++ (l.major :: l.majors ++ (46 ::
        (l.minor :: l.minors ++ (List.replicate l.blanksAfter 32 ++ (l.lineEnd ++ rest)))))))) =
      let protocol := p + l.path.length + 1 + l.blanksBehind
      let last := protocol + l.protocol.length
      if l.httpVersion = 9 ∧ r.method ≠ .get then .error .invalid09Method
      else .ok { r with uriEnd := p + l.path.length, uriExt := uriExt, argsStart := argsStart, complexUri := complexUri,
                        quotedUri := quotedUri, plusInUri := plusInUri, httpProtocol := protocol,
                        httpMajor := l.majorNumber % 2^16, httpMinor := l.minorNumber % 2^16, requestEnd := last,
                        state := .start } (last + l.lineEnd.length) := by
  obtain ⟨r',hloop,⟨state,uriExt,argsStart,complexUri,quotedUri,plusInUri,rfl⟩,hr'⟩ :=
    lineLoop_target (b := b) (p := p) l.path_bytes (Or.inl hr)
  obtain ⟨behind,hbehind,hblank⟩ := lineTurn_blank hr' (p := p + l.path.length)
    (b.text r.requestStart (p + l.path.length))
  have hlast : p + l.path.length + 1 + l.blanksBehind + 5 + (l.major :: l.majors).length + 1 +
      (l.minor :: l.minors).length +
      l.blanksAfter = p + l.path.length + 1 + l.blanksBehind + l.protocol.length := by
    have hlength : l.protocol.length =
        5 + ((l.major :: l.majors).length + (((l.minor :: l.minors).length + l.blanksAfter) + 1)) := by
      rw [LineText.protocol,List.length_append,List.length_append,List.length_cons (a := 46),List.length_append,
        List.length_replicate]
      rfl
    omega
  refine ⟨uriExt,argsStart,complexUri,quotedUri,plusInUri,?_⟩
  rw [hloop,lineLoop_go hblank,lineLoop_protocol hbehind,lineLoop_version l rfl (by exact hend) (by omega),hlast]

theorem LineText.method_text {l : LineText} (hdata : b.data = l.text ++ rest) {first : Int}
    (hfirst : first = b.start + l.ahead.length) : b.text first (first + l.method.length) = l.method := by
  have hsplit : b.data = l.ahead ++ (l.method ++ (List.replicate (l.blanks + 1) 32 ++ (l.target ++
      (List.replicate (l.blanksBehind + 1) 32 ++ l.protocol)) ++ l.lineEnd ++ rest)) := by
    rw [hdata,LineText.text,LineText.line]
    simp only [List.append_assoc]
  exact text_part hsplit hfirst rfl

/-- Where the parts of the line stand. -/
structure LineText.Places (l : LineText) (start first uri uriEnd protocol last : Int) : Prop where
  first_eq : first = start + l.ahead.length
  uri_eq : uri = first + l.method.length + 1 + l.blanks
  uriEnd_eq : uriEnd = uri + 1 + l.path.length
  protocol_eq : protocol = uriEnd + 1 + l.blanksBehind
  last_eq : last = protocol + l.protocol.length

theorem readLine_text (hstart : 0 < b.start) (hdata : b.data = l.text ++ rest) :
    ∃ first uri uriEnd protocol last, l.Places b.start first uri uriEnd protocol last ∧
      ∃ uriExt argsStart complexUri quotedUri plusInUri,
        readLine b = if l.httpVersion = 9 ∧ methodOf l.method .unknown ≠ .get then .error .invalid09Method
          else .ok ⟨.start,first,last,first + l.method.length - 1,uri,uriEnd,0,0,0,0,uriExt,argsStart,protocol,
            methodOf l.method .unknown,l.majorNumber % 2^16,l.minorNumber % 2^16,complexUri,quotedUri,plusInUri,false⟩
              (last + l.lineEnd.length) := by
  obtain ⟨first,hfirst⟩ : ∃ x, x = b.start + l.ahead.length := ⟨_,rfl⟩
  have hread : readLine b = lineLoop b .init b.start (l.ahead ++ (l.method ++ 32 :: (List.replicate l.blanks 32 ++
      47 :: (l.path ++ 32 :: (List.replicate l.blanksBehind 32 ++ (bytes "HTTP/" ++ (l.major :: l.majors ++ (46 ::
        (l.minor :: l.minors ++ (List.replicate l.blanksAfter 32 ++ (l.lineEnd ++ rest))))))))))) := by
    rw [readLine,parseRequestLine,sub_self,Int.toNat_zero,List.drop_zero,hdata]
    simp [LineText.text,LineText.line,LineText.target,LineText.protocol,List.replicate_succ]
  -- up to the target
  obtain ⟨x,hx⟩ := lineLoop_ahead (b := b) (r := .init) (p := b.start) l.ahead_ends rfl
  have hslash (r : RequestLine) (m : Bytes) (p : Int) (hr : r.state = .spacesBeforeUri) :
      lineTurn m r p 47 = .go { r with uriStart := p, state := .afterSlashInUri } := by
    simp [lineTurn,hr]
  rw [hread,hx,← hfirst,lineLoop_method l.method_ne l.method_bytes rfl (LineText.method_text hdata hfirst),
    lineLoop_blanks fun m q => by simp [lineTurn,isAlpha],lineLoop_go (hslash _ _ _ rfl)]
  obtain ⟨uriExt,argsStart,complexUri,quotedUri,plusInUri,hrest⟩ := lineLoop_behindSlash l (b := b)
    (r := { RequestLine.init with requestStart := first, methodEnd := first + l.method.length - 1,
                                  method := methodOf l.method .unknown,
                                  uriStart := first + l.method.length + 1 + l.blanks,
                                  state := .afterSlashInUri })
    (p := first + l.method.length + 1 + l.blanks + 1) rfl rfl (by omega) rest
  exact ⟨first,_,_,_,_,⟨hfirst,rfl,rfl,rfl,rfl⟩,uriExt,argsStart,complexUri,quotedUri,plusInUri,hrest⟩

section Places
variable {l} {first uri uriEnd protocol last : Int} (h : l.Places b.start first uri uriEnd protocol last)
include h

theorem LineText.Places.line_length : last = first + l.line.length := by
  obtain ⟨-,huri,huriEnd,hprotocol,hlast⟩ := h
  rw [LineText.line,LineText.target]
  simp only [List.length_append,List.length_replicate,List.length_cons]
  push_cast
  omega

theorem LineText.Places.behind : last + l.lineEnd.length = b.start + l.text.length := by
  have hline := h.line_length
  have hfirst := h.first_eq
  rw [LineText.text,List.length_append,List.length_append]
  push_cast
  omega

variable (hdata : b.data = l.text ++ rest)
include hdata

theorem LineText.Places.line_text : b.text first last = l.line := by
  refine text_part (x := l.ahead) (z := l.lineEnd ++ rest) ?_ h.first_eq h.line_length
  rw [hdata,LineText.text,List.append_assoc,List.append_assoc]

theorem LineText.Places.target_text : b.text uri uriEnd = l.target ∧
    b.text uri last = l.target ++ (List.replicate (l.blanksBehind + 1) 32 ++ l.protocol) := by
  have hsplit : b.data = l.ahead ++ l.method ++ List.replicate (l.blanks + 1) 32 ++
      (l.target ++ (List.replicate (l.blanksBehind + 1) 32 ++ l.protocol ++ l.lineEnd ++ rest)) := by
    rw [hdata,LineText.text,LineText.line]
    simp only [List.append_assoc]
  have hfirst := h.first_eq
  have hline := h.line_length
  obtain ⟨-,huri,huriEnd,-,-⟩ := h
  have hplace : uri = b.start + (l.ahead ++ l.method ++ List.replicate (l.blanks + 1) 32).length := by
    simp only [List.length_append,List.length_replicate]
    push_cast
    omega
  refine ⟨text_part hsplit hplace ?_,text_part (z := l.lineEnd ++ rest) ?_ hplace ?_⟩
  · rw [LineText.target,← addr_cons,huriEnd]
  · simp only [hsplit,List.append_assoc]
  · rw [hline,LineText.line]
    simp only [List.length_append,List.length_replicate]
    push_cast
    omega

theorem LineText.Places.protocol_text : b.text protocol last = l.protocol := by
  have hsplit : b.data = l.ahead ++ l.method ++ List.replicate (l.blanks + 1) 32 ++ l.target ++
      List.replicate (l.blanksBehind + 1) 32 ++ (l.protocol ++ (l.lineEnd ++ rest)) := by
    rw [hdata,LineText.text,LineText.line]
    simp only [List.append_assoc]
  obtain ⟨hfirst,huri,huriEnd,hprotocol,hlast⟩ := h
  refine text_part hsplit ?_ hlast
  rw [LineText.target]
  simp only [List.length_append,List.length_replicate,List.length_cons]
  push_cast
  omega

end Places

theorem LineText.refused (hstart : 0 < b.start) (hdata : b.data = l.text ++ rest)
    (hrefused : l.httpVersion = 9 ∧ methodOf l.method .unknown ≠ .get) : readLine b = .error .invalid09Method := by
  obtain ⟨first,uri,uriEnd,protocol,last,-,uriExt,argsStart,complexUri,quotedUri,plusInUri,hread⟩ :=
    readLine_text l hstart hdata
  rw [hread,if_pos hrefused]

theorem LineText.readAs (hstart : 0 < b.start) (hdata : b.data = l.text ++ rest)
    (haccepted : ¬ (l.httpVersion = 9 ∧ methodOf l.method .unknown ≠ .get)) :
    ∃ r, readLine b = .ok r (b.start + l.text.length) ∧ l.ReadAs b r := by
  obtain ⟨first,uri,uriEnd,protocol,last,hplaces,uriExt,argsStart,complexUri,quotedUri,plusInUri,hread⟩ :=
    readLine_text l hstart hdata
  have hmethod : b.text first (first + l.method.length - 1 + 1) = l.method := by
    rw [sub_add_cancel,LineText.method_text hdata hplaces.first_eq]
  rw [hread,if_neg haccepted,hplaces.behind]
  exact ⟨_,rfl,hplaces.line_text hdata,hmethod,rfl,(hplaces.target_text hdata).1,(hplaces.target_text hdata).2,
    hplaces.protocol_text hdata,rfl,rfl,rfl,rfl,rfl⟩

/-- A line that is written so is accepted and read back as it was written; only a
version that overflows to 0.9 makes the server refuse another method than `GET`. -/
theorem request_line_round_trip (hstart : 0 < b.start) (hdata : b.data = l.text ++ rest) :
    if l.httpVersion = 9 ∧ methodOf l.method .unknown ≠ .get then readLine b = .error .invalid09Method
    else ∃ r, readLine b = .ok r (b.start + l.text.length) ∧ l.ReadAs b r := by
  split_ifs with hrefused
  · exact l.refused hstart hdata hrefused
  · exact l.readAs hstart hdata hrefused

end RoundTrip

/-- `HEAD /v HTTP/1.1` behind an empty line, with two blanks behind the method. -/
def sampleText : LineText where
  ahead := [13,10]
  method := [72,69,65,68]
  blanks := 1
  path := [118]
  blanksBehind := 0
  major := 49
  majors := []
  minor := 49
  minors := []
  blanksAfter := 0
  cr := true
  ahead_ends := by simp
  method_ne := by decide
  method_bytes := List.all_eq_true.mp (by decide)
  path_bytes := List.all_eq_true.mp (by decide)
  major_digit := by decide
  majors_digits := List.all_eq_true.mp (by decide)
  minor_digit := by decide
  minors_digits := List.all_eq_true.mp (by decide)

theorem request_line_round_trip_sample :
    ¬ (sampleText.httpVersion = 9 ∧ methodOf sampleText.method .unknown ≠ .get) ∧
    ∃ r, readLine ⟨64,sampleText.text ++ [88],32⟩ = .ok r (64 + sampleText.text.length) ∧
      sampleText.ReadAs ⟨64,sampleText.text ++ [88],32⟩ r := by
  have haccepted : ¬ (sampleText.httpVersion = 9 ∧ methodOf sampleText.method .unknown ≠ .get) := by decide
  have htrip := request_line_round_trip sampleText (b := ⟨64,sampleText.text ++ [88],32⟩) (by decide) rfl
  rw [if_neg haccepted] at htrip
  exact ⟨haccepted,htrip⟩

end Aret.Http
