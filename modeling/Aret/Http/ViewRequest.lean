import Aret.Http.BufferBounds
import Aret.Http.HeaderArrival
import Aret.Http.LineText
import Aret.Http.RecommendedLink

/-! A recommended link on its way back to the view handler: the request line a client
writes for it, read in pieces, parsed, and handed on through `r->args.data`. -/
namespace Aret.Http
open Lib Tera Engine

/-- The pointer `p` at the label `args` of the complex parse, as an offset. -/
def complexArgsAt (mergeSlashes : Bool) : SwState → Bytes → UriBuf → Option Nat
  | _,[],_ => none
  | state,ch :: rest,b =>
    match uriTurn mergeSlashes state ch b with
    | .go state b => (complexArgsAt mergeSlashes state rest b).map (· + 1)
    | .args _ => some 1
    | .done _ => none
    | .invalid => none

/-- `args_start` once `ngx_http_process_request_uri` is done with the uri, as an offset
into the header buffer; the complex parse clears it first. -/
def RequestLine.argsOffset (mergeSlashes : Bool) (b : HeaderIn) (r : RequestLine) : Option Nat :=
  if r.complexUri || r.quotedUri then
    (complexArgsAt mergeSlashes (.plain .usual) (b.text r.uriStart r.uriEnd) ⟨[],none,r.plusInUri,r.quotedUri⟩).map
      fun n => (r.uriStart - b.start).toNat + n
  else if r.argsStart ≠ 0 then some (r.argsStart - b.start).toNat else none

/-- The request as the handlers get it; `beyond` is what the memory holds behind the
bytes received. -/
def RequestLine.request (mergeSlashes : Bool) (b : HeaderIn) (r : RequestLine) (beyond : Bytes) : Request :=
  ⟨r.method,b.data ++ beyond,r.argsOffset mergeSlashes b,(r.uriEnd - b.start).toNat,r.complexUri || r.quotedUri⟩

/-- The query the complex parse keeps runs from that pointer up to a fragment. -/
theorem complexUriLoop_query {mergeSlashes : Bool} {state : SwState} {raw : Bytes} {b : UriBuf} {u : ParsedUri}
    (h : complexUriLoop mergeSlashes state raw b = some u) :
    (u.args.orElse fun _ => u.argsStart) =
      (complexArgsAt mergeSlashes state raw b).map fun n => (raw.drop n).takeWhile (· ≠ 35) := by
  induction raw generalizing state b with
  | nil =>
    obtain rfl := Option.some.inj h
    rfl
  | cons ch raw ih =>
    rw [complexUriLoop] at h
    rw [complexArgsAt]
    cases hturn : uriTurn mergeSlashes state ch b with
    | go state b =>
      rw [hturn] at h
      rw [ih h,Option.map_map]
      rfl
    | args b =>
      rw [hturn] at h
      obtain rfl := Option.some.inj h
      rw [uriArgs]
      split_ifs with hfragment
      · rfl
      · have hnone : raw.takeWhile (· ≠ 35) = raw := by
          rw [List.takeWhile_eq_self_iff]
          intro c hc
          have hne : c ≠ 35 := fun he => hfragment (by simpa [he] using hc)
          simpa using hne
        exact congrArg some hnone.symm
    | done b =>
      rw [hturn] at h
      obtain rfl := Option.some.inj h
      rfl
    | invalid => simp [hturn] at h

theorem complexArgsAt_pos {mergeSlashes : Bool} {state : SwState} {raw : Bytes} {b : UriBuf} {n : Nat}
    (h : complexArgsAt mergeSlashes state raw b = some n) : 0 < n := by
  cases raw with
  | nil => cases h
  | cons ch raw =>
    rw [complexArgsAt] at h
    cases hturn : uriTurn mergeSlashes state ch b with
    | go state b =>
      rw [hturn] at h
      obtain ⟨k,-,rfl⟩ := Option.map_eq_some_iff.mp h
      exact Nat.succ_pos k
    | args b =>
      rw [hturn] at h
      exact Option.some.inj h ▸ Nat.one_pos
    | done b => simp [hturn] at h
    | invalid => simp [hturn] at h

section Args
variable {b : HeaderIn} {r : RequestLine} {s : UriScan}

/-- What the handlers find at `r->args.data`, up to `r->args.len`. -/
theorem processRequestUri_args (hnull : 0 < b.start) (h : ScannedTo b r r.uriEnd s) {mergeSlashes : Bool} {t : Target}
    (ht : processRequestUri mergeSlashes b r = some t) :
    t.args = ((r.argsOffset mergeSlashes b).map
      fun k : Nat => (b.text (b.start + k) r.uriEnd).takeWhile (· ≠ 35)).getD [] := by
  have hstart := h.start_le
  by_cases hcomplex : r.complexUri || r.quotedUri
  · rw [processRequestUri,if_pos hcomplex] at ht
    obtain ⟨u,hu,rfl⟩ := Option.map_eq_some_iff.mp ht
    have hat : (fun n => ((b.text r.uriStart r.uriEnd).drop n).takeWhile (· ≠ 35)) =
        (fun k : Nat => (b.text (b.start + k) r.uriEnd).takeWhile (· ≠ 35)) ∘
          fun n => (r.uriStart - b.start).toNat + n := by
      funext n
      have hplace : b.start + (((r.uriStart - b.start).toNat + n : Nat) : Int) = r.uriStart + n := by omega
      rw [text_drop hstart,Function.comp_apply,hplace]
    rw [RequestLine.argsOffset,if_pos hcomplex,ParsedUri.target,complexUriLoop_query hu,Option.map_map,hat]
  · rw [processRequestUri,if_neg hcomplex] at ht
    obtain rfl := Option.some.inj ht
    simp only [Bool.or_eq_true,not_or,Bool.not_eq_true] at hcomplex
    have hplain : PlainUri (b.text r.uriStart r.uriEnd) s := by
      obtain ⟨rest,hrest⟩ := h.slash
      exact parseUri_plain (by simp [hrest]) h.parse ⟨h.known.complexUri ▸ hcomplex.1,h.known.quotedUri ▸ hcomplex.2⟩
    have hargs := h.known.argsStart
    have hlen := h.text_length
    simp only [RequestLine.argsOffset,hcomplex.1,hcomplex.2,Bool.or_false,Bool.false_eq_true,if_false]
    generalize hraw : b.text r.uriStart r.uriEnd = raw at hplain hlen
    cases hplain with
    | path _ hnone _ =>
      rw [hnone,addr_none] at hargs
      simp [hargs]
    | @query path args s _ hsome _ hfragment =>
      rw [hsome,addr_some] at hargs
      have hset : r.argsStart ≠ 0 := by omega
      have hplace : b.start + ((r.argsStart - b.start).toNat : Int) = r.argsStart := by omega
      have hquery : b.text r.argsStart r.uriEnd = args := by
        rw [hargs,← text_drop hstart,hraw]
        simp
      have hkept : args.takeWhile (· ≠ 35) = args := by
        rw [List.takeWhile_eq_self_iff]
        exact fun c hc => decide_eq_true fun he => hfragment (he ▸ hc)
      rw [if_pos hset,Option.map_some,Option.getD_some,hplace,hquery,hkept]
      split_ifs with hlt
      · rfl
      · rw [← hquery,HeaderIn.text,show (r.uriEnd - r.argsStart).toNat = 0 by omega,List.take_zero]

/-- The query starts behind the first byte of the uri. -/
theorem lt_argsOffset (h : ScannedTo b r r.uriEnd s) {mergeSlashes : Bool} {k : Nat}
    (hk : r.argsOffset mergeSlashes b = some k) : r.uriStart < b.start + k := by
  have hstart := h.start_le
  rw [RequestLine.argsOffset] at hk
  split_ifs at hk with hcomplex hset
  · obtain ⟨n,hn,rfl⟩ := Option.map_eq_some_iff.mp hk
    have hpos := complexArgsAt_pos hn
    omega
  · have hargs := h.known.argsStart
    obtain rfl := Option.some.inj hk
    cases hquery : s.argsStart with
    | none =>
      rw [hquery,addr_none] at hargs
      exact absurd hargs hset
    | some n =>
      obtain ⟨path,args,-,rfl⟩ := parseUri_args h.parse hquery
      rw [hquery,addr_some] at hargs
      omega

end Args

/-- The states before the uri, in which `uri_end` is not set yet. -/
def isBeforeUri : LineState → Bool
  | .start | .method | .spacesBeforeUri | .schema | .schemaSlash | .schemaSlashSlash | .hostStart | .host | .hostEnd
  | .hostIpLiteral | .port => true
  | _ => false

/-- Behind the uri stands a blank or the end of the line, unless it is the slash of a
schema, which stands for the path of a bare host. -/
def UriEnds (b : HeaderIn) (r : RequestLine) : Prop :=
  r.uriEnd = 0 ∨ isBeforeUri r.state = false ∧
    (r.uriEnd = r.uriStart + 1 ∨ ∃ ch ∈ ([32,13,10] : Bytes), b.At r.uriEnd ch)

def LineTurn.Ends (b : HeaderIn) : LineTurn → Prop
  | .go r => UriEnds b r
  | .done r => UriEnds b r
  | .error _ => True

section Ends
variable {b : HeaderIn} {r r' : RequestLine} {p : Int} {ch : UInt8}

theorem UriEnds.keep (h : UriEnds b r) (huriEnd : r'.uriEnd = r.uriEnd) (huriStart : r'.uriStart = r.uriStart)
    (hstate : isBeforeUri r.state = false → isBeforeUri r'.state = false) : UriEnds b r' := by
  rcases h with h | ⟨h,hend⟩
  · exact .inl (huriEnd.trans h)
  · exact .inr ⟨hstate h,by rwa [huriEnd,huriStart]⟩

theorem UriEnds.before (h : UriEnds b r) (hr : isBeforeUri r.state = true) : r.uriEnd = 0 := by
  rcases h with h | ⟨h,-⟩
  · exact h
  · rw [hr] at h
    cases h

theorem lineEnd09_ends (h : UriEnds b r) {otherwise : LineTurn} (hotherwise : otherwise.Ends b) :
    (lineEnd09 r ch otherwise).Ends b := by
  unfold lineEnd09
  split_ifs
  · exact h.keep rfl rfl fun _ => rfl
  · exact h.keep rfl rfl fun hr => hr
  · exact hotherwise

theorem uriEndTurn_ends (hp : b.At p ch) (hr : isBeforeUri r.state = false) {behind : LineState}
    (hbehind : isBeforeUri behind = false) {otherwise : LineTurn} (hotherwise : otherwise.Ends b) :
    (uriEndTurn r p ch behind otherwise).Ends b := by
  unfold uriEndTurn
  split_ifs with hblank hend
  · subst hblank
    exact .inr ⟨hbehind,.inr ⟨32,by decide,hp⟩⟩
  · refine lineEnd09_ends (r := { r with uriEnd := p }) (.inr ⟨hr,.inr ⟨ch,?_,hp⟩⟩) hotherwise
    rcases hend with rfl | rfl <;> decide
  · trivial
  · exact hotherwise

theorem afterSlashTurn_ends (h : UriEnds b r) (hp : b.At p ch) (hr : r.state = .afterSlashInUri) :
    (afterSlashTurn r p ch).Ends b := by
  have hbefore : isBeforeUri r.state = false := by rw [hr]; rfl
  unfold afterSlashTurn
  split_ifs
  all_goals first
    | exact h.keep rfl rfl fun _ => rfl
    | exact uriEndTurn_ends hp hbefore rfl (h.keep rfl rfl fun h => by first | rfl | exact h)

theorem checkUriTurn_ends (h : UriEnds b r) (hp : b.At p ch) (hr : r.state = .checkUri) :
    (checkUriTurn r p ch).Ends b := by
  have hbefore : isBeforeUri r.state = false := by rw [hr]; rfl
  unfold checkUriTurn
  split_ifs
  all_goals first
    | exact h
    | exact uriEndTurn_ends hp hbefore rfl (h.keep rfl rfl fun h => by first | rfl | exact h)

theorem uriByteTurn_ends (h : UriEnds b r) (hp : b.At p ch) (hr : r.state = .uri) :
    (uriByteTurn r p ch).Ends b := by
  have hbefore : isBeforeUri r.state = false := by rw [hr]; rfl
  unfold uriByteTurn
  split_ifs
  all_goals first
    | exact h
    | exact uriEndTurn_ends hp hbefore rfl (h.keep rfl rfl fun h => h)

theorem behindUriTurn_ends (h : UriEnds b r) {again : LineTurn} (hagain : again.Ends b) :
    (behindUriTurn r p ch again).Ends b := by
  unfold behindUriTurn
  split_ifs
  · exact h
  · exact lineEnd09_ends h (h.keep rfl rfl fun _ => rfl)
  · exact lineEnd09_ends h hagain

theorem hostEndTurn_ends (h : UriEnds b r) (hr : isBeforeUri r.state = true) : (hostEndTurn r p ch).Ends b := by
  have hzero := h.before hr
  unfold hostEndTurn
  split_ifs
  · exact .inl hzero
  · exact .inl hzero
  · exact .inr ⟨rfl,.inl (by simp only; omega)⟩
  · trivial

theorem hostTurn_ends (h : UriEnds b r) (hr : isBeforeUri r.state = true) : (hostTurn r p ch).Ends b := by
  unfold hostTurn
  split_ifs
  · exact h
  · exact hostEndTurn_ends h hr

theorem expectTurn_ends (h : UriEnds b r) {expected : UInt8} {state : LineState}
    (hstate : isBeforeUri r.state = false → isBeforeUri state = false) : (expectTurn r ch expected state).Ends b := by
  unfold expectTurn
  split_ifs
  · exact h.keep rfl rfl hstate
  · trivial

theorem lineTurn_ends (h : UriEnds b r) (hp : b.At p ch) (m : Bytes) : (lineTurn m r p ch).Ends b := by
  have hzero : isBeforeUri r.state = true → r.uriEnd = 0 := h.before
  cases hr : r.state with
  | hostStart =>
    simp only [lineTurn,hr]
    split_ifs
    · exact .inl (hzero (by rw [hr]; rfl))
    · exact hostTurn_ends (.inl (hzero (by rw [hr]; rfl))) rfl
  | host => simpa only [lineTurn,hr] using hostTurn_ends h (by rw [hr]; rfl)
  | hostEnd => simpa only [lineTurn,hr] using hostEndTurn_ends h (by rw [hr]; rfl)
  | hostHttp09 =>
    simp only [lineTurn,hr]
    exact behindUriTurn_ends h trivial
  | afterSlashInUri => simpa only [lineTurn,hr] using afterSlashTurn_ends h hp hr
  | checkUri => simpa only [lineTurn,hr] using checkUriTurn_ends h hp hr
  | uri => simpa only [lineTurn,hr] using uriByteTurn_ends h hp hr
  | checkUriHttp09 =>
    simp only [lineTurn,hr]
    exact behindUriTurn_ends h (checkUriTurn_ends (h.keep rfl rfl fun _ => rfl) hp rfl)
  | http09 =>
    simp only [lineTurn,hr]
    exact behindUriTurn_ends h (uriByteTurn_ends (h.keep rfl rfl fun _ => rfl) hp rfl)
  | schemaSlash | schemaSlashSlash | httpH | httpHT | httpHTT | httpHTTP =>
    simp only [lineTurn,hr]
    exact expectTurn_ends h (by rw [hr]; simp [isBeforeUri])
  | port =>
    simp only [lineTurn,hr]
    have hport := hzero (by rw [hr]; rfl)
    split_ifs
    · exact h
    · exact .inl hport
    · exact .inr ⟨rfl,.inl (by simp only; omega)⟩
    · trivial
  | _ =>
    simp only [lineTurn,hr]
    split_ifs
    all_goals first
      | trivial
      | exact h
      | exact .inl (hzero (by rw [hr]; rfl))
      | exact h.keep rfl rfl fun _ => rfl

theorem readLine_ends {pos : Int} (hline : readLine b = .ok r pos) :
    r.uriEnd = 0 ∨ r.uriEnd = r.uriStart + 1 ∨ ∃ ch ∈ ([32,13,10] : Bytes), b.At r.uriEnd ch := by
  have hends {r : RequestLine} {p : Int} {ch : UInt8} {turn : LineTurn} (h : UriEnds b r) (hp : b.At p ch)
      (hturn : lineTurn (b.text r.requestStart p) r p ch = turn) : turn.Ends b :=
    hturn ▸ lineTurn_ends h hp _
  obtain ⟨last,requestEnd,h,rfl⟩ := lineLoop_rule (I := fun r _ => UriEnds b r) (Q := UriEnds b) hends hends
    (.inl rfl : UriEnds b .init) le_rfl rfl hline
  exact h.imp_right And.right

end Ends

/-- What the handlers find at `r->args.data` of any accepted request: the query, and behind
it a fragment, a blank or the end of the line. -/
theorem request_args_memory {b : HeaderIn} (hnull : 0 < b.start) {r : RequestLine} {pos : Int}
    (hline : readLine b = .ok r pos) {mergeSlashes : Bool} {t : Target}
    (ht : processRequestUri mergeSlashes b r = some t)
    (beyond : Bytes) :
    match (r.request mergeSlashes b beyond).args with
    | none => t.args = []
    | some memory => ∃ X, memory = t.args ++ X ∧ Behind X := by
  obtain ⟨s,hs⟩ := readLine_scanned hnull hline
  have hargs := processRequestUri_args hnull hs ht
  rw [Request.args_eq,RequestLine.request]
  simp only
  cases hoffset : r.argsOffset mergeSlashes b with
  | none =>
    rw [hoffset] at hargs
    exact hargs
  | some k =>
    rw [hoffset,Option.map_some,Option.getD_some] at hargs
    have hlt := lt_argsOffset hs hoffset
    have hstart := hs.start_le
    have hfits := hs.fits
    rw [Option.bind_some]
    split_ifs with hquery
    · have hdrop : (b.data ++ beyond).drop k = b.text (b.start + k) r.uriEnd ++
          (b.data.drop (r.uriEnd - b.start).toNat ++ beyond) := by
        rw [List.drop_append_of_le_length (by omega),← List.append_assoc,HeaderIn.text,
          show (b.start + k - b.start).toNat = k by omega,
          show (r.uriEnd - b.start).toNat = k + (r.uriEnd - (b.start + k)).toNat by omega,← List.drop_drop,
          List.take_append_drop]
      refine ⟨(b.text (b.start + k) r.uriEnd).dropWhile (· ≠ 35) ++ (b.data.drop (r.uriEnd - b.start).toNat ++ beyond),
        ?_,?_⟩
      · rw [hargs,← List.append_assoc,List.takeWhile_append_dropWhile,hdrop]
      · cases hfragment : (b.text (b.start + k) r.uriEnd).dropWhile (· ≠ 35) with
        | nil =>
          obtain hend | hend | ⟨ch,hch,hat⟩ := readLine_ends hline
          · omega
          · omega
          · have hhead : (b.data.drop (r.uriEnd - b.start).toNat).head? = some ch := by
              rw [List.head?_drop]
              exact hat.2
            obtain ⟨more,hmore⟩ := List.head?_eq_some_iff.mp hhead
            exact ⟨ch,more ++ beyond,by rw [hmore]; rfl,List.mem_append_left [35] hch⟩
        | cons ch more =>
          have hch : ch = 35 := by
            have hnot := List.head?_dropWhile_not (fun c => decide (c ≠ 35)) (b.text (b.start + k) r.uriEnd)
            rw [hfragment] at hnot
            simpa using hnot
          exact ⟨35,_,by rw [hch]; rfl,by decide⟩
    · rw [hargs,HeaderIn.text,show (r.uriEnd - (b.start + k)).toNat = 0 by omega,List.take_zero]
      rfl

theorem request_args_memory_sample :
    readLine sampleLine = .ok sampleRequest 80 ∧ processRequestUri true sampleLine sampleRequest = some sampleTarget ∧
    ∃ X, [100,10] = sampleTarget.args ++ X ∧ Behind X := by
  have hline : readLine sampleLine = .ok sampleRequest 80 := by decide +kernel
  have htarget : processRequestUri true sampleLine sampleRequest = some sampleTarget := by decide +kernel
  have hmemory : (sampleRequest.request true sampleLine []).args = some [100,10] := by decide +kernel
  have hargs := request_args_memory (by decide) hline htarget []
  rw [hmemory] at hargs
  exact ⟨hline,htarget,hargs⟩

/-- Behind the question mark the scan only looks for a fragment. -/
theorem scanLoop_query {s : UriScan} (hs : s.state = .uri) {query : Bytes} (hquery : 32 ∉ query) (n : Nat) :
    scanLoop s n query = some { s with complexUri := s.complexUri || query.contains 35 } := by
  induction query generalizing s n with
  | nil => simp [scanLoop]
  | cons ch query ih =>
    have hblank : ch ≠ 32 := fun he => hquery (he ▸ List.mem_cons_self)
    have hrest : 32 ∉ query := fun hmem => hquery (List.mem_cons_of_mem ch hmem)
    have hturn : scanTurn s n ch = some { s with complexUri := s.complexUri || ch == 35 } := by
      by_cases hfragment : ch = 35
      · subst hfragment
        simp [scanTurn,hs,usual_special]
      · have hne : (ch == 35) = false := by simpa using hfragment
        have hstay : scanTurn s n ch = some s := by simp [scanTurn,hs,hfragment,hblank]
        rw [hstay,hne,Bool.or_false]
    rw [scanLoop,hturn,Option.bind_some,ih (by exact hs) hrest,List.contains_cons,Bool.or_assoc,BEq.comm]

theorem parseUri_view {query : Bytes} (hquery : 32 ∉ query) :
    parseUri (bytes "/view?" ++ query) = some ⟨.uri,none,some 6,query.contains 35,false,false,false⟩ := by
  have hview : scanLoop .init 0 (bytes "/view?") = some ⟨.uri,none,some 6,false,false,false,false⟩ := by decide
  rw [parseUri,scanLoop_append,hview,Option.bind_some,scanLoop_query rfl hquery,Bool.false_or]

theorem ScannedTo.view {b : HeaderIn} {r : RequestLine} {u : UriScan} (h : ScannedTo b r r.uriEnd u) {query : Bytes}
    (hraw : b.text r.uriStart r.uriEnd = bytes "/view?" ++ query) (hquery : 32 ∉ query) :
    r.argsStart = r.uriStart + 6 ∧ r.complexUri = query.contains 35 ∧ r.quotedUri = false ∧ r.plusInUri = false := by
  obtain rfl : u = ⟨.uri,none,some 6,query.contains 35,false,false,false⟩ := by
    have hscan := h.parse
    rw [hraw,parseUri_view hquery] at hscan
    exact (Option.some.inj hscan).symm
  obtain ⟨-,hargs,hcomplex,hquoted,hplus,-⟩ := h.known
  exact ⟨hargs,hcomplex,hquoted,hplus⟩

theorem uriRun_view (mergeSlashes : Bool) :
    uriRun mergeSlashes (.plain .usual) (bytes "/view") ⟨[],none,false,false⟩ =
      some (.plain .usual,⟨(bytes "/view").reverse,none,false,false⟩) := by
  cases mergeSlashes <;> decide

theorem parseComplexUri_view (mergeSlashes : Bool) (query : Bytes) :
    parseComplexUri mergeSlashes (bytes "/view?" ++ query) false false =
      some (uriArgs ⟨(bytes "/view").reverse,none,false,false⟩ query) ∧
    complexArgsAt mergeSlashes (.plain .usual) (bytes "/view?" ++ query) ⟨[],none,false,false⟩ = some 6 := by
  refine ⟨?_,?_⟩
  · rw [parseComplexUri,show bytes "/view?" ++ query = bytes "/view" ++ 63 :: query from rfl,
      complexUriLoop_append (uriRun_view mergeSlashes)]
    rfl
  · cases mergeSlashes <;> rfl

section Viewed
variable {b : HeaderIn} {r : RequestLine} {query behind : Bytes}

/-- The request for a view, read from a buffer in which its uri is followed by a blank. -/
structure ViewLine (b : HeaderIn) (r : RequestLine) (query behind : Bytes) : Prop where
  start_le : b.start ≤ r.uriStart
  text : b.data.drop (r.uriStart - b.start).toNat = bytes "/view?" ++ (query ++ 32 :: behind)
  uriEnd : r.uriEnd = r.uriStart + (6 + query.length : Nat)
  argsStart : r.argsStart = r.uriStart + 6
  argsStart_ne : r.argsStart ≠ 0
  complexUri : r.complexUri = query.contains 35
  quotedUri : r.quotedUri = false
  plusInUri : r.plusInUri = false

theorem ViewLine.raw (h : ViewLine b r query behind) : b.text r.uriStart r.uriEnd = bytes "/view?" ++ query := by
  have hlength : (r.uriEnd - r.uriStart).toNat = (bytes "/view?" ++ query).length := by
    rw [h.uriEnd,List.length_append]
    simp [bytes]
    omega
  rw [HeaderIn.text,h.text,hlength,← List.append_assoc,List.take_left]

theorem ViewLine.argsOffset (h : ViewLine b r query behind) (mergeSlashes : Bool) :
    r.argsOffset mergeSlashes b = some ((r.uriStart - b.start).toNat + 6) := by
  have hstart := h.start_le
  have hargs := h.argsStart
  rw [RequestLine.argsOffset,h.raw,h.quotedUri,h.plusInUri,(parseComplexUri_view mergeSlashes query).2]
  split_ifs with hcomplex hset
  · rfl
  · rw [hargs]
    congr 1
    omega
  · exact absurd h.argsStart_ne hset

theorem ViewLine.args (h : ViewLine b r query behind) (hne : query ≠ []) (mergeSlashes : Bool)
    (beyond : Bytes) : (r.request mergeSlashes b beyond).args = some (query ++ 32 :: (behind ++ beyond)) := by
  have hstart := h.start_le
  have huriEnd := h.uriEnd
  have hpos := List.length_pos_of_ne_nil hne
  have hlt : (r.uriStart - b.start).toNat + 6 < (r.uriEnd - b.start).toNat := by omega
  rw [Request.args_eq,RequestLine.request,h.argsOffset]
  simp only [Option.bind_some,if_pos hlt]
  have hlong : (r.uriStart - b.start).toNat + 6 ≤ b.data.length := by
    have hlength := congrArg List.length h.text
    rw [List.length_drop,List.length_append] at hlength
    simp [bytes] at hlength
    omega
  rw [List.drop_append_of_le_length hlong,← List.drop_drop,h.text,show (6 : Nat) = (bytes "/view?").length from rfl,
    List.drop_left,List.append_assoc,List.cons_append]

end Viewed

/-- `GET /view?url=a HTTP/1.1`. -/
def sampleView : LineText :=
  { sampleText with
    ahead := []
    method := [71,69,84]
    blanks := 0
    path := bytes "view?url=a"
    ahead_ends := by simp
    method_ne := by decide
    method_bytes := List.all_eq_true.mp (by decide)
    path_bytes := List.all_eq_true.mp (by decide) }

end Aret.Http
