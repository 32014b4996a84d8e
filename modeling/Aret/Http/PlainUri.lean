import Aret.Http.RequestLine
import Aret.Http.UriSegments

/-! A uri in which the scan has met neither an escape, nor a fragment, nor a name
that starts with a dot, nor two slashes in a row is taken as it stands. The parse
of a complex uri would have given the same. -/
namespace Aret.Http
open Lib

/-- The turns of the complex parse over some bytes, as long as it goes on. -/
def uriRun (mergeSlashes : Bool) : SwState → Bytes → UriBuf → Option (SwState × UriBuf)
  | state,[],b => some (state,b)
  | state,ch :: rest,b =>
    match uriTurn mergeSlashes state ch b with
    | .go state b => uriRun mergeSlashes state rest b
    | _ => none

theorem uriRun_append (mergeSlashes : Bool) (state : SwState) (s t : Bytes) (b : UriBuf) :
    uriRun mergeSlashes state (s ++ t) b =
      (uriRun mergeSlashes state s b).bind fun (state,b) => uriRun mergeSlashes state t b := by
  induction s generalizing state b with
  | nil => rfl
  | cons ch s ih =>
    rw [List.cons_append,uriRun,uriRun]
    cases uriTurn mergeSlashes state ch b with
    | go state b => exact ih state b
    | args b => rfl
    | done b => rfl
    | invalid => rfl

theorem complexUriLoop_append {mergeSlashes : Bool} {state state' : SwState} {s : Bytes} {b b' : UriBuf}
    (hrun : uriRun mergeSlashes state s b = some (state',b')) (t : Bytes) :
    complexUriLoop mergeSlashes state (s ++ t) b = complexUriLoop mergeSlashes state' t b' := by
  induction s generalizing state b with
  | nil =>
    obtain ⟨rfl,rfl⟩ := Prod.mk.inj (Option.some.inj hrun)
    rfl
  | cons ch s ih =>
    rw [uriRun] at hrun
    rw [List.cons_append,complexUriLoop]
    cases hturn : uriTurn mergeSlashes state ch b with
    | go state b =>
      rw [hturn] at hrun
      exact ih hrun
    | args b => simp [hturn] at hrun
    | done b => simp [hturn] at hrun
    | invalid => simp [hturn] at hrun

theorem backToSlash_length {out out' : Bytes} (h : backToSlash out = some out') : out'.length ≤ out.length := by
  have hdrop : ((out.drop 4).dropWhile (· ≠ 47)).length ≤ out.length :=
    (List.length_dropWhile_le _ _).trans (by simp)
  unfold backToSlash at h
  split at h
  · cases h
  · obtain rfl := Option.some.inj h
    exact hdrop

def UriTurn.Grows (b : UriBuf) : UriTurn → Prop
  | .go _ b' => b'.out.length ≤ b.out.length + 1
  | _ => True

theorem plainTurn_grows (mergeSlashes : Bool) (state : UriState) (ch : UInt8) (b : UriBuf) :
    (plainTurn mergeSlashes state ch b).Grows b := by
  have hput (b' : UriBuf) (state : SwState) (hb : b'.out = b.out) : (UriTurn.go state (b'.put ch)).Grows b := by
    simp [UriTurn.Grows,UriBuf.put,hb]
  cases state with
  | usual =>
    simp only [plainTurn]
    split_ifs <;> first | exact hput _ _ rfl | simp [UriTurn.Grows]
  | slash =>
    simp only [plainTurn]
    split_ifs <;> first | exact hput _ _ rfl | simp [UriTurn.Grows]
  | dot =>
    have htail : b.out.tail.length ≤ b.out.length + 1 := by
      rw [List.length_tail]
      omega
    simp only [plainTurn]
    split_ifs <;> first | exact hput _ _ rfl | exact htail | simp [UriTurn.Grows]
  | dotDot =>
    simp only [plainTurn]
    cases hback : backToSlash b.out with
    | none => split_ifs <;> first | exact hput _ _ rfl | simp [UriTurn.Grows]
    | some out =>
      have hlen : out.length ≤ b.out.length + 1 := (backToSlash_length hback).trans (Nat.le_succ _)
      split_ifs <;> first | exact hput _ _ rfl | exact hlen | simp [UriTurn.Grows]

theorem uriTurn_grows (mergeSlashes : Bool) (state : SwState) (ch : UInt8) (b : UriBuf) :
    (uriTurn mergeSlashes state ch b).Grows b := by
  cases state with
  | plain state => exact plainTurn_grows mergeSlashes state ch b
  | quoted state =>
    simp only [uriTurn]
    split_ifs <;> simp [UriTurn.Grows]
  | quotedSecond state decoded =>
    have hplus (ch : UInt8) := plainTurn_grows mergeSlashes state ch { b with plusInUri := true }
    simp only [uriTurn]
    split_ifs <;> first | exact plainTurn_grows mergeSlashes state _ b | exact hplus _ | simp [UriTurn.Grows,UriBuf.put]

/-- A question mark of the text ends the run, also within an escape. -/
theorem uriRun_query (mergeSlashes : Bool) (state : SwState) (s t : Bytes) (b : UriBuf) :
    uriRun mergeSlashes state (s ++ 63 :: t) b = none := by
  rw [uriRun_append]
  cases uriRun mergeSlashes state s b with
  | none => rfl
  | some next =>
    obtain ⟨state,b⟩ := next
    cases state with
    | plain state => cases state <;> rfl
    | quoted state => rfl
    | quotedSecond state decoded => rfl

theorem uriRun_length {mergeSlashes : Bool} {state state' : SwState} {s : Bytes} {b b' : UriBuf}
    (h : uriRun mergeSlashes state s b = some (state',b')) : b'.out.length ≤ b.out.length + s.length := by
  induction s generalizing state b with
  | nil =>
    obtain ⟨rfl,rfl⟩ := Prod.mk.inj (Option.some.inj h)
    simp
  | cons ch s ih =>
    rw [uriRun] at h
    cases hturn : uriTurn mergeSlashes state ch b with
    | go next b1 =>
      rw [hturn] at h
      have hone := hturn ▸ uriTurn_grows mergeSlashes state ch b
      simp only [UriTurn.Grows] at hone
      have hrest := ih h
      rw [List.length_cons]
      omega
    | args b => simp [hturn] at h
    | done b => simp [hturn] at h
    | invalid => simp [hturn] at h

theorem scanLoop_append (s : UriScan) (n : Nat) (t u : Bytes) :
    scanLoop s n (t ++ u) = (scanLoop s n t).bind fun s => scanLoop s (n + t.length) u := by
  induction t generalizing s n with
  | nil => rfl
  | cons ch t ih =>
    simp only [List.cons_append,scanLoop,Option.bind_assoc,ih,List.length_cons]
    congr 1
    funext s
    rw [Nat.add_right_comm,Nat.add_assoc n]

/-- The complex parse has copied what the scan has read, and stands at the same place. -/
def Copied (path : Bytes) (s : UriScan) : Prop :=
  ∀ mergeSlashes plusInUri, ∃ state,
    uriRun mergeSlashes (.plain .usual) path ⟨[],none,plusInUri,false⟩ =
      some (.plain state,⟨path.reverse,s.uriExt,plusInUri || s.plusInUri,false⟩) ∧
    (s.state = .checkUri → state = .usual)

/-- What a scan that has found nothing complex says of the bytes it has read. -/
inductive PlainUri : Bytes → UriScan → Prop where
  | path {path : Bytes} {s : UriScan} (hpath : Copied path s) (hargs : s.argsStart = none)
    (hstate : s.state = .afterSlashInUri ∨ s.state = .checkUri) : PlainUri path s
  | query {path args : Bytes} {s : UriScan} (hpath : Copied path s) (hargs : s.argsStart = some (path.length + 1))
    (hstate : s.state = .uri) (hfragment : 35 ∉ args) : PlainUri (path ++ 63 :: args) s

theorem Copied.snoc {path : Bytes} {s s' : UriScan} (hpath : Copied path s) {ch : UInt8}
    (hturn : ∀ mergeSlashes plusInUri state, (s.state = .checkUri → state = .usual) →
      ∃ state', uriTurn mergeSlashes (.plain state) ch ⟨path.reverse,s.uriExt,plusInUri || s.plusInUri,false⟩ =
        .go (.plain state') ⟨ch :: path.reverse,s'.uriExt,plusInUri || s'.plusInUri,false⟩ ∧
      (s'.state = .checkUri → state' = .usual)) :
    Copied (path ++ [ch]) s' := by
  intro mergeSlashes plusInUri
  obtain ⟨state,hrun,hstate⟩ := hpath mergeSlashes plusInUri
  obtain ⟨state',hgo,hstate'⟩ := hturn mergeSlashes plusInUri state hstate
  refine ⟨state',?_,hstate'⟩
  rw [uriRun_append,hrun,Option.bind_some,List.reverse_append]
  simp only [uriRun,hgo]
  rfl

/-- A byte that neither the scan nor the complex parse looks at. -/
theorem Copied.name {path : Bytes} {s s' : UriScan} (hpath : Copied path s) {ch : UInt8}
    (hname : ch ∉ ([35,37,46,47,63] : Bytes)) (hext : s'.uriExt = s.uriExt)
    (hplus : s'.plusInUri = (s.plusInUri || ch = 43)) : Copied (path ++ [ch]) s' := by
  refine hpath.snoc fun mergeSlashes plusInUri state _ => ⟨.usual,?_,fun _ => rfl⟩
  rw [uriTurn,plainTurn_name hname,UriBuf.put,hext,hplus,Bool.or_assoc]

theorem scanTurn_path {s s' : UriScan} {n : Nat} {ch : UInt8} (hturn : scanTurn s n ch = some s')
    (hstate : s.state = .afterSlashInUri ∨ s.state = .checkUri) :
    ch ∉ ([35,37,46,47,63] : Bytes) ∧ s'.uriExt = s.uriExt ∧ s'.plusInUri = (s.plusInUri || ch = 43) ∧
      s'.argsStart = s.argsStart ∧ s'.complexUri = s.complexUri ∧ s'.quotedUri = s.quotedUri ∧
      (s'.state = .afterSlashInUri ∨ s'.state = .checkUri) ∨
    ch = 46 ∧ s.state = .checkUri ∧ s' = { s with uriExt := some (n + 1) } ∨
    ch = 47 ∧ s.state = .checkUri ∧ s' = { s with uriExt := none, state := .afterSlashInUri } ∨
    ch = 63 ∧ s' = { s with argsStart := some (n + 1), state := .uri } ∨
    s'.state = .uri ∧ (s'.complexUri = true ∨ s'.quotedUri = true) := by
  have husual (h : usual ch = true) : ch ∉ ([35,37,43,46,47,63] : Bytes) := by
    intro hmem
    simp only [List.mem_cons,List.not_mem_nil,or_false] at hmem
    rcases hmem with rfl | rfl | rfl | rfl | rfl | rfl <;> simp [usual_special] at h
  rcases hstate with hstate | hstate
  · simp only [scanTurn,hstate,Option.some.injEq] at hturn
    split_ifs at hturn <;> subst hturn <;> simp_all
  · simp only [scanTurn,hstate,Option.some.injEq] at hturn
    split_ifs at hturn <;> subst hturn <;> simp_all

/-- Once a query or a complex part is found the scan only looks for a fragment. -/
theorem scanTurn_uri {s s' : UriScan} {n : Nat} {ch : UInt8} (hturn : scanTurn s n ch = some s')
    (hstate : s.state = .uri) :
    s'.uriExt = s.uriExt ∧ s'.plusInUri = s.plusInUri ∧ s'.argsStart = s.argsStart ∧ s'.state = .uri ∧
      s'.quotedUri = s.quotedUri ∧ s'.complexUri = (s.complexUri || ch = 35) := by
  have husual (h : usual ch = true) : ch ≠ 35 := by
    rintro rfl
    simp [usual_special] at h
  simp only [scanTurn,hstate,Option.some.injEq] at hturn
  split_ifs at hturn <;> subst hturn <;> simp_all

theorem PlainUri.snoc {raw : Bytes} {s s' : UriScan} (hraw : PlainUri raw s) {ch : UInt8}
    (hturn : scanTurn s raw.length ch = some s') (hplain : s'.complexUri = false ∧ s'.quotedUri = false) :
    PlainUri (raw ++ [ch]) s' := by
  cases hraw with
  | path hpath hargs hstate =>
    obtain ⟨hname,hext,hplus,hargs',-,-,hstate'⟩ | ⟨rfl,hcheck,rfl⟩ | ⟨rfl,hcheck,rfl⟩ | ⟨rfl,rfl⟩ | ⟨-,hfound⟩ :=
      scanTurn_path hturn hstate
    · exact .path (hpath.name hname hext hplus) (hargs'.trans hargs) hstate'
    · refine .path (hpath.snoc fun mergeSlashes plusInUri state husual => ⟨.usual,?_,fun _ => rfl⟩) hargs hstate
      rw [husual hcheck]
      simp [uriTurn,plainTurn,UriBuf.put,usual_special]
    · refine .path (hpath.snoc fun mergeSlashes plusInUri state husual => ⟨.slash,?_,by simp⟩) hargs (.inl rfl)
      rw [husual hcheck]
      simp [uriTurn,plainTurn,UriBuf.put,usual_special]
    · refine .query (fun mergeSlashes plusInUri => ?_) rfl rfl List.not_mem_nil
      obtain ⟨state,hrun,-⟩ := hpath mergeSlashes plusInUri
      exact ⟨state,hrun,by simp⟩
    · simp [hplain] at hfound
  | @query path args s hpath hargs hstate hfragment =>
    obtain ⟨hext,hplus,hargs',hstate',-,hcomplex⟩ := scanTurn_uri hturn hstate
    have hch : ch ≠ 35 := by
      rintro rfl
      simp [hplain] at hcomplex
    rw [List.append_assoc,List.cons_append]
    refine .query (fun mergeSlashes plusInUri => ?_) (hargs'.trans hargs) hstate' (by simp [hfragment,hch.symm])
    obtain ⟨state,hrun,-⟩ := hpath mergeSlashes plusInUri
    exact ⟨state,by rw [hext,hplus,hrun],by simp [hstate']⟩

theorem scanTurn_flags {s s' : UriScan} {n : Nat} {ch : UInt8} (hturn : scanTurn s n ch = some s')
    (hplain : s'.complexUri = false ∧ s'.quotedUri = false) : s.complexUri = false ∧ s.quotedUri = false := by
  cases hstate : s.state with
  | start =>
    simp only [scanTurn,hstate] at hturn
    split_ifs at hturn
    obtain rfl := Option.some.inj hturn
    exact hplain
  | afterSlashInUri =>
    obtain ⟨-,-,-,-,hcomplex,hquoted,-⟩ | ⟨-,-,rfl⟩ | ⟨-,-,rfl⟩ | ⟨-,rfl⟩ | ⟨-,hfound⟩ :=
      scanTurn_path hturn (.inl hstate)
    · exact ⟨hcomplex ▸ hplain.1,hquoted ▸ hplain.2⟩
    · exact hplain
    · exact hplain
    · exact hplain
    · simp [hplain] at hfound
  | checkUri =>
    obtain ⟨-,-,-,-,hcomplex,hquoted,-⟩ | ⟨-,-,rfl⟩ | ⟨-,-,rfl⟩ | ⟨-,rfl⟩ | ⟨-,hfound⟩ :=
      scanTurn_path hturn (.inr hstate)
    · exact ⟨hcomplex ▸ hplain.1,hquoted ▸ hplain.2⟩
    · exact hplain
    · exact hplain
    · exact hplain
    · simp [hplain] at hfound
  | uri =>
    obtain ⟨-,-,-,-,hquoted,hcomplex⟩ := scanTurn_uri hturn hstate
    rw [hplain.1] at hcomplex
    exact ⟨by simpa using (Bool.or_eq_false_iff.mp hcomplex.symm).1,hquoted ▸ hplain.2⟩

theorem parseUri_args {raw : Bytes} {s : UriScan} {n : Nat} (hscan : parseUri raw = some s)
    (hargs : s.argsStart = some n) : ∃ path args, raw = path ++ 63 :: args ∧ n = path.length + 1 := by
  induction raw using List.reverseRecOn generalizing s with
  | nil =>
    obtain rfl := Option.some.inj hscan
    cases hargs
  | append_singleton raw ch ih =>
    rw [parseUri,scanLoop_append] at hscan
    obtain ⟨t,ht,hlast⟩ := Option.bind_eq_some_iff.mp hscan
    have hturn : scanTurn t raw.length ch = some s := by
      simpa [scanLoop] using hlast
    have hkept : t.argsStart = some n ∨ ch = 63 ∧ n = raw.length + 1 := by
      cases hstate : t.state with
      | start =>
        simp only [scanTurn,hstate] at hturn
        split_ifs at hturn
        obtain rfl := Option.some.inj hturn
        exact .inl hargs
      | afterSlashInUri =>
        simp only [scanTurn,hstate,Option.some.injEq] at hturn
        split_ifs at hturn <;> subst hturn <;> simp_all
      | checkUri =>
        simp only [scanTurn,hstate,Option.some.injEq] at hturn
        split_ifs at hturn <;> subst hturn <;> simp_all
      | uri => exact .inl ((scanTurn_uri hturn hstate).2.2.1 ▸ hargs)
    rcases hkept with hkept | ⟨rfl,rfl⟩
    · obtain ⟨path,args,rfl,rfl⟩ := ih ht hkept
      exact ⟨path,args ++ [ch],by simp,rfl⟩
    · exact ⟨raw,[],rfl,rfl⟩

theorem parseUri_plain {raw : Bytes} (hne : raw ≠ []) {s : UriScan} (hscan : parseUri raw = some s)
    (hplain : s.complexUri = false ∧ s.quotedUri = false) : PlainUri raw s := by
  induction raw using List.reverseRecOn generalizing s with
  | nil => exact absurd rfl hne
  | append_singleton raw ch ih =>
    rw [parseUri,scanLoop_append] at hscan
    obtain ⟨t,ht,hlast⟩ := Option.bind_eq_some_iff.mp hscan
    have hturn : scanTurn t raw.length ch = some s := by
      simpa [scanLoop] using hlast
    by_cases hfirst : raw = []
    · subst hfirst
      obtain rfl := Option.some.inj ht
      simp only [scanTurn,UriScan.init] at hturn
      split_ifs at hturn with hslash
      obtain rfl := Option.some.inj hturn
      subst hslash
      exact .path (fun mergeSlashes plusInUri => ⟨.slash,by simp; rfl,by simp⟩) rfl (.inl rfl)
    · exact (ih hfirst ht (scanTurn_flags hturn hplain)).snoc hturn hplain

/-- Such a uri stands for itself: the complex parse of it gives the path up to the
question mark, what follows the offset `uri_ext` in it, and the query. -/
theorem parseComplexUri_plain {raw : Bytes} (hne : raw ≠ []) {s : UriScan} (hscan : parseUri raw = some s)
    (hplain : s.complexUri = false ∧ s.quotedUri = false) (mergeSlashes : Bool) :
    parseComplexUri mergeSlashes raw s.plusInUri false =
      some ⟨raw.take (s.argsStart.elim raw.length (· - 1)),
        s.uriExt.map fun n => (raw.take (s.argsStart.elim raw.length (· - 1))).drop n,
        s.argsStart.map fun n => raw.drop n,none,s.plusInUri,false⟩ := by
  cases parseUri_plain hne hscan hplain with
  | path hpath hargs hstate =>
    obtain ⟨state,hrun,-⟩ := hpath mergeSlashes s.plusInUri
    have hloop := complexUriLoop_append hrun []
    rw [List.append_nil] at hloop
    rw [parseComplexUri,hloop,hargs]
    simp [complexUriLoop,uriDone]
  | @query path args s hpath hargs hstate hfragment =>
    obtain ⟨state,hrun,-⟩ := hpath mergeSlashes s.plusInUri
    have hquery (b : UriBuf) : uriTurn mergeSlashes (.plain state) 63 b = .args b := by
      cases state <;> rfl
    rw [parseComplexUri,complexUriLoop_append hrun,hargs,complexUriLoop,hquery]
    simp [uriArgs,uriDone,hfragment]

end Aret.Http
