import Aret.Engine.ViewTally
import Aret.Http.QueryParse
import Aret.Http.ResponseBody

/-! The memory `parse_args` touches. nginx leaves `r->args.data` null where a
request has no query, and neither `%s` bounds what it stores, so the buffers
hold only for the queries with a short enough value. -/
namespace Aret.Http
open Lib Tera Engine

/-- A request whose line has been parsed: `argsStart` and `uriEnd` are offsets
into the header buffer, the first one just behind the `?` if there is one, and
`complexUri` says that `complex_uri` or `quoted_uri` is set. -/
structure Request where
  method : Method
  buffer : Bytes
  argsStart : Option Nat
  uriEnd : Nat
  complexUri : Bool
  deriving DecidableEq, Repr

/-- The memory from `r->args.data` on, or `none` for the null pointer it is
before `ngx_http_process_request_uri`. -/
def Request.args (r : Request) : Option Bytes :=
  match r.argsStart with
  | none => none
  | some start =>
    -- `ngx_http_parse_complex_uri` sets it itself when it meets a `#` in the query
    if r.complexUri ∧ 35 ∈ (r.buffer.drop start).take (r.uriEnd - start) then some (r.buffer.drop start)
    else if start < r.uriEnd then some (r.buffer.drop start)
    else none

/-- Only a query that is there and not empty sets it. -/
theorem Request.args_eq (r : Request) :
    r.args = r.argsStart.bind (fun start => if start < r.uriEnd then some (r.buffer.drop start) else none) := by
  cases hstart : r.argsStart with
  | none => simp only [Request.args,hstart,Option.bind_none]
  | some start =>
    simp only [Request.args,hstart,Option.bind_some]
    by_cases hlt : start < r.uriEnd
    · simp only [if_pos hlt,ite_self]
    · have hempty : r.uriEnd - start = 0 := by omega
      simp [hlt,hempty]

/-- What both attempts of `parse_args` store; `none` is a read through a null pointer. -/
def parseArgsStores (args : Option Bytes) : Option (List Store) :=
  match args with
  | none => none
  | some memory =>
    let stored := sscanfStores userFormat (cString memory)
    match sscanf (cString memory) userFormat with
    | some (2,[_,_]) => some stored
    | _ => some (stored ++ sscanfStores urlFormat (cString memory))

def viewHandlerStores (r : Request) : Option (List Store) :=
  if !r.method.allowed then some [] else parseArgsStores r.args

def StaysInBuffers (stores : Option (List Store)) : Prop :=
  ∃ l, stores = some l ∧ ∀ store ∈ l, store.index < store.size

def Fits (memory name : Bytes) (size : Nat) : Prop :=
  ∀ B, cString memory = name ++ B → (word B).length < size

theorem fits_iff {memory name B : Bytes} {size : Nat} (hB : cString memory = name ++ B) :
    Fits memory name size ↔ (word B).length < size := by
  refine ⟨fun h => h B hB,fun h B' hB' => ?_⟩
  rwa [← List.append_cancel_left (hB.symm.trans hB')]

theorem parseArgs_defined_iff (memory user url : Bytes) :
    parseArgs (some memory) user url ≠ none ↔
      Fits memory (bytes "user=") 128 ∧ Fits memory (bytes "url=") 1024 := by
  cases leading (cString memory) with
  | user B hB =>
    have hurl : Fits memory (bytes "url=") 1024 := fun B' hB' => absurd (hB.symm.trans hB') (user_ne_url B B')
    rw [parseArgs_user user url hB,and_iff_left hurl,fits_iff hB]
    split_ifs with hlen
    · exact iff_of_true (Option.some_ne_none _) hlen
    · exact iff_of_false (fun h => h rfl) hlen
  | url B hB =>
    have huser : Fits memory (bytes "user=") 128 := fun B' hB' => absurd (hB'.symm.trans hB) (user_ne_url B' B)
    rw [parseArgs_url user url hB,and_iff_right huser,fits_iff hB]
    split_ifs with hnil hlen
    · exact iff_of_true (Option.some_ne_none _) (by simp [hnil])
    · exact iff_of_true (Option.some_ne_none _) hlen
    · exact iff_of_false (fun h => h rfl) hlen
  | other huser hurl =>
    rw [parseArgs_other user url huser hurl]
    exact iff_of_true (Option.some_ne_none _)
      ⟨fun B hB => absurd ⟨B,hB.symm⟩ huser,fun B hB => absurd ⟨B,hB.symm⟩ hurl⟩

theorem staysInBuffers_some (l : List Store) :
    StaysInBuffers (some l) ↔ ∀ store ∈ l, store.index < store.size := by
  constructor
  · rintro ⟨l',hl,h⟩
    rwa [Option.some.inj hl]
  · exact fun h => ⟨l,rfl,h⟩

private theorem parseArgs_second {memory : Bytes} {first : Int × List Bytes} (user url : Bytes)
    (hfirst : sscanf (cString memory) userFormat = some first) (hrefused : ∀ a b, first ≠ (2,[a,b])) :
    parseArgs (some memory) user url = none ↔ sscanf (cString memory) urlFormat = none := by
  simp only [parseArgs,hfirst]
  split
  · rename_i hnone
    exact iff_of_true rfl hnone
  · rename_i hsome
    rw [hsome]
    exact iff_of_false (Option.some_ne_none _) (Option.some_ne_none _)
  · rename_i hsome
    rw [hsome]
    exact iff_of_false (Option.some_ne_none _) (Option.some_ne_none _)

theorem parseArgsStores_in_range_iff (args : Option Bytes) (user url : Bytes) :
    StaysInBuffers (parseArgsStores args) ↔ parseArgs args user url ≠ none := by
  cases args with
  | none => exact iff_of_false (fun ⟨_,h,_⟩ => Option.some_ne_none _ h.symm) (fun h => h rfl)
  | some memory =>
    have hfirst := stores_in_range_iff userFormat (cString memory)
    have hsecond := stores_in_range_iff urlFormat (cString memory)
    cases hu : sscanf (cString memory) userFormat with
    | none =>
      simp only [parseArgsStores,parseArgs,hu]
      rw [staysInBuffers_some,List.forall_mem_append,hfirst,hu]
      exact iff_of_false (fun h => h.1 rfl) (fun h => h rfl)
    | some first =>
      rw [hu,iff_true_right (Option.some_ne_none first)] at hfirst
      simp only [parseArgsStores,hu]
      split
      · rename_i userbuf urlbuf heq
        rw [parseArgs,hu,heq,staysInBuffers_some]
        exact iff_of_true hfirst (Option.some_ne_none _)
      · rename_i hrefused
        rw [staysInBuffers_some,List.forall_mem_append,and_iff_right hfirst,hsecond]
        rw [ne_eq,ne_eq,not_iff_not,parseArgs_second user url hu (fun a b h => hrefused a b (congrArg some h))]

/-- As long as nginx has memory and no count overflows, the handler answers exactly
where it stays in the buffers. -/
theorem viewHandler_defined_iff {σ : Type} {webtable : Read} {usertable : Table σ} {s : σ}
    (hb : ∀ url t, rowCount (usertable.read s (bytes "user")).2 t + (contentTags webtable [url]).count t ≤ 2^31 - 1)
    {ngx : Nginx} (hbuf : ngx.sendBuf = true) (r : Request) :
    viewHandler webtable usertable s ngx r.method r.args ≠ none ↔ StaysInBuffers (viewHandlerStores r) := by
  rw [viewHandler,viewHandlerStores]
  cases hallowed : r.method.allowed with
  | false => simp [staysInBuffers_some]
  | true =>
    rw [Bool.not_true,if_neg Bool.false_ne_true,if_neg Bool.false_ne_true,parseArgsStores_in_range_iff r.args [] []]
    cases parseArgs r.args [] [] with
    | none => simp
    | some out =>
      obtain ⟨recorded,hrecorded⟩ := recordActions_defined (hb out.2.2) []
      obtain ⟨response,hresponse⟩ := respond_defined hbuf r.method recorded.2.2 (viewHtml webtable out.2.2)
      simp [hrecorded,hresponse]

/-- The view handler stays in the buffers exactly when it refuses the method or
there is a query, not empty, whose value behind `user=` or `url=` fits. -/
theorem view_stays_in_buffers_iff (r : Request) :
    StaysInBuffers (viewHandlerStores r) ↔
      (r.method.allowed = true → ∃ start, r.argsStart = some start ∧ start < r.uriEnd ∧
        Fits (r.buffer.drop start) (bytes "user=") 128 ∧ Fits (r.buffer.drop start) (bytes "url=") 1024) := by
  rw [viewHandlerStores]
  cases hallowed : r.method.allowed with
  | false => simp [staysInBuffers_some]
  | true =>
    rw [Bool.not_true,if_neg Bool.false_ne_true,parseArgsStores_in_range_iff r.args [] [],Request.args_eq]
    cases r.argsStart with
    | none => simp [parseArgs]
    | some start =>
      rw [Option.bind_some]
      by_cases hlt : start < r.uriEnd
      · simp [hlt,parseArgs_defined_iff]
      · simp [hlt,parseArgs]

def getView (query : Bytes) : Request :=
  ⟨.get,bytes "GET /view?" ++ query ++ bytes " HTTP/1.1",some 10,10 + query.length,false⟩

theorem getView_stores {query : Bytes} (h : query ≠ []) :
    viewHandlerStores (getView query) = parseArgsStores (some (query ++ bytes " HTTP/1.1")) := by
  have hlt : 10 < 10 + query.length := Nat.lt_add_of_pos_right (List.length_pos_of_ne_nil h)
  have hdrop : (bytes "GET /view?" ++ query ++ bytes " HTTP/1.1").drop 10 = query ++ bytes " HTTP/1.1" := by
    rw [List.append_assoc]
    exact List.drop_left' rfl
  rw [viewHandlerStores,Request.args_eq]
  simp only [getView,Option.bind_some,if_pos hlt,hdrop]
  rfl

/-- A request without a query is read through a null pointer, and a `user` of 128
bytes has its NUL stored behind `userbuf`. -/
theorem view_leaves_buffers :
    ¬ StaysInBuffers (viewHandlerStores ⟨.get,bytes "GET /view HTTP/1.1",none,9,false⟩) ∧
    ¬ StaysInBuffers (viewHandlerStores (getView (bytes "user=" ++ List.replicate 128 97))) := by
  constructor
  · rintro ⟨l,hl,-⟩
    exact Option.some_ne_none l (hl.symm.trans (by decide))
  · intro h
    rw [getView_stores (by simp [bytes]),parseArgsStores_in_range_iff _ [] [],parseArgs_defined_iff] at h
    have hword : word (List.replicate 128 97 ++ bytes " HTTP/1.1") = List.replicate 128 97 :=
      word_append_cons (by simp [isSpace]) (by simp) (by decide) _
    have hlen := h.1 (List.replicate 128 97 ++ bytes " HTTP/1.1") (cString_of_notMem (by simp [bytes]))
    rw [hword,List.length_replicate] at hlen
    exact absurd hlen (lt_irrefl 128)

end Aret.Http
