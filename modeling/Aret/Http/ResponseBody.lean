import Aret.Engine.RecommendLists
import Aret.Http.AretModule

/-! What a request gets back. The handlers answer over every indexed table, but
they count the diagnostics of the engine into the body and not into its length,
so that no answer carries the whole content. -/
namespace Aret.Http
open Lib Tera Engine Indexer

/-- The declared length and the body handed over are those of `err + content`,
and a HEAD request gets no body. -/
structure Whole (method : Method) (err content : Bytes) (response : Response) : Prop where
  length : response.contentLength = (err ++ content).length
  body : method ≠ .head → response.body = some (err ++ content)
  head : method = .head → response.body = none

/-- The length is that of the content alone, and so is the length of the body:
as many bytes as `err` has are cut off at the end. -/
theorem respond_cut {ngx : Nginx} {method : Method} {err content : Bytes} {response : Response}
    (h : respond ngx method err content = some response) :
    response.contentLength = content.length ∧
      ∀ body, response.body = some body → body = (err ++ content).take content.length := by
  simp only [respond] at h
  split_ifs at h with hbuf hhead hresp hrc
  all_goals
    obtain rfl := Option.some.inj h
    refine ⟨rfl,fun body hbody => ?_⟩
  · exact nomatch hbody
  · exact nomatch hbody
  · exact nomatch hbody
  · exact (Option.some.inj hbody).symm

theorem respond_not_whole {ngx : Nginx} {method : Method} {err content : Bytes} {response : Response}
    (h : respond ngx method err content = some response) (herr : err ≠ []) : ¬ Whole method err content response := by
  intro hwhole
  have hlen := hwhole.length
  rw [(respond_cut h).1,List.length_append] at hlen
  have hpos := List.length_pos_of_ne_nil herr
  omega

theorem recommendLinks_defined (lists : Lists) (urls : List Bytes) (i : Nat)
    (hdesc : i + urls.length ≤ lists.desc.length) (htags : i + urls.length ≤ lists.tags.length) :
    ∃ content, recommendLinks lists i urls = some content := by
  induction urls generalizing i with
  | nil => exact ⟨[],rfl⟩
  | cons url urls ih =>
    rw [List.length_cons] at hdesc htags
    obtain ⟨rest,hrest⟩ := ih (i + 1) (by omega) (by omega)
    have hd : i < lists.desc.length := by omega
    have ht : i < lists.tags.length := by omega
    rw [recommendLinks,hrest,List.getElem?_eq_getElem hd,List.getElem?_eq_getElem ht]
    exact ⟨_,rfl⟩

theorem respond_defined {ngx : Nginx} (hbuf : ngx.sendBuf = true) (method : Method) (err content : Bytes) :
    ∃ response, respond ngx method err content = some response := by
  simp only [respond,hbuf]
  split_ifs with hfalse hhead hresp hrc
  · exact absurd hfalse (by decide)
  · exact ⟨_,rfl⟩
  · exact ⟨_,rfl⟩
  · exact ⟨_,rfl⟩
  · exact ⟨_,rfl⟩

/-- Over an indexed table and a profile without negative counts the page is built
without any access or cast out of range. -/
theorem recommendHandler_defined (lib : CxxLib) {tagtable : Scan} {rows : TableSlice} (hrows : EcRows rows)
    (hscan : ScanRuns tagtable rows) {usertable : Read}
    (hcounts : ∀ item ∈ tagItems (usertable (bytes "user")).2, 0 ≤ item.num) (lastRand : Key) {ngx : Nginx}
    (hbuf : ngx.sendBuf = true) (method : Method) :
    ∃ outcome cursor, recommendHandler lib usertable tagtable lastRand ngx method = some (outcome,cursor) := by
  simp only [recommendHandler]
  split_ifs with hallowed
  · exact ⟨_,_,rfl⟩
  · have hcontent : ∃ out content, getRecommend lib usertable tagtable lastRand (bytes "user") 10 .empty = some out ∧
        (if out.ret then recommendLinks out.lists 0 out.lists.urls else some (bytes "GetRecommend fail~")) =
          some content := by
      cases h : profileRows lib usertable tagtable (bytes "user")
          (quota double (usedItems lib usertable (bytes "user")) 10) with
      | none => exact ⟨_,_,getRecommend_of_none h .empty,rfl⟩
      | some got =>
        obtain ⟨out,hout,hret,taken,rfl,-,hurls,hdesc,htags⟩ := getRecommend_rows hscan hrows
          (quotas_of_nonneg double hcounts (by decide) (by decide) h) h lastRand
        obtain ⟨content,hlinks⟩ := recommendLinks_defined out.lists out.lists.urls 0
          (by simp [hurls,hdesc]) (by simp [hurls,htags])
        exact ⟨out,content,hout,by rw [hret,if_pos rfl,hlinks]⟩
    obtain ⟨out,content,hout,hif⟩ := hcontent
    obtain ⟨response,hresp⟩ := respond_defined hbuf method out.err content
    rw [hout,Option.bind_some,hif,Option.bind_some,hresp]
    exact ⟨_,_,rfl⟩

/-- Every answer of the engine comes with diagnostics. -/
theorem getRecommend_err {lib : CxxLib} {usertable : Read} {tagtable : Scan} {lastRand user : Key} {num : Int}
    {lists : Lists} {out : Recommendation}
    (h : getRecommend lib usertable tagtable lastRand user num lists = some out) : out.err ≠ [] := by
  rw [getRecommend] at h
  obtain ⟨q,hq⟩ := quotas_of_getRecommend h
  cases hrows : profileRows lib usertable tagtable user q with
  | none =>
    rw [getRecommend_of_none hrows,Option.some_inj] at h
    rw [← h]
    exact (by decide : bytes "No url can be Recommend: all_prio == 0" ≠ [])
  | some got =>
    have hq := hq.resolve_right (by rw [hrows]; exact Option.some_ne_none got)
    obtain ⟨serr,hprofile⟩ := profile_ok hq hrows lists
    simp only [getRecommendWith,hprofile,Option.bind_some,Option.map_eq_some_iff] at h
    obtain ⟨st,-,rfl⟩ := h
    simp [bytes]

theorem recordActions_err {σ : Type} {webtable : Read} {usertable : Table σ} {s : σ} {user : Key} {content : List Key}
    {err : Bytes} {out : σ × Bool × Bytes} (h : recordActions webtable usertable s user .view content err = some out) :
    out.2.2 ≠ [] := by
  simp only [recordActions,ne_eq,not_true_eq_false,if_false] at h
  obtain ⟨row,-,rfl⟩ := Option.map_eq_some_iff.mp h
  simp [bytes]

/-- No answer of either handler carries the whole content, whatever the tables,
the request and the outcome of sending the header. -/
theorem response_never_whole {σ : Type} (lib : CxxLib) (webtable : Read) (usertable : Table σ) (tagtable : Scan) (s : σ)
    (lastRand : Key) (ngx : Nginx) (method : Method) (args : Option Bytes) (err content : Bytes) (response : Response) :
    (∀ cursor, recommendHandler lib (usertable.read s) tagtable lastRand ngx method =
      some (.answered err content response,cursor) → ¬ Whole method err content response) ∧
    ∀ s', viewHandler webtable usertable s ngx method args = some (.answered err content response,s') →
      ¬ Whole method err content response := by
  constructor
  · intro cursor h
    simp only [recommendHandler] at h
    split_ifs at h with hallowed
    · exact nomatch h
    obtain ⟨out,hout,h⟩ := Option.bind_eq_some_iff.mp h
    obtain ⟨links,-,h⟩ := Option.bind_eq_some_iff.mp h
    obtain ⟨r,hr,heq⟩ := Option.map_eq_some_iff.mp h
    simp only [Prod.mk.injEq,Outcome.answered.injEq] at heq
    obtain ⟨⟨rfl,rfl,rfl⟩,-⟩ := heq
    exact respond_not_whole hr (getRecommend_err hout)
  · intro s' h
    simp only [viewHandler] at h
    split_ifs at h with hallowed
    · exact nomatch h
    obtain ⟨⟨ok,user,url⟩,-,h⟩ := Option.bind_eq_some_iff.mp h
    obtain ⟨recorded,hrecorded,h⟩ := Option.bind_eq_some_iff.mp h
    obtain ⟨r,hr,heq⟩ := Option.map_eq_some_iff.mp h
    simp only [Prod.mk.injEq,Outcome.answered.injEq] at heq
    obtain ⟨⟨rfl,rfl,rfl⟩,-⟩ := heq
    exact respond_not_whole hr (recordActions_err hrecorded)

def goodNginx : Nginx := ⟨true,true,ngxOk,fun _ => ngxOk⟩

def onePage : TableSlice := .single (bytes "u") (.single (bytes "page") (.single 5 (bytes "page")))

theorem onePage_answer :
    (viewHandler (memTable.read onePage) memTable ∅ goodNginx .get (some (bytes "url=u HTTP/1.1"))).map Prod.fst =
      some (.answered (bytes "tags num: 0\n") (bytes "page")
        ⟨bytes "text/html",ngxHttpOk,4,some (bytes "tags"),ngxOk⟩) := by decide

theorem response_never_whole_sample : ∃ err html response s',
    viewHandler (memTable.read onePage) memTable ∅ goodNginx .get (some (bytes "url=u HTTP/1.1")) =
      some (.answered err html response,s') ∧ ¬ Whole .get err html response := by
  obtain ⟨⟨outcome,s'⟩,h,rfl⟩ := Option.map_eq_some_iff.mp onePage_answer
  exact ⟨_,_,_,s',h,(response_never_whole insertionLib (memTable.read onePage) memTable (memTable.scan ∅) ∅ []
    goodNginx .get (some (bytes "url=u HTTP/1.1")) _ _ _).2 s' h⟩

/-- The page `u` has four bytes; the answer declares four and hands over the
first four of the diagnostics. -/
theorem page_cut_off :
    (viewHandler (memTable.read onePage) memTable ∅ goodNginx .get (some (bytes "url=u HTTP/1.1"))).map Prod.fst =
      some (.answered (bytes "tags num: 0\n") (bytes "page")
        ⟨bytes "text/html",ngxHttpOk,4,some (bytes "tags"),ngxOk⟩) ∧
    ¬ Whole .get (bytes "tags num: 0\n") (bytes "page") ⟨bytes "text/html",ngxHttpOk,4,some (bytes "tags"),ngxOk⟩ := by
  refine ⟨onePage_answer,?_⟩
  intro h
  exact absurd h.length (by decide)

end Aret.Http
