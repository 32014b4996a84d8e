import Aret.Engine.ViewWorkers
import Aret.Site.Alone
import Aret.Site.SharedTables

/-! The requests that a running site answers. Between any two messages of a worker
the tables may have changed, so that a recommendation is put together from several
states of them; it is still a page of links to pages of the site. -/
namespace Aret.Site
open Lib Tera Engine Indexer Http

def GivenUp (lib : CxxLib) (row₀ : Record) (counted : List (List Bytes)) : Prop :=
  ∃ row, ProfileOf row₀ counted row ∧ row.size ≠ 0 ∧ allPrio ((lib.sort (tagItems row)).take 5) = 0

/-- The text shown for a url: its page, stripped some times, if there is one. -/
def Shows (web₀ : TableSlice) (url : Key) (content : Bytes) : Prop :=
  ∃ n, content = match firstPage web₀ url with
    | some (_,page) =>
      if url = [] ∨ stripCode^[n] page = [] then bytes "No this page in WebTable" else stripCode^[n] page
    | none => bytes "No this page in WebTable"

/-- What a request may be answered with. -/
def Answered (lib : CxxLib) (web₀ : TableSlice) (row₀ : Record) (counted : List (List Bytes)) :
    Request → Outcome → Prop
  | request,.notAllowed => request.method.allowed = false
  | .recommend _ _,.answered _ content _ =>
    (content = bytes "GetRecommend fail~" ∧ GivenUp lib row₀ counted) ∨
      ∃ items : List Item, items.length ≤ 10 ∧ content = page items ∧ ∀ item ∈ items, (firstPage web₀ item.url).isSome
  | .view _ _ args,.answered _ content _ =>
    ∃ ok user url, parseArgs args [] [] = some (ok,user,url) ∧ Shows web₀ url content

theorem ProfileOf.mono {row₀ row : Record} {counted counted' : List (List Bytes)} (h : ProfileOf row₀ counted row)
    (hle : counted.Sublist counted') : ProfileOf row₀ counted' row := by
  obtain ⟨kept,hkept,heq⟩ := h
  exact ⟨kept,hkept.trans hle,heq⟩

theorem ProfileOf.nonneg {row₀ row : Record} {counted : List (List Bytes)} (h : ProfileOf row₀ counted row)
    (hcounts : ∀ item ∈ tagItems row₀, 0 ≤ item.num) : ∀ item ∈ tagItems row, 0 ≤ item.num := by
  obtain ⟨kept,-,hrow⟩ := h
  exact recordTags_nonneg hcounts hrow

theorem Answered.mono {lib : CxxLib} {web₀ : TableSlice} {row₀ : Record} {counted counted' : List (List Bytes)}
    {request : Request} {outcome : Outcome} (h : Answered lib web₀ row₀ counted request outcome)
    (hle : counted.Sublist counted') : Answered lib web₀ row₀ counted' request outcome := by
  cases outcome with
  | notAllowed => exact h
  | answered err content response =>
    cases request with
    | recommend ngx method =>
      refine h.imp_left ?_
      rintro ⟨hfail,row,hrow,hsize,hprio⟩
      exact ⟨hfail,row,hrow.mono hle,hsize,hprio⟩
    | view ngx method args => exact h

/-- The three vectors belong together and name pages of the site. -/
structure ListsSound (web₀ : TableSlice) (lists : Lists) : Prop where
  desc : lists.desc.length = lists.urls.length
  tags : lists.tags.length = lists.urls.length
  pages : ∀ url ∈ lists.urls, (firstPage web₀ url).isSome

section
variable (fit : Prop)

def Recommends (request : Request) : Prop := ∃ ngx method, request = .recommend ngx method ∧ (fit → ngx.sendBuf = true)

def Views (request : Request) (url : Key) : Prop :=
  ∃ ngx method args ok user, request = .view ngx method args ∧ (fit → ngx.sendBuf = true) ∧
    parseArgs args [] [] = some (ok,user,url)

/-- What a worker has in hand at each point of a request. That it has not crashed
is known only in a run where everything fits. -/
def Job.Sound (web₀ : TableSlice) (row₀ : Record) (counted : List (List Bytes)) (request : Request) : Job → Prop
  | .idle => True
  | .profileRead => Recommends fit request
  | .tagScan di todo lists _ =>
    Recommends fit request ∧ ListsSound web₀ lists ∧ lists.urls.length + 2 * todo.length ≤ 10 ∧
      (fit → ∀ item ∈ todo, ∃ n, tagNum double item.num di 10 = some n)
  | .fillScan lists _ | .refillScan lists _ => Recommends fit request ∧ ListsSound web₀ lists ∧ lists.urls.length ≤ 10
  | .pageRead url | .userRead url _ | .htmlRead url _ => Views fit request url
  | .userWrite url _ row => Views fit request url ∧ ProfileOf row₀ counted row
  | .crashed => ¬ fit

structure Worker.Sound (lib : CxxLib) (web₀ : TableSlice) (row₀ : Record) (counted : List (List Bytes)) (w : Worker) :
    Prop where
  job : w.job.Sound fit web₀ row₀ counted w.request
  served : ∀ a ∈ w.served, Answered lib web₀ row₀ counted a.1 a.2

end

section
variable {fit : Prop} {lib : CxxLib} {web₀ : TableSlice} {row₀ : Record} {counted : List (List Bytes)} {w : Worker}

theorem Worker.Sound.mono (h : w.Sound fit lib web₀ row₀ counted) {counted' : List (List Bytes)}
    (hle : counted.Sublist counted') : w.Sound fit lib web₀ row₀ counted' where
  job := by
    have hjob := h.job
    cases hw : w.job with
    | userWrite url tags row =>
      rw [hw] at hjob
      exact ⟨hjob.1,hjob.2.mono hle⟩
    | _ =>
      rw [hw] at hjob
      exact hjob
  served a ha := (h.served a ha).mono hle

theorem Worker.answer_sound (hserved : ∀ a ∈ w.served, Answered lib web₀ row₀ counted a.1 a.2) {outcome : Outcome}
    (h : Answered lib web₀ row₀ counted w.request outcome) : (w.answer outcome).Sound fit lib web₀ row₀ counted where
  job := trivial
  served := by
    intro a ha
    rcases List.mem_append.mp ha with ha | ha
    · exact hserved a ha
    · obtain rfl := List.mem_singleton.mp ha
      exact h

theorem Worker.crash_sound (hserved : ∀ a ∈ w.served, Answered lib web₀ row₀ counted a.1 a.2) (h : ¬ fit) :
    w.crash.Sound fit lib web₀ row₀ counted := ⟨h,hserved⟩

theorem Worker.respond_sound (hserved : ∀ a ∈ w.served, Answered lib web₀ row₀ counted a.1 a.2)
    (hbuf : fit → w.request.ngx.sendBuf = true) {err content : Bytes}
    (h : ∀ response, Answered lib web₀ row₀ counted w.request (.answered err content response)) :
    (w.respond err content).Sound fit lib web₀ row₀ counted := by
  rw [Worker.respond]
  cases hresponse : Http.respond w.request.ngx w.request.method err content with
  | none =>
    refine crash_sound hserved (fun hfit => ?_)
    obtain ⟨response,hdefined⟩ := respond_defined (hbuf hfit) w.request.method err content
    rw [hresponse] at hdefined
    exact absurd hdefined (Option.some_ne_none response).symm
  | some response => exact answer_sound hserved (h response)

/-- A list put together from sound rows is shown as a page. -/
theorem Worker.showRecommend_sound (hserved : ∀ a ∈ w.served, Answered lib web₀ row₀ counted a.1 a.2)
    (hrequest : Recommends fit w.request) {lists : Lists} (hlists : ListsSound web₀ lists)
    (hlen : lists.urls.length ≤ 10)
    (err : Bytes) (lastRand : Key) : (w.showRecommend ⟨true,lists,err,lastRand⟩).Sound fit lib web₀ row₀ counted := by
  obtain ⟨ngx,method,heq,hbuf⟩ := hrequest
  obtain ⟨content,hcontent⟩ := recommendLinks_defined lists lists.urls 0 (by rw [hlists.desc]; omega)
    (by rw [hlists.tags]; omega)
  obtain ⟨hpage,hurls⟩ := recommendLinks_page hcontent
  simp only [Worker.showRecommend,if_true,hcontent]
  refine respond_sound (w := { w with lastRand }) hserved (by rw [heq]; exact hbuf) (fun response => ?_)
  rw [heq]
  refine Or.inr ⟨_,?_,hpage,fun item hitem => ?_⟩
  · rw [← List.length_map Item.url,hurls]
    exact hlen
  · exact hlists.pages _ (hurls ▸ List.mem_map_of_mem hitem)

theorem Worker.giveUp_sound (hserved : ∀ a ∈ w.served, Answered lib web₀ row₀ counted a.1 a.2)
    (hrequest : Recommends fit w.request) (hgiven : GivenUp lib row₀ counted) (lists : Lists) (err : Bytes)
    (lastRand : Key) :
    (w.showRecommend ⟨false,lists,err,lastRand⟩).Sound fit lib web₀ row₀ counted := by
  obtain ⟨ngx,method,heq,hbuf⟩ := hrequest
  simp only [Worker.showRecommend,Bool.false_eq_true,if_false]
  refine respond_sound (w := { w with lastRand }) hserved (by rw [heq]; exact hbuf) (fun response => ?_)
  rw [heq]
  exact Or.inl ⟨rfl,hgiven⟩

/-- The fill takes rows of a linked table, and no more than are missing. -/
theorem Worker.fill_sound (hserved : ∀ a ∈ w.served, Answered lib web₀ row₀ counted a.1 a.2)
    (hrequest : Recommends fit w.request) {tag : TableSlice} (htag : Linked web₀ tag) {slice : TableSlice}
    (hslice : ∀ p ∈ slice.entries, p ∈ tag.entries) {lists : Lists} (hlists : ListsSound web₀ lists)
    (hlen : lists.urls.length ≤ 10) (serr : Bytes) : (w.fill slice lists serr).Sound fit lib web₀ row₀ counted := by
  have hnum : fillNum 10 lists.urls.length = 10 - lists.urls.length := fillNum_eq (by omega) (by omega)
  obtain ⟨taken,htaken⟩ : ∃ taken, slice.entries.take (10 - lists.urls.length) = taken := ⟨_,rfl⟩
  have hrows : ∀ p ∈ taken, p ∈ tag.entries := fun p hp => hslice p (List.mem_of_mem_take (htaken ▸ hp))
  have hbegin : ∀ p ∈ taken, urlOf p.2 = urlCell p ∧ HasCells p.2 := by
    intro p hp
    obtain ⟨hurl,htitle⟩ := begin_eq_of_ecRows htag.ecWritten.rows (hrows p hp)
    exact ⟨by rw [urlOf,hurl]; rfl,by simp [HasCells,hurl,htitle]⟩
  have hloop : randomRecommendLoop (fillNum 10 lists.urls.length) slice.entries 0 (lists,w.lastRand) =
      some (filled lists w.lastRand taken) := by
    have htoNat : ((10 : Int) - lists.urls.length - 0).toNat = 10 - lists.urls.length := by omega
    rw [randomRecommendLoop_some,hnum,htoNat,htaken]
    exact ⟨fun p hp => (hbegin p hp).2,rfl⟩
  have htakenLen : taken.length ≤ 10 - lists.urls.length := htaken ▸ List.length_take_le _ _
  simp only [Worker.fill,hloop]
  refine showRecommend_sound hserved hrequest ⟨?_,?_,?_⟩ ?_ _ _
  · simp [filled,hlists.desc]
  · simp [filled,hlists.tags]
  · intro url hurl
    rcases List.mem_append.mp hurl with hurl | hurl
    · exact hlists.pages url hurl
    · obtain ⟨p,hp,rfl⟩ := List.mem_map.mp hurl
      rw [(hbegin p hp).1]
      exact htag.url (hrows p hp)
  · simp [filled]
    omega

end

/-- A request that the memory allows for and whose query `parse_args` can take. -/
def Request.Fits : Request → Prop
  | .recommend ngx _ => ngx.sendBuf = true
  | .view ngx _ args => ngx.sendBuf = true ∧ parseArgs args [] [] ≠ none

/-- What the next move of a process can bear: a request taken up fits, and so do
the counts that a view is about to write. -/
def Process.Bears {σ τ υ : Type} (request : Option Request) (_ : Servers σ τ υ) : Process → Prop
  | .indexer _ => True
  | .worker w =>
    match w.job with
    | .idle => ∀ r ∈ request, r.Fits
    | .userWrite _ tags row => ∀ t, rowCount row t + tags.count t ≤ 2^31 - 1
    | _ => True

section
variable {σ τ υ : Type} {prog : Programs σ τ υ} {webRows : σ → TableSlice} {tagRows : τ → TableSlice}
  {web₀ : TableSlice} {row₀ : Record} {fit : Prop}

theorem Worker.start_sound {counted : List (List Bytes)} {w : Worker}
    (hserved : ∀ a ∈ w.served, Answered prog.lib web₀ row₀ counted a.1 a.2) {request : Request}
    (hfits : fit → request.Fits) :
    (w.start request).Sound fit prog.lib web₀ row₀ counted := by
  cases hallowed : request.method.allowed with
  | false =>
    simp only [Worker.start,hallowed,Bool.not_false,if_true]
    exact answer_sound (w := { w with request }) hserved hallowed
  | true =>
    simp only [Worker.start,hallowed,Bool.not_true,Bool.false_eq_true,if_false]
    cases request with
    | recommend ngx method => exact ⟨⟨ngx,method,rfl,hfits⟩,hserved⟩
    | view ngx method args =>
      cases hparse : parseArgs args [] [] with
      | none =>
        simp only [hparse]
        exact crash_sound (w := { w with request := _ }) hserved (fun hfit => (hfits hfit).2 hparse)
      | some out =>
        simp only [hparse]
        exact ⟨⟨ngx,method,args,_,_,rfl,fun hfit => (hfits hfit).1,hparse⟩,hserved⟩

/-- `GetHtml` over a server that denies at most rows without content. -/
theorem getHtml_eq {webtable : Read} {url : Key} (hok : (webtable url).2 ≠ ∅ → (webtable url).1 = true) :
    getHtml webtable url [] =
      let html := ((column (webtable url).2 (bytes "page")).entries.head?.map Prod.snd).getD []
      (!html.isEmpty,html) := by
  rw [getHtml]
  obtain ⟨ok,record,hread⟩ : ∃ ok record, webtable url = (ok,record) := ⟨_,_,rfl⟩
  rw [hread] at hok ⊢
  cases hempty : record.isEmpty with
  | true =>
    obtain rfl : record = ∅ := OrdMap.entries_injective (OrdMap.isEmpty_iff.mp hempty)
    simp [column,OrdMap.get,hempty]
  | false =>
    have hne : record ≠ ∅ := fun he => by simp [he,OrdMap.isEmpty] at hempty
    obtain rfl : ok = true := hok hne
    cases hcells : (column record (bytes "page")).entries with
    | nil => simp [hempty,hcells]
    | cons p cells => simp [hempty,hcells]

/-- The page shown is the one stored, up to what indexers strip off. -/
theorem shows_of_kept (laws : Laws prog webRows tagRows) {web : σ} (hweb : WebKept web₀ (webRows web)) (url : Key) :
    Shows web₀ url (viewHtml (prog.webtable.read web) url) := by
  obtain ⟨hrow,hok⟩ := laws.webReads web url
  obtain ⟨n,hn⟩ := hweb.firstPage url
  refine ⟨n,?_⟩
  rw [firstPage,← hrow] at hn
  simp only [viewHtml,getHtml_eq hok,hn]
  cases firstPage web₀ url with
  | none => simp
  | some p => simp

/-- The rows taken for one tag: at most two, and rows of a linked table. -/
theorem profileLoop_sound {tag : TableSlice} (htag : Linked web₀ tag) {tagtable : Scan} (hscan : ScanRuns tagtable tag)
    {lists : Lists} (hlists : ListsSound web₀ lists) {lib : CxxLib} {di : ℚ} {item : TagItem} {serr : Bytes}
    {out : Lists × Bytes} (h : profileLoop double lib tagtable di 10 [item] (lists,serr) = some out) :
    ListsSound web₀ out.1 ∧ out.1.urls.length ≤ lists.urls.length + 2 := by
  obtain ⟨n,hn⟩ : ∃ n, tagNum double item.num di 10 = some n :=
    ⟨_,tagNum_of_profileLoop lib tagtable h item (List.mem_singleton_self item)⟩
  have hquota : n ≤ 2 := tagNum_le_two hn
  obtain ⟨serr',hloop⟩ := profileLoop_spec lib tagtable (q := fun _ => n) (List.forall_mem_singleton.mpr hn) lists serr
  rw [h] at hloop
  obtain rfl := Option.some.inj hloop
  have hpicks : profilePicks tagtable (fun _ => n) [item] =
      (picks tagtable item.tag n).map (fun p => (item.tag,p)) := by
    simp [profilePicks]
  have htaken := picks_length_le tagtable item.tag n
  simp only [hpicks]
  refine ⟨⟨by simp [hlists.desc],by simp [hlists.tags],fun url hurl => ?_⟩,?_⟩
  · rcases List.mem_append.mp hurl with hurl | hurl
    · exact hlists.pages url hurl
    · simp only [List.map_map,List.mem_map,Function.comp] at hurl
      obtain ⟨p,hp,rfl⟩ := hurl
      exact htag.url (mem_of_mem_picks hscan hp)
  · simp only [List.length_append,List.length_map]
    omega

theorem Worker.profile_sound {counted : List (List Bytes)} {row : Record} {w : Worker}
    (hprofile : ProfileOf row₀ counted row) (hserved : ∀ a ∈ w.served, Answered prog.lib web₀ row₀ counted a.1 a.2)
    (hrequest : Recommends fit w.request) (hcounts : fit → ∀ item ∈ tagItems row₀, 0 ≤ item.num) (ok : Bool) :
    (w.profile prog.lib ok row).Sound fit prog.lib web₀ row₀ counted := by
  simp only [Worker.profile]
  split_ifs with hread hprio
  · refine Worker.giveUp_sound hserved hrequest ⟨row,hprofile,?_,hprio⟩ _ _ _
    simpa using (Bool.and_eq_true_iff.mp hread).2
  · have hnum : fit → ∀ item ∈ (prog.lib.sort (tagItems row)).take 5, 0 ≤ item.num := fun hfit item hi =>
      hprofile.nonneg (hcounts hfit) item ((prog.lib.sort_perm _).mem_iff.mp (List.mem_of_mem_take hi))
    have hle := List.length_take_le 5 (prog.lib.sort (tagItems row))
    refine ⟨⟨hrequest,⟨rfl,rfl,by simp [Lists.empty]⟩,?_,fun hfit item hi => ?_⟩,hserved⟩
    · change 0 + 2 * ((prog.lib.sort (tagItems row)).take 5).length ≤ 10
      omega
    · exact ⟨_,tagNum_eq double (hnum hfit) hprio hi (by decide) (by decide)⟩
  · exact ⟨⟨hrequest,⟨rfl,rfl,by simp [Lists.empty]⟩,by simp [Lists.empty]⟩,hserved⟩

theorem workerStep_sound (laws : Laws prog webRows tagRows) {s : Servers σ τ υ} {w : Worker}
    (hs : Sound prog webRows tagRows web₀ row₀ s) (hw : w.Sound fit prog.lib web₀ row₀ s.counted)
    (hcounts : fit → ∀ item ∈ tagItems row₀, 0 ≤ item.num) {request : Option Request}
    (hbears : fit → Process.Bears request s (.worker w)) :
    let out := workerStep prog request (s,w)
    Sound prog webRows tagRows web₀ row₀ out.1 ∧ out.2.Sound fit prog.lib web₀ row₀ out.1.counted ∧
      s.counted.Sublist out.1.counted := by
  intro out
  obtain ⟨hjob,hserved⟩ := hw
  have hrows : ∀ start, ∀ p ∈ (prog.tagtable.scan s.tag start (bytes "~")).2.entries, p ∈ (tagRows s.tag).entries :=
    fun start p hp => ((laws.tagScans s.tag).mem hp).1
  cases hcase : w.job with
  | idle =>
    simp only [out,workerStep,hcase]
    cases request with
    | none => exact ⟨hs,⟨hjob,hserved⟩,.refl _⟩
    | some r =>
      have hfits : fit → r.Fits := fun hfit => by simpa [Process.Bears,hcase] using hbears hfit
      exact ⟨hs,Worker.start_sound hserved hfits,.refl _⟩
  | profileRead =>
    rw [hcase] at hjob
    simp only [out,workerStep,hcase]
    exact ⟨hs,Worker.profile_sound hs.user hserved hjob hcounts _,.refl _⟩
  | tagScan di todo lists serr =>
    rw [hcase] at hjob
    obtain ⟨hrequest,hlists,hlen,hquotas⟩ := hjob
    cases todo with
    | nil =>
      simp only [out,workerStep,hcase]
      exact ⟨hs,⟨⟨hrequest,hlists,by simpa using hlen⟩,hserved⟩,.refl _⟩
    | cons item todo =>
      simp only [out,workerStep,hcase]
      cases hloop : profileLoop double prog.lib (prog.tagtable.scan s.tag) di 10 [item] (lists,serr) with
      | none =>
        refine ⟨hs,Worker.crash_sound hserved (fun hfit => ?_),.refl _⟩
        obtain ⟨n,hn⟩ := hquotas hfit item List.mem_cons_self
        simp [profileLoop,hn] at hloop
      | some got =>
        obtain ⟨hlists',hlen'⟩ := profileLoop_sound hs.tag (laws.tagScans s.tag) hlists hloop
        refine ⟨hs,⟨⟨hrequest,hlists',?_,fun hfit => (List.forall_mem_cons.mp (hquotas hfit)).2⟩,hserved⟩,.refl _⟩
        rw [List.length_cons] at hlen
        omega
  | fillScan lists serr =>
    rw [hcase] at hjob
    obtain ⟨hrequest,hlists,hlen⟩ := hjob
    simp only [out,workerStep,hcase]
    refine ⟨hs,?_,.refl _⟩
    split_ifs with hok
    · exact Worker.fill_sound hserved hrequest hs.tag (hrows _) hlists hlen serr
    · exact ⟨⟨hrequest,hlists,hlen⟩,hserved⟩
  | refillScan lists serr =>
    rw [hcase] at hjob
    obtain ⟨hrequest,hlists,hlen⟩ := hjob
    simp only [out,workerStep,hcase]
    exact ⟨hs,Worker.fill_sound hserved hrequest hs.tag (hrows []) hlists hlen serr,.refl _⟩
  | pageRead url =>
    rw [hcase] at hjob
    simp only [out,workerStep,hcase]
    exact ⟨hs,⟨hjob,hserved⟩,.refl _⟩
  | userRead url tags =>
    rw [hcase] at hjob
    simp only [out,workerStep,hcase]
    exact ⟨hs,⟨⟨hjob,hs.user⟩,hserved⟩,.refl _⟩
  | userWrite url tags row =>
    rw [hcase] at hjob
    obtain ⟨hrequest,kept,hkept,hrow⟩ := hjob
    simp only [out,workerStep,hcase]
    cases hrecord : recordTags row tags with
    | none =>
      refine ⟨hs,Worker.crash_sound hserved (fun hfit => ?_),.refl _⟩
      obtain ⟨row',hdefined⟩ := (recordTags_defined_iff row tags).mpr (by simpa [Process.Bears,hcase] using hbears hfit)
      rw [hrecord] at hdefined
      exact absurd hdefined (Option.some_ne_none row').symm
    | some row' =>
      have hgrow : s.counted.Sublist (s.counted ++ [tags]) := List.sublist_append_left _ _
      refine ⟨⟨hs.web,hs.tag,kept ++ [tags],hkept.append_right [tags],?_⟩,
        ⟨hrequest,fun a ha => (hserved a ha).mono hgrow⟩,hgrow⟩
      rw [(laws.userReads _ _ _).1,List.flatten_append,recordTags_append,hrow,← hrecord]
      simp
  | htmlRead url err =>
    rw [hcase] at hjob
    obtain ⟨ngx,method,args,ok,user,heq,hbuf,hparse⟩ := hjob
    simp only [out,workerStep,hcase]
    refine ⟨hs,Worker.respond_sound hserved (by rw [heq]; exact hbuf) (fun response => ?_),.refl _⟩
    rw [heq]
    exact ⟨ok,user,url,hparse,shows_of_kept laws hs.web url⟩
  | crashed =>
    simp only [out,workerStep,hcase]
    exact ⟨hs,⟨hjob,hserved⟩,.refl _⟩

def Process.Sound (fit : Prop) (lib : CxxLib) (web₀ : TableSlice) (row₀ : Record) (counted : List (List Bytes)) :
    Process → Prop
  | .indexer p => (∀ n, 0 ≤ p.getMicros n) ∧ p.pc.Sound web₀
  | .worker w => w.Sound fit lib web₀ row₀ counted

theorem processStep_sound (laws : Laws prog webRows tagRows) (hts : ∀ key p, firstPage web₀ key = some p → 0 ≤ p.1)
    {s : Servers σ τ υ} {process : Process} (hs : Sound prog webRows tagRows web₀ row₀ s)
    (hp : process.Sound fit prog.lib web₀ row₀ s.counted) (hcounts : fit → ∀ item ∈ tagItems row₀, 0 ≤ item.num)
    {request : Option Request} (hbears : fit → Process.Bears request s process) :
    let out := processStep prog request (s,process)
    Sound prog webRows tagRows web₀ row₀ out.1 ∧ out.2.Sound fit prog.lib web₀ row₀ out.1.counted ∧
      s.counted.Sublist out.1.counted := by
  cases process with
  | indexer p =>
    obtain ⟨hweb,htag,hpc⟩ := indexerStep_sound laws hts hp.1 p.endKey ⟨s.web,s.tag,p.ticks,p.lastKey,p.log⟩
      hs.web hs.tag hp.2
    exact ⟨⟨hweb,htag,hs.user⟩,⟨hp.1,hpc⟩,.refl _⟩
  | worker w => exact workerStep_sound laws hs hp hcounts hbears

variable {ι : Type} [DecidableEq ι]

/-- A site as it is started: tables that fit together, and processes that have
nothing in hand. -/
structure Started (prog : Programs σ τ υ) (webRows : σ → TableSlice) (tagRows : τ → TableSlice)
    (c : Running ι σ τ υ) : Prop where
  linked : Linked (webRows c.shared.web) (tagRows c.shared.tag)
  stamps : ∀ key p, firstPage (webRows c.shared.web) key = some p → 0 ≤ p.1
  counted : c.shared.counted = []
  processes : ∀ i, match c.locals i with
    | .indexer p => (∀ n, 0 ≤ p.getMicros n) ∧ p.pc = .scan
    | .worker w => w.job = .idle ∧ w.served = []

def startProfile (prog : Programs σ τ υ) (c : Running ι σ τ υ) : Record :=
  (prog.usertable.read c.shared.user (bytes "user")).2

/-- A run in which nothing goes beyond what the memory, `parse_args` and an `int` can take. -/
structure Fitting (prog : Programs σ τ υ) (c : Running ι σ τ υ) (moves : List (ι × Option Request)) : Prop where
  counts : ∀ item ∈ tagItems (startProfile prog c), 0 ≤ item.num
  moves : c.Meets (processStep prog) Process.Bears moves

theorem run_sound (laws : Laws prog webRows tagRows) {c : Running ι σ τ υ} (hc : Started prog webRows tagRows c)
    (moves : List (ι × Option Request)) (hfit : fit → Fitting prog c moves) :
    let web₀ := webRows c.shared.web
    let row₀ := startProfile prog c
    let c' := c.run prog moves
    Sound prog webRows tagRows web₀ row₀ c'.shared ∧
      ∀ i, (c'.locals i).Sound fit prog.lib web₀ row₀ c'.shared.counted := by
  intro web₀ row₀ c'
  refine Interleaving.Config.run_invariant (Sound prog webRows tagRows web₀ row₀)
    (fun s l => l.Sound fit prog.lib web₀ row₀ s.counted) (fun s s' => s.counted.Sublist s'.counted)
    (fun request s l => fit → Process.Bears request s l) ?_ ?_ moves c
    (Interleaving.Config.meets_imp fun h => (hfit h).moves) ?_ ?_
  · intro request s process hbears hs hp
    exact processStep_sound laws hc.stamps hs hp (fun h => (hfit h).counts) hbears
  · intro s s' process hp hle
    cases process with
    | indexer p => exact hp
    | worker w => exact hp.mono hle
  · refine ⟨?_,hc.linked,[],List.nil_sublist _,rfl⟩
    intro key
    cases web₀.find? key with
    | none => exact .none
    | some record => exact .some (.refl record)
  · intro i
    have hi := hc.processes i
    cases hl : c.locals i with
    | indexer p =>
      rw [hl] at hi
      exact ⟨hi.1,by rw [hi.2]; trivial⟩
    | worker w =>
      rw [hl] at hi
      exact ⟨by rw [hi.1]; trivial,by simp [hi.2]⟩

theorem samplePrograms_laws : Laws samplePrograms id id where
  webStores := memTable_stores
  webReads := memTable_readsRows
  webScans := memTable_scanRuns
  tagStores := memTable_stores
  tagScans := memTable_scanRuns
  userReads := memTable_readsBack

theorem sampleSite_started : Started samplePrograms id id sampleSite where
  linked p hp := absurd hp List.not_mem_nil
  stamps key p hp := by
    change firstPage samplePages key = some p at hp
    rw [firstPage,OrdMap.get,samplePages,OrdMap.find?_single] at hp
    split_ifs at hp with hkey
    · obtain rfl : (5,bytes "x") = p := Option.some.inj hp
      decide
    · exact absurd hp.symm (Option.some_ne_none p)
  counted := rfl
  processes i := by
    cases i with
    | false => exact ⟨fun n => Int.add_nonneg (by decide) (Int.natCast_nonneg n),rfl⟩
    | true => exact ⟨rfl,rfl⟩

/-- The worker takes up a view before the indexer's writes and reads the page after them. -/
def sampleMoves : List (Bool × Option Request) :=
  [(false,none),(true,some sampleView),(false,none),(false,none),(false,none),(true,none),(true,none),(true,none),
    (false,none),(true,none)]

theorem sampleMoves_fit : Fitting samplePrograms sampleSite sampleMoves where
  counts := by decide
  moves := by
    have hview : sampleView.Fits := ⟨rfl,by decide⟩
    have hcounts : ∀ t, rowCount ∅ t + [bytes "a"].count t ≤ 2^31 - 1 := by
      rw [← recordTags_defined_iff]
      exact ⟨_,rfl⟩
    refine ⟨trivial,?_,trivial,trivial,trivial,trivial,trivial,?_,trivial,trivial,trivial⟩
    · intro r hr
      obtain rfl := Option.some.inj hr
      exact hview
    · exact hcounts

/-- In every state the WebTable holds the rows it held, each at most reworked, and
every row of the TagTable leads to a page of it. -/
theorem tables_stay_linked (laws : Laws prog webRows tagRows) (c : Running ι σ τ υ)
    (hc : Started prog webRows tagRows c) (moves : List (ι × Option Request)) :
    let s := (c.run prog moves).shared
    WebKept (webRows c.shared.web) (webRows s.web) ∧ EcWritten (tagRows s.tag) ∧
      ∀ p ∈ (tagRows s.tag).entries, (firstPage (webRows s.web) (urlCell p)).isSome := by
  intro s
  obtain ⟨hs,-⟩ := run_sound laws hc moves False.elim
  refine ⟨hs.web,hs.tag.ecWritten,fun p hp => ?_⟩
  obtain ⟨n,hn⟩ := hs.web.firstPage (urlCell p)
  rw [hn,Option.isSome_map]
  exact hs.tag.url hp

theorem tables_stay_linked_sample :
    (sampleSite.run samplePrograms sampleMoves).shared.tag.size = 1 ∧
      ∀ p ∈ (sampleSite.run samplePrograms sampleMoves).shared.tag.entries,
        (firstPage (sampleSite.run samplePrograms sampleMoves).shared.web (urlCell p)).isSome :=
  ⟨rfl,(tables_stay_linked samplePrograms_laws sampleSite sampleSite_started sampleMoves).2.2⟩

/-- Views may be lost, each as a whole, but none is counted twice or in part, and
no count falls. -/
theorem profile_counts_whole_views (laws : Laws prog webRows tagRows) (c : Running ι σ τ υ)
    (hc : Started prog webRows tagRows c) (moves : List (ι × Option Request)) :
    let row₀ := (prog.usertable.read c.shared.user (bytes "user")).2
    let s := (c.run prog moves).shared
    let row := (prog.usertable.read s.user (bytes "user")).2
    (∃ kept : List (List Bytes), kept.Sublist s.counted ∧ recordTags row₀ kept.flatten = some row) ∧
      ∀ t, rowCount row₀ t ≤ rowCount row t ∧ rowCount row t ≤ rowCount row₀ t + s.counted.flatten.count t := by
  intro row₀ s row
  obtain ⟨hs,-⟩ := run_sound laws hc moves False.elim
  refine ⟨hs.user,fun t => ?_⟩
  obtain ⟨kept,hkept,hrow⟩ := hs.user
  have hle : kept.flatten.count t ≤ s.counted.flatten.count t := hkept.flatten.count_le t
  have hcount : rowCount row t = rowCount row₀ t + kept.flatten.count t := rowCount_recordTags hrow t
  omega

theorem profile_counts_whole_views_sample :
    rowCount (memTable.read (sampleSite.run samplePrograms sampleMoves).shared.user (bytes "user")).2 (bytes "a") ≤ 0 +
      (sampleSite.run samplePrograms sampleMoves).shared.counted.flatten.count (bytes "a") :=
  ((profile_counts_whole_views samplePrograms_laws sampleSite sampleSite_started sampleMoves).2 (bytes "a")).2

/-- A profile that started out absent is never given up on. -/
theorem not_givenUp {lib : CxxLib} {counted : List (List Bytes)} : ¬ GivenUp lib ∅ counted := by
  rintro ⟨row,⟨kept,-,hrow⟩,hsize,hprio⟩
  have hreach : Reachable row := ⟨kept.flatten,hrow⟩
  exact hreach.allPrio_ne_zero hsize lib hprio

/-- No request that fits makes a worker crash. Whatever the requests, every
recommendation is a page of at most ten links to pages of the site, and every view
shows the page of its own url. -/
theorem requests_answered (laws : Laws prog webRows tagRows) (c : Running ι σ τ υ)
    (hc : Started prog webRows tagRows c) (moves : List (ι × Option Request)) (i : ι) (w : Worker)
    (hw : (c.run prog moves).locals i = .worker w) :
    let row₀ := (prog.usertable.read c.shared.user (bytes "user")).2
    let counted := (c.run prog moves).shared.counted
    (Fitting prog c moves → w.job ≠ .crashed) ∧
    (∀ a ∈ w.served, Answered prog.lib (webRows c.shared.web) row₀ counted a.1 a.2) ∧
    (row₀ = ∅ → ¬ GivenUp prog.lib row₀ counted) := by
  intro row₀ counted
  have hsound := (run_sound laws hc moves id).2 i
  rw [hw] at hsound
  refine ⟨fun hfit hcrash => ?_,hsound.served,fun hrow => hrow ▸ not_givenUp⟩
  have hjob := hsound.job
  rw [hcrash] at hjob
  exact hjob hfit

theorem requests_answered_sample :
    ∃ w, (sampleSite.run samplePrograms sampleMoves).locals true = .worker w ∧ w.served.length = 1 ∧
      w.job ≠ .crashed := by
  refine ⟨_,rfl,rfl,?_⟩
  exact (requests_answered samplePrograms_laws sampleSite sampleSite_started sampleMoves true _ rfl).1 sampleMoves_fit

end

end Aret.Site
