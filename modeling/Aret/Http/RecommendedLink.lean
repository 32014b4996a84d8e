import Aret.Http.QueryParse
import Aret.Lib.Openings

/-! Following a recommended link. The page is put together without quotes or
escapes, so that a url is read back only when it holds nothing that ends an
attribute or a `%s`, and an anchor is found in its place only when no text before
it opens another one. -/
namespace Aret.Http
open Lib Tera Engine

/-- White space between attributes: tab, line feed, form feed, carriage return, space. -/
def isHtmlSpace (b : UInt8) : Bool := b == 9 || b == 10 || b == 12 || b == 13 || b == 32

def unquoted (s : Bytes) : Bytes := s.takeWhile (fun b => !isHtmlSpace b && b != 62)

/-- The `href` of each anchor of a page, in order; the tag of an anchor runs up to
the next `>`. -/
def hrefs (html : Bytes) : List Bytes := (openings (bytes "<a href=") 62 false html).map unquoted

/-- The part of a reference behind its first `?`. -/
def queryOf (href : Bytes) : Option Bytes := (href.dropWhile (· ≠ 63)).tail?

/-- What `parse_args` reads when the reference is requested. -/
def follow (href : Bytes) : Option (Bool × Bytes × Bytes) :=
  parseArgs ((queryOf href).map (· ++ bytes " HTTP/1.1")) [] []

def Names (href url : Bytes) : Prop := ∃ ok user, follow href = some (ok,user,url)

def LeadsTo (html : Bytes) (i : Nat) (url : Bytes) : Prop := ∃ href, (hrefs html)[i]? = some href ∧ Names href url

structure Item where
  url : Bytes
  title : Bytes
  tag : Bytes
  deriving DecidableEq, Repr

def Item.html (item : Item) : Bytes := anchor item.url item.title item.tag

def items (lists : Lists) : List Item := List.zipWith3 Item.mk lists.urls lists.desc lists.tags

/-- Nothing that stands behind the tag of its own anchor opens another one. -/
structure Item.Alone (item : Item) : Prop where
  url : ¬ bytes "<a href=" <:+: (item.url.dropWhile (· ≠ 62)).tail
  title : ¬ bytes "<a href=" <:+: item.title
  tag : ¬ bytes "<a href=" <:+: item.tag

/-- Nothing in the url ends an attribute, a `%s` or a C string. -/
def Plain (url : Bytes) : Prop := ∀ b ∈ url, isSpace b = false ∧ b ≠ 62 ∧ b ≠ 0

theorem unquoted_append_gt (s t : Bytes) : unquoted (s ++ 62 :: t) = unquoted s := by
  induction s with
  | nil => simp [unquoted]
  | cons b s ih =>
    rw [unquoted,unquoted,List.cons_append,List.takeWhile_cons,List.takeWhile_cons,← unquoted,← unquoted,ih]

theorem hrefs_append_gt (s t : Bytes) : hrefs (s ++ 62 :: t) = hrefs s ++ hrefs t := by
  rw [hrefs,openings_append_close (by decide) (by decide),List.map_append,List.map_map,hrefs,hrefs]
  congr 2
  funext x
  exact unquoted_append_gt x t

theorem hrefs_eq_nil_iff (s : Bytes) : hrefs s = [] ↔ ¬ bytes "<a href=" <:+: s := by
  rw [hrefs,List.map_eq_nil_iff,openings_eq_nil_iff (by decide)]

def Item.own (item : Item) : Bytes := unquoted (bytes "view?url=" ++ item.url)

private theorem hrefs_own (url : Bytes) :
    hrefs (bytes "<a href=view?url=" ++ url) =
      unquoted (bytes "view?url=" ++ url) :: hrefs (url.dropWhile (· ≠ 62)).tail := by
  have hopen : ∀ s, hrefs (bytes "<a href=view?url=" ++ s) = unquoted (bytes "view?url=" ++ s) ::
      (openings (bytes "<a href=") 62 true (bytes "a href=view?url=" ++ s)).map unquoted := fun s => rfl
  have hown : ∀ {s : Bytes}, 62 ∉ s → hrefs (bytes "<a href=view?url=" ++ s) = [unquoted (bytes "view?url=" ++ s)] := by
    intro s hs
    rw [hopen,openings_opened,List.map_nil]
    simpa [bytes] using hs
  by_cases hgt : 62 ∈ url
  · obtain ⟨u,v,rfl,hu⟩ := List.eq_append_cons_of_mem hgt
    have hpass : ∀ b ∈ u, decide (b ≠ 62) = true := fun b hb => decide_eq_true (fun he => hu (he ▸ hb))
    have hdrop : ((u ++ 62 :: v).dropWhile (· ≠ 62)).tail = v := by
      rw [List.dropWhile_append_of_pos hpass]
      rfl
    rw [hdrop,← List.append_assoc,hrefs_append_gt,hown hu,← List.append_assoc,unquoted_append_gt,List.singleton_append]
  · have hdrop : url.dropWhile (· ≠ 62) = [] := by
      rw [List.dropWhile_eq_nil_iff]
      exact fun b hb => decide_eq_true (fun he => hgt (he ▸ hb))
    rw [hdrop,hown hgt]
    rfl

/-- The references that come with the texts of an item. -/
def Item.brought (item : Item) : List Bytes :=
  hrefs (item.url.dropWhile (· ≠ 62)).tail ++ hrefs (item.title ++ bytes "</a") ++
    hrefs (bytes "Tag: " ++ item.tag ++ bytes "<br/")

def Item.links (item : Item) : List Bytes := item.own :: item.brought

theorem hrefs_item (item : Item) (rest : Bytes) : hrefs (item.html ++ rest) = item.links ++ hrefs rest := by
  have hsplit : item.html ++ rest = (bytes "<a href=view?url=" ++ item.url) ++ 62 :: ((item.title ++ bytes "</a") ++
      62 :: (bytes "<br/" ++ 62 :: ((bytes "Tag: " ++ item.tag ++ bytes "<br/") ++ 62 :: rest))) := by
    simp [Item.html,anchor,bytes]
  have hbr : hrefs (bytes "<br/") = [] := by decide
  rw [hsplit,hrefs_append_gt,hrefs_append_gt,hrefs_append_gt,hrefs_append_gt,hrefs_own,hbr]
  simp [Item.links,Item.own,Item.brought]

private theorem infix_title_iff (title : Bytes) :
    bytes "<a href=" <:+: title ++ bytes "</a" ↔ bytes "<a href=" <:+: title := by
  have hend : ¬ bytes "<a href=" <:+: bytes "</a" := by decide
  have hsplit : bytes "<a href=" <:+: title ++ bytes "</a" ↔
      bytes "<a href=" <:+: title ∨ bytes "<a href=" <:+: bytes "</a" := infix_append_cons_iff (by decide)
  rw [hsplit,or_iff_left hend]

private theorem infix_tag_iff (tag : Bytes) :
    bytes "<a href=" <:+: bytes "Tag: " ++ tag ++ bytes "<br/" ↔ bytes "<a href=" <:+: tag := by
  have hend : ¬ bytes "<a href=" <:+: bytes "<br/" := by decide
  have hstart : bytes "<a href=" <:+: bytes "Tag: " ++ tag ↔ bytes "<a href=" <:+: tag :=
    cons_infix_append_iff (by decide)
  have hsplit : bytes "<a href=" <:+: bytes "Tag: " ++ tag ++ bytes "<br/" ↔
      bytes "<a href=" <:+: bytes "Tag: " ++ tag ∨ bytes "<a href=" <:+: bytes "<br/" :=
        infix_append_cons_iff (by decide)
  rw [hsplit,hstart,or_iff_left hend]

theorem brought_eq_nil_iff (item : Item) : item.brought = [] ↔ item.Alone := by
  simp only [Item.brought,List.append_eq_nil_iff,hrefs_eq_nil_iff,infix_title_iff,infix_tag_iff]
  exact ⟨fun ⟨⟨hurl,htitle⟩,htag⟩ => ⟨hurl,htitle,htag⟩,fun h => ⟨⟨h.url,h.title⟩,h.tag⟩⟩

def page (items : List Item) : Bytes := items.flatMap Item.html

theorem hrefs_page (items : List Item) (rest : Bytes) :
    hrefs (page items ++ rest) = items.flatMap Item.links ++ hrefs rest := by
  induction items with
  | nil => rfl
  | cons item items ih =>
    have hcons : page (item :: items) ++ rest = item.html ++ (page items ++ rest) := by simp [page]
    rw [hcons,hrefs_item,ih,List.flatMap_cons,List.append_assoc]

/-- There are at least as many links as items, and as many only when none opens another anchor. -/
theorem length_links (items : List Item) : items.length ≤ (items.flatMap Item.links).length ∧
    ((items.flatMap Item.links).length = items.length ↔ ∀ item ∈ items, item.Alone) := by
  induction items with
  | nil => simp
  | cons item items ih =>
    have hlen : ((item :: items).flatMap Item.links).length =
        item.brought.length + (items.flatMap Item.links).length + 1 := by
      rw [List.flatMap_cons,List.length_append,Item.links,List.length_cons]
      omega
    rw [hlen,List.length_cons,List.forall_mem_cons,← ih.2,← brought_eq_nil_iff,← List.length_eq_zero_iff]
    omega

/-- The loop of the handler puts one item of the three lists behind the other. -/
theorem recommendLinks_page {lists : Lists} {i : Nat} {urls : List Bytes} {html : Bytes}
    (h : recommendLinks lists i urls = some html) :
    html = page (List.zipWith3 Item.mk urls (lists.desc.drop i) (lists.tags.drop i)) ∧
      (List.zipWith3 Item.mk urls (lists.desc.drop i) (lists.tags.drop i)).map Item.url = urls := by
  induction urls generalizing i html with
  | nil => exact ⟨(Option.some.inj h).symm,rfl⟩
  | cons url urls ih =>
    rw [recommendLinks] at h
    split at h
    · rename_i title tag rest htitle htag hrest
      obtain ⟨rfl,hurls⟩ := ih hrest
      obtain rfl := Option.some.inj h
      have hdesc : lists.desc.drop i = title :: lists.desc.drop (i + 1) := by
        rw [List.drop_eq_getElem?_toList_append,htitle]
        rfl
      have htags : lists.tags.drop i = tag :: lists.tags.drop (i + 1) := by
        rw [List.drop_eq_getElem?_toList_append,htag]
        rfl
      rw [hdesc,htags,List.zipWith3,List.map_cons,hurls]
      exact ⟨rfl,rfl⟩
    · exact absurd h.symm (Option.some_ne_none html)

/-- What the handler answers with is its failure text or the page of the items recommended. -/
theorem recommendHandler_page {lib : CxxLib} {usertable : Read} {tagtable : Scan} {lastRand cursor : Key} {ngx : Nginx}
    {method : Method} {err content : Bytes} {response : Response}
    (h : recommendHandler lib usertable tagtable lastRand ngx method = some (.answered err content response,cursor)) :
    content = bytes "GetRecommend fail~" ∨ ∃ out,
      getRecommend lib usertable tagtable lastRand (bytes "user") 10 .empty = some out ∧
        content = page (items out.lists) ∧ (items out.lists).map Item.url = out.lists.urls := by
  simp only [recommendHandler] at h
  split_ifs at h with hallowed
  · simp at h
  · obtain ⟨out,hout,h⟩ := Option.bind_eq_some_iff.mp h
    obtain ⟨html,hhtml,h⟩ := Option.bind_eq_some_iff.mp h
    obtain ⟨r,-,heq⟩ := Option.map_eq_some_iff.mp h
    simp only [Prod.mk.injEq,Outcome.answered.injEq] at heq
    obtain ⟨⟨-,rfl,-⟩,-⟩ := heq
    split_ifs at hhtml with hret
    · exact Or.inr ⟨out,hout,recommendLinks_page hhtml⟩
    · exact Or.inl (Option.some.inj hhtml).symm

theorem gt_notMem_unquoted (s : Bytes) : 62 ∉ unquoted s := by
  intro h
  have hpass := List.mem_takeWhile_imp h
  simp at hpass

theorem url_of_parseArgs {memory user url : Bytes} {ok : Bool} (h : parseArgs (some memory) [] [] = some (ok,user,url))
    (hne : url ≠ []) : ∃ rest, cString memory = bytes "url=" ++ rest ∧ url = word rest := by
  have hempty : ∀ {out : Bool × Bytes × Bytes}, some out = some (ok,user,url) → out.2.2 ≠ [] :=
    fun h => Option.some.inj h ▸ hne
  cases leading (cString memory) with
  | user rest hrest =>
    rw [parseArgs_user [] [] hrest] at h
    split_ifs at h
    exact absurd rfl (hempty h)
  | url rest hrest =>
    rw [parseArgs_url [] [] hrest] at h
    split_ifs at h
    · exact absurd rfl (hempty h)
    · exact ⟨rest,hrest,(congrArg (fun out => out.2.2) (Option.some.inj h)).symm⟩
  | other huser hurl =>
    rw [parseArgs_other [] [] huser hurl] at h
    exact absurd rfl (hempty h)

theorem mem_of_queryOf {href q : Bytes} (h : queryOf href = some q) {b : UInt8} (hb : b ∈ q) : b ∈ href := by
  apply (List.dropWhile_sublist (fun b => decide (b ≠ 63))).mem
  rw [queryOf] at h
  cases hd : href.dropWhile (· ≠ 63) with
  | nil =>
    rw [hd] at h
    exact absurd h.symm (Option.some_ne_none q)
  | cons c t =>
    rw [hd] at h
    exact List.mem_cons_of_mem c (Option.some.inj h ▸ hb)

/-- The answer to the view of a url: it is recorded and its page shown. -/
def viewOf {σ : Type} (webtable : Read) (usertable : Table σ) (s : σ) (ngx : Nginx) (method : Method) (url : Key) :
    Option (Outcome × σ) :=
  (recordActions webtable usertable s (bytes "user") .view [url] []).bind (fun (s,_,err) =>
    (respond ngx method err (viewHtml webtable url)).map
      (fun response => (.answered err (viewHtml webtable url) response,s)))

theorem Names.viewed {href url : Bytes} (h : Names href url) {σ : Type} (webtable : Read) (usertable : Table σ) (s : σ)
    (ngx : Nginx) {method : Method} (hallowed : method.allowed = true) :
    viewHandler webtable usertable s ngx method ((queryOf href).map (· ++ bytes " HTTP/1.1")) =
      viewOf webtable usertable s ngx method url := by
  obtain ⟨ok,user,hfollow⟩ := h
  rw [follow] at hfollow
  rw [viewHandler,hallowed,Bool.not_true,if_neg Bool.false_ne_true,hfollow,Option.bind_some,viewOf]

theorem Names.plain {href url : Bytes} (hgt : 62 ∉ href) (hne : url ≠ []) (h : Names href url) : Plain url := by
  obtain ⟨ok,user,h⟩ := h
  rw [follow] at h
  cases hq : queryOf href with
  | none =>
    rw [hq] at h
    exact absurd h.symm (Option.some_ne_none _)
  | some q =>
    rw [hq,Option.map_some] at h
    obtain ⟨rest,hrest,rfl⟩ := url_of_parseArgs h hne
    intro b hb
    have hin : b ∈ cString (q ++ bytes " HTTP/1.1") := by
      rw [hrest]
      apply List.mem_append_right
      exact (List.dropWhile_sublist _).mem ((List.takeWhile_sublist _).mem hb)
    have hspace : (!isSpace b) = true := List.mem_takeWhile_imp (l := rest.dropWhile isSpace) hb
    have hnul : decide (b ≠ 0) = true := List.mem_takeWhile_imp (l := q ++ bytes " HTTP/1.1") hin
    refine ⟨by simpa using hspace,?_,by simpa using hnul⟩
    rintro rfl
    rcases List.mem_append.mp ((List.takeWhile_sublist _).mem hin) with hin | hin
    · exact hgt (mem_of_queryOf hq hin)
    · exact absurd hin (by decide)

theorem isHtmlSpace_of_isSpace {b : UInt8} (h : isSpace b = false) : isHtmlSpace b = false := by
  rw [Bool.eq_false_iff]
  intro hb
  simp only [isHtmlSpace,Bool.or_eq_true,beq_iff_eq] at hb
  rcases hb with (((rfl | rfl) | rfl) | rfl) | rfl
  all_goals exact absurd h (by decide)

theorem Plain.own {item : Item} (h : Plain item.url) : item.own = bytes "view?url=" ++ item.url := by
  rw [Item.own,unquoted,List.takeWhile_eq_self_iff,List.forall_mem_append]
  refine ⟨by simp [bytes,isHtmlSpace],fun b hb => ?_⟩
  simp [isHtmlSpace_of_isSpace (h b hb).1,(h b hb).2.1]

theorem own_names_iff {item : Item} (hne : item.url ≠ []) (hlen : item.url.length < 1024) :
    Names item.own item.url ↔ Plain item.url := by
  refine ⟨fun h => h.plain (gt_notMem_unquoted _) hne,fun h => ⟨true,[],?_⟩⟩
  have hquery : queryOf item.own = some (bytes "url=" ++ item.url) := by
    rw [h.own]
    rfl
  have hnul : 0 ∉ bytes "url=" ++ (item.url ++ bytes " HTTP/1.1") := by
    have hurl : 0 ∉ item.url := fun hb => (h 0 hb).2.2 rfl
    simp [bytes,hurl]
  have hword : word (item.url ++ bytes " HTTP/1.1") = item.url :=
    word_append_cons (fun b hb => (h b hb).1) hne (by decide) _
  rw [follow,hquery,Option.map_some,List.append_assoc,parseArgs_url [] [] (cString_of_notMem hnul),hword,if_neg hne,
    if_pos hlen]

/-- The text of a reference to a url: `?url=` and the url, with at most blanks in
between; what nginx finds behind the reference in the request line ends it. -/
def RefersTo (href url : Bytes) : Prop :=
  ∃ path rest, href = path ++ bytes "?url=" ++ rest ∧ 63 ∉ path ∧ ReadsAs (rest ++ bytes " HTTP/1.1") url

theorem queryOf_eq_some_iff {href q : Bytes} : queryOf href = some q ↔ ∃ path, href = path ++ 63 :: q ∧ 63 ∉ path := by
  constructor
  · intro h
    refine ⟨href.takeWhile (· ≠ 63),?_,fun hmem => by simpa using List.mem_takeWhile_imp hmem⟩
    nth_rewrite 1 [← List.takeWhile_append_dropWhile (p := (· ≠ 63)) (l := href)]
    have hhead := List.head?_dropWhile_not (fun b => decide (b ≠ (63 : UInt8))) href
    rw [queryOf] at h
    cases hd : href.dropWhile (· ≠ 63) with
    | nil =>
      rw [hd] at h
      exact absurd h.symm (Option.some_ne_none q)
    | cons c t =>
      rw [hd] at h hhead
      obtain rfl : t = q := Option.some.inj h
      obtain rfl : c = 63 := by simpa using hhead
      rfl
  · rintro ⟨path,rfl,hpath⟩
    have hpass : ∀ b ∈ path, decide (b ≠ 63) = true := fun b hb => decide_eq_true (fun he => hpath (he ▸ hb))
    rw [queryOf,List.dropWhile_append_of_pos hpass]
    rfl

theorem names_iff_refersTo {href url : Bytes} (hplain : ∀ b ∈ url, isSpace b = false ∧ b ≠ 0) (hne : url ≠ [])
    (hlen : url.length < 1024) : Names href url ↔ RefersTo href url := by
  have hread : ∀ rest, cString (bytes "url=" ++ rest ++ bytes " HTTP/1.1") =
      bytes "url=" ++ cString (rest ++ bytes " HTTP/1.1") := fun rest => by
    rw [List.append_assoc,cString_append_of_notMem (by decide)]
  constructor
  · rintro ⟨ok,user,h⟩
    rw [follow] at h
    obtain ⟨q,hq⟩ : ∃ q, queryOf href = some q := by
      rw [← Option.isSome_iff_exists]
      by_contra hno
      rw [Option.not_isSome_iff_eq_none] at hno
      rw [hno] at h
      exact absurd h.symm (Option.some_ne_none _)
    obtain ⟨path,rfl,hpath⟩ := queryOf_eq_some_iff.mp hq
    rw [hq,Option.map_some] at h
    obtain ⟨word,hword,hurl⟩ := url_of_parseArgs h hne
    obtain ⟨rest,rfl⟩ : bytes "url=" <+: q := by
      have hmemory : bytes "url=" <+: q ++ 32 :: bytes "HTTP/1.1" :=
        ⟨word ++ _,by rw [← List.append_assoc,← hword]; exact List.takeWhile_append_dropWhile⟩
      exact (prefix_append_of_notMem (by decide)).mp hmemory
    rw [hread,List.append_cancel_left_eq] at hword
    refine ⟨path,rest,by simp [bytes],hpath,(word_cString_eq_iff hplain hne).mp ?_⟩
    rw [hword,hurl]
  · rintro ⟨path,rest,rfl,hpath,hreads⟩
    have hq : queryOf (path ++ bytes "?url=" ++ rest) = some (bytes "url=" ++ rest) :=
      queryOf_eq_some_iff.mpr ⟨path,by simp [bytes],hpath⟩
    have hword := (word_cString_eq_iff hplain hne).mpr hreads
    refine ⟨true,[],?_⟩
    rw [follow,hq,Option.map_some,parseArgs_url [] [] (hread rest),hword,if_neg hne,if_pos hlen]

/-- A link in the texts of the items before the `i`-th takes its place and refers
to the same url. -/
def Strayed (before : List Item) (i : Nat) (url : Bytes) : Prop :=
  ∃ href, (before.flatMap Item.links)[i]? = some href ∧ RefersTo href url

theorem plain_of_link {items : List Item} {i : Nat} {href url : Bytes}
    (hget : (items.flatMap Item.links)[i]? = some href)
    (hne : url ≠ []) (hnames : Names href url) : Plain url := by
  have hmem : href ∈ hrefs (page items ++ []) := by
    rw [hrefs_page]
    exact List.mem_append_left _ (List.mem_of_getElem? hget)
  obtain ⟨s,-,rfl⟩ := List.mem_map.mp hmem
  exact hnames.plain (gt_notMem_unquoted s) hne

/-- The anchor in the `i`-th place is the item's own exactly when the items before
it open no other; else it is one of theirs. -/
theorem leadsTo_iff {items : List Item} {i : Nat} {item : Item} (hitem : items[i]? = some item) (hne : item.url ≠ [])
    (hlen : item.url.length < 1024) :
    LeadsTo (page items) i item.url ↔
      Plain item.url ∧ ((∀ earlier ∈ items.take i, earlier.Alone) ∨ Strayed (items.take i) i item.url) := by
  obtain ⟨hi,hget⟩ := List.getElem?_eq_some_iff.mp hitem
  have hsplit : hrefs (page items) = (items.take i).flatMap Item.links ++
      item.own :: (item.brought ++ hrefs (page (items.drop (i + 1)))) := by
    have hitems : items = items.take i ++ item :: items.drop (i + 1) := by
      rw [← hget,List.getElem_cons_drop,List.take_append_drop]
    have hpage : page items = page (items.take i) ++ (item.html ++ page (items.drop (i + 1))) := by
      nth_rewrite 1 [hitems]
      simp [page]
    rw [hpage,hrefs_page,hrefs_item,Item.links,List.cons_append]
  obtain ⟨hle,halone⟩ := length_links (items.take i)
  rw [List.length_take_of_le hi.le] at hle halone
  by_cases hall : ∀ earlier ∈ items.take i, earlier.Alone
  · have hown : (hrefs (page items))[i]? = some item.own := by
      rw [hsplit,List.getElem?_append_right (halone.mpr hall).le,halone.mpr hall,Nat.sub_self]
      rfl
    have hleads : LeadsTo (page items) i item.url ↔ Names item.own item.url := by
      rw [LeadsTo,hown]
      exact ⟨fun ⟨href,heq,h⟩ => Option.some.inj heq ▸ h,fun h => ⟨item.own,rfl,h⟩⟩
    rw [hleads,own_names_iff hne hlen]
    exact (and_iff_left (Or.inl hall)).symm
  · have hlt : i < ((items.take i).flatMap Item.links).length :=
      lt_of_le_of_ne hle (fun heq => hall (halone.mp heq.symm))
    have hrefers : Plain item.url → ∀ href, Names href item.url ↔ RefersTo href item.url :=
      fun h href => names_iff_refersTo (fun b hb => ⟨(h b hb).1,(h b hb).2.2⟩) hne hlen
    rw [LeadsTo,hsplit,List.getElem?_append_left hlt,Strayed,or_iff_right hall]
    constructor
    · rintro ⟨href,hlink,hnames⟩
      have hplain := plain_of_link hlink hne hnames
      exact ⟨hplain,href,hlink,(hrefers hplain href).mp hnames⟩
    · rintro ⟨hplain,href,hlink,hrefer⟩
      exact ⟨href,hlink,(hrefers hplain href).mpr hrefer⟩

/-- A link on the recommendation page leads back exactly when its url is plain and
the items before it open no anchor besides their own, unless one of these happens
to name the same url. -/
theorem recommended_link_leads_back_iff {lists : Lists} {html : Bytes}
    (hhtml : recommendLinks lists 0 lists.urls = some html) {i : Nat} {url : Bytes} (hurl : lists.urls[i]? = some url)
    (hne : url ≠ []) (hlen : url.length < 1024) :
    LeadsTo html i url ↔
      Plain url ∧ ((∀ earlier ∈ (items lists).take i, earlier.Alone) ∨ Strayed ((items lists).take i) i url) := by
  obtain ⟨rfl,hurls⟩ := recommendLinks_page hhtml
  rw [List.drop_zero,List.drop_zero] at hurls ⊢
  rw [← hurls,List.getElem?_map,Option.map_eq_some_iff] at hurl
  obtain ⟨item,hitem,rfl⟩ := hurl
  exact leadsTo_iff hitem hne hlen

theorem second_link_leads_back :
    ∃ html, recommendLinks ⟨[bytes "a",bytes "b"],[bytes "A",bytes "B"],[bytes "t",bytes "t"]⟩ 0 [bytes "a",bytes "b"] =
      some html ∧ LeadsTo html 1 (bytes "b") := by
  have hhtml : recommendLinks ⟨[bytes "a",bytes "b"],[bytes "A",bytes "B"],[bytes "t",bytes "t"]⟩ 0
      [bytes "a",bytes "b"] = some _ := rfl
  refine ⟨_,hhtml,(recommended_link_leads_back_iff hhtml rfl (by decide) (by decide)).mpr ⟨?_,Or.inl ?_⟩⟩
  · simp [Plain,bytes,isSpace]
  · intro earlier hmem
    obtain rfl : earlier = ⟨bytes "a",bytes "A",bytes "t"⟩ := List.mem_singleton.mp hmem
    exact ⟨by decide,by decide,by decide⟩

private theorem leadsTo_only {html href url url' : Bytes} {i : Nat} (hhref : (hrefs html)[i]? = some href)
    (hfollow : follow href = some (true,[],url)) (hne : url ≠ url') : LeadsTo html i url ∧ ¬ LeadsTo html i url' := by
  refine ⟨⟨href,hhref,true,[],hfollow⟩,?_⟩
  rintro ⟨href',hhref',ok,user,hfollow'⟩
  obtain rfl := Option.some.inj (hhref.symm.trans hhref')
  exact hne (congrArg (fun out => out.2.2) (Option.some.inj (hfollow.symm.trans hfollow')))

/-- The link to `a b` leads to `a`; behind a title with an anchor of its own the
second link leads where that one does. -/
theorem link_leads_astray :
    (∃ html, recommendLinks ⟨[bytes "a b"],[bytes "A"],[bytes "t"]⟩ 0 [bytes "a b"] = some html ∧
      LeadsTo html 0 (bytes "a") ∧ ¬ LeadsTo html 0 (bytes "a b")) ∧
    ∃ html, recommendLinks ⟨[bytes "a",bytes "b"],[bytes "<a href=view?url=c>",bytes "B"],[bytes "t",bytes "t"]⟩ 0
      [bytes "a",bytes "b"] = some html ∧ LeadsTo html 1 (bytes "c") ∧ ¬ LeadsTo html 1 (bytes "b") := by
  have hspace : follow (bytes "view?url=a") = some (true,[],bytes "a") := by decide
  have htitle : follow (bytes "view?url=c") = some (true,[],bytes "c") := by decide
  exact ⟨⟨_,rfl,leadsTo_only (by decide) hspace (by decide)⟩,⟨_,rfl,leadsTo_only (by decide) htitle (by decide)⟩⟩

end Aret.Http
