import Aret.Engine.ViewWorkers

/-! A view whose `Read` calls may fail one by one. A failed `Read` leaves the
record empty, its answer is ignored, and the row is written back in any case. -/
namespace Aret.Engine
open Lib Tera

/-- What a `Read` of a table that holds `rows` returns when it succeeds and when
it fails. -/
def readOf (rows : TableSlice) (key : Key) (ok : Bool) : Bool × Record :=
  if ok then memTable.read rows key else (false,∅)

def pageReads (web : TableSlice) (content : List (Key × Bool)) : List (Bool × Record) :=
  content.map (fun (url,ok) => readOf web url ok)

def readTags (pages : List (Bool × Record)) : List Bytes :=
  pages.flatMap (fun page => (column page.2 (bytes "tag")).entries.map Prod.snd)

/-- `RecordActions` on a view, given what each of its `Read` calls returns. -/
def recordViews {σ : Type} (usertable : Table σ) (s : σ) (user : Key) (pages : List (Bool × Record))
    (userRow : Bool × Record) : Option σ :=
  (recordTags userRow.2 (readTags pages)).map (fun userRecord => (usertable.write s user userRecord).2)

/-- With answers that only depend on the key it is the call as it stands. -/
theorem recordActions_eq_recordViews {σ : Type} (webtable : Read) (usertable : Table σ) (s : σ) (user : Key)
    (content : List Key) (err : Bytes) :
    (recordActions webtable usertable s user .view content err).map Prod.fst =
      recordViews usertable s user (content.map webtable) (usertable.read s user) := by
  have htags : viewTags webtable content = readTags (content.map webtable) := by
    rw [readTags,List.flatMap_map]
    rfl
  simp [recordActions,recordViews,htags,Function.comp_def]

def readable (content : List (Key × Bool)) : List Key := (content.filter Prod.snd).map Prod.fst

/-- A page that could not be read has no tags. -/
theorem readTags_pageReads (web : TableSlice) (content : List (Key × Bool)) :
    readTags (pageReads web content) = contentTags (memTable.read web) (readable content) := by
  induction content with
  | nil => rfl
  | cons page content ih =>
    obtain ⟨url,ok⟩ := page
    rw [pageReads,List.map_cons,readTags,List.flatMap_cons,← readTags,← pageReads,ih]
    cases ok <;> rfl

theorem find?_recordTags_ne_none {row row' : Record} {tags : List Bytes}
    (h : recordTags row tags = some row') {key : Key}
    (hkey : row.find? key ≠ none) : row'.find? key ≠ none := by
  induction tags generalizing row with
  | nil => exact Option.some.inj h ▸ hkey
  | cons tag tags ih =>
    rw [recordTags_cons] at h
    obtain ⟨mid,hmid,h⟩ := Option.bind_eq_some_iff.mp h
    refine ih h ?_
    rw [bumpTag_eq] at hmid
    split_ifs at hmid
    obtain rfl := Option.some.inj hmid
    rw [OrdMap.find?_insert]
    split_ifs
    · simp
    · exact hkey

def Undamaged (stored after : Record) (userOk : Bool) : Prop :=
  (∀ tag, stored.find? (profileKey tag) ≠ none →
    after.find? (profileKey tag) ≠ none ∧ rowCount stored tag ≤ rowCount after tag) ∧
  (userOk = false → after = stored)

/-- A view leaves a stored profile undamaged exactly when its row was read and no
count passes the top of `int`, or its row was not read and happens to hold just
the counts of the tags viewed. -/
theorem failed_read_iff {σ : Type} {usertable : Table σ} {rows : σ → TableSlice} (hstores : Stores usertable rows)
    (s : σ) (user : Key) (stored : Record) (hstored : (rows s).find? user = some stored) (web : TableSlice)
    (content : List (Key × Bool)) (userOk : Bool) :
    let tags := contentTags (memTable.read web) (readable content)
    (∃ s' after, recordViews usertable s user (pageReads web content) (readOf (rows s) user userOk) = some s' ∧
      (rows s').find? user = some after ∧ Undamaged stored after userOk) ↔
        if userOk then ∀ tag, rowCount stored tag + tags.count tag < 2^31 else Encodes stored tags := by
  intro tags
  obtain ⟨row,hrow⟩ : ∃ row, (readOf (rows s) user userOk).2 = row := ⟨_,rfl⟩
  -- the call writes what it makes of the row it has read
  have hcall : (∃ s' after, recordViews usertable s user (pageReads web content) (readOf (rows s) user userOk) =
      some s' ∧ (rows s').find? user = some after ∧ Undamaged stored after userOk) ↔
        ∃ after, recordTags row tags = some after ∧ Undamaged stored after userOk := by
    rw [recordViews,readTags_pageReads,hrow]
    constructor
    · rintro ⟨s',after,hs',hafter,h⟩
      obtain ⟨new,hnew,rfl⟩ := Option.map_eq_some_iff.mp hs'
      rw [hstores,OrdMap.find?_insert_self] at hafter
      obtain rfl := Option.some.inj hafter
      exact ⟨new,hnew,h⟩
    · rintro ⟨after,hafter,h⟩
      exact ⟨_,after,by rw [hafter]; rfl,by rw [hstores,OrdMap.find?_insert_self],h⟩
  rw [hcall]
  cases userOk with
  | true =>
    obtain rfl : stored = row := by simpa [readOf,memTable,hstored] using hrow
    have hdefined := recordTags_defined_iff stored tags
    rw [if_pos rfl]
    constructor
    · rintro ⟨after,hafter,-⟩ tag
      have hle := hdefined.mp ⟨after,hafter⟩ tag
      omega
    · intro h
      obtain ⟨after,hafter⟩ := hdefined.mpr (fun tag => Int.le_sub_one_of_lt (h tag))
      refine ⟨after,hafter,fun tag hcol => ⟨find?_recordTags_ne_none hafter hcol,?_⟩,by simp⟩
      rw [rowCount_recordTags hafter]
      omega
  | false =>
    obtain rfl : ∅ = row := hrow
    rw [if_neg Bool.false_ne_true]
    constructor
    · rintro ⟨after,hafter,-,hsame⟩
      exact hsame rfl ▸ encodes_of_tags hafter
    · intro h
      obtain ⟨after,hafter⟩ := (recordTags_defined_iff ∅ tags).mpr (fun tag => by
        have hzero : rowCount ∅ tag = 0 := rfl
        have hbound := h.bound tag
        rw [coe_count] at hbound
        omega)
      obtain rfl := h.unique (encodes_of_tags hafter)
      exact ⟨stored,hafter,fun tag hcol => ⟨hcol,le_rfl⟩,fun _ => rfl⟩

def samplePage : TableSlice := .single (bytes "p") (.single (bytes "tag") (.single 0 (bytes "b")))

def sampleProfile : Record := .single (profileKey (bytes "a")) (.single 0 (bytes "3"))

def sampleUser : TableSlice := .single (bytes "user") sampleProfile

theorem failed_read_iff_sample :
    ∃ s' after, recordViews memTable sampleUser (bytes "user") (pageReads samplePage [(bytes "p",true)])
        (readOf sampleUser (bytes "user") true) = some s' ∧ s'.find? (bytes "user") = some after ∧
      Undamaged sampleProfile after true := by
  refine (failed_read_iff memTable_stores sampleUser (bytes "user") sampleProfile rfl samplePage [(bytes "p",true)]
    true).mpr ?_
  rw [if_pos rfl]
  intro tag
  have hnew : (contentTags (memTable.read samplePage) (readable [(bytes "p",true)])).count tag ≤ 1 :=
    List.count_le_length
  have hold : rowCount sampleProfile tag ≤ 3 := by
    by_cases htag : tag = bytes "a"
    · subst htag
      decide
    · have hkey : profileKey tag ≠ profileKey (bytes "a") := fun h => htag (profileKey_injective h)
      have hzero : rowCount sampleProfile tag = 0 := by
        simp [rowCount,cell,column,OrdMap.get,sampleProfile,hkey,atoi]
      omega
  omega

/-- The `Read` of the user row fails: the three views of `a` are gone. -/
theorem failed_read_erases : sampleUser.find? (bytes "user") = some sampleProfile ∧
    rowCount sampleProfile (bytes "a") = 3 ∧
    ∃ s' after, recordViews memTable sampleUser (bytes "user") (pageReads samplePage [(bytes "p",true)])
        (readOf sampleUser (bytes "user") false) = some s' ∧ s'.find? (bytes "user") = some after ∧
      after.find? (profileKey (bytes "a")) = none ∧ ¬ Undamaged sampleProfile after false := by
  refine ⟨by decide,by decide,_,_,rfl,rfl,by decide,?_⟩
  intro h
  exact absurd (h.2 rfl) (by decide)

end Aret.Engine
