import Aret.Engine.RecommendLists
import Aret.Http.ResponseBody
import Aret.Indexer.IndexIntegrity
import Aret.Site.Processes

/-! The processes against the programs they are cut from. Left alone, a process does
what its program does; and as workers only ever write the user table, an indexer
is left alone by all of them. -/
namespace Aret.Site
open Lib Tera Engine Indexer Http

/-- `f` leads from `a` to `b`. -/
def Reaches {α : Type} (f : α → α) (a b : α) : Prop := ∃ n, f^[n] a = b

theorem Reaches.refl {α : Type} (f : α → α) (a : α) : Reaches f a a := ⟨0,rfl⟩

theorem Reaches.trans {α : Type} {f : α → α} {a b c : α} (hab : Reaches f a b) (hbc : Reaches f b c) :
    Reaches f a c := by
  obtain ⟨m,rfl⟩ := hab
  obtain ⟨n,rfl⟩ := hbc
  exact ⟨n + m,Function.iterate_add_apply f n m a⟩

theorem Reaches.step {α : Type} {f : α → α} {a b c : α} (hab : f a = b) (hbc : Reaches f b c) : Reaches f a c :=
  Reaches.trans ⟨1,hab⟩ hbc

theorem Reaches.head {α : Type} {f : α → α} {a c : α} (h : Reaches f (f a) c) : Reaches f a c := .step rfl h

section
variable {σ τ : Type} (env : Env σ τ) (endKey : Key)

theorem tags_alone (rowKey title : Bytes) (ts : Int) (todo : List (Key × Record)) (kws : List Bytes) (i : Nat)
    (st : State σ τ) (record : Record) :
    Reaches (indexerStep env endKey) (st,.tags rowKey title ts kws i record todo)
      (let out := tagLoop env rowKey title ts kws i (st,record)
      ({ out.1 with
        web := (env.table.write out.1.web rowKey out.2).2
        log := out.1.log ++ [.webWrite rowKey out.2] },.rows todo)) := by
  induction kws generalizing i st record with
  | nil => exact .head (.refl _ _)
  | cons kw kws ih => exact .head (ih _ _ _)

theorem row_alone (st : State σ τ) (row : Key × Record) (todo : List (Key × Record)) :
    Reaches (indexerStep env endKey) (st,.rows (row :: todo)) (processRow env st row,.rows todo) := by
  obtain ⟨rowKey,record⟩ := row
  apply Reaches.head
  simp only [indexerStep,processRow]
  split_ifs with hyear
  · exact .refl _ _
  · cases (column record (bytes "page")).entries with
    | nil => exact .refl _ _
    | cons p cells => exact tags_alone env endKey _ _ _ _ _ _ _ _

theorem rows_alone (rows : List (Key × Record)) (st : State σ τ) :
    Reaches (indexerStep env endKey) (st,.rows rows) (rows.foldl (processRow env) st,.scan) := by
  induction rows generalizing st with
  | nil => exact .head (.refl _ _)
  | cons row rows ih => exact (row_alone env endKey st row rows).trans (ih _)

/-- Left alone, an indexer does what its program says. -/
theorem mainLoop_alone {fuel : Nat} {st final : State σ τ} (h : mainLoop env endKey fuel st = some final) :
    Reaches (indexerStep env endKey) (st,.scan) (final,.stop) := by
  induction fuel generalizing st with
  | zero => simp [mainLoop] at h
  | succ fuel ih =>
    apply Reaches.head
    simp only [mainLoop] at h
    simp only [indexerStep]
    split_ifs at h ⊢ with hcond hempty
    · exact Option.some.inj h ▸ .refl _ _
    · exact (rows_alone env endKey _ st).trans (ih h)
    · exact Option.some.inj h ▸ .refl _ _

end

section
variable {σ τ υ : Type} (prog : Programs σ τ υ) (s : Servers σ τ υ) (w : Worker)

/-- The worker has answered as the handler would, or has crashed with it. -/
def Worker.Ends (w : Worker) (result : Option (Outcome × Key)) (w' : Worker) : Prop :=
  match result with
  | some (outcome,cursor) => w' = { w with lastRand := cursor }.answer outcome
  | none => w'.job = .crashed

theorem profileLoop_cons (fp : Rounding 53) (lib : CxxLib) (tagtable : Scan) (di : ℚ) (num : Int) (item : TagItem)
    (rest : List TagItem) (st : Lists × Bytes) :
    profileLoop fp lib tagtable di num (item :: rest) st =
      (profileLoop fp lib tagtable di num [item] st).bind (profileLoop fp lib tagtable di num rest) := by
  obtain ⟨lists,serr⟩ := st
  rw [profileLoop,profileLoop]
  cases tagNum fp item.num di num <;> rfl

theorem tagScan_alone (di : ℚ) (todo : List TagItem) (lists : Lists) (serr : Bytes) :
    ∃ w', Reaches (workerStep prog none) (s,{ w with job := .tagScan di todo lists serr }) (s,w') ∧
      match profileLoop double prog.lib (prog.tagtable.scan s.tag) di 10 todo (lists,serr) with
      | some out => w' = { w with job := .fillScan out.1 out.2 }
      | none => w'.job = .crashed := by
  induction todo generalizing lists serr with
  | nil => exact ⟨_,.head (.refl _ _),rfl⟩
  | cons item todo ih =>
    rw [profileLoop_cons]
    cases hone : profileLoop double prog.lib (prog.tagtable.scan s.tag) di 10 [item] (lists,serr) with
    | none =>
      have hstep : workerStep prog none (s,{ w with job := .tagScan di (item :: todo) lists serr }) =
          (s,w.crash) := by simp [workerStep,hone,Worker.crash]
      exact ⟨_,.step hstep (.refl _ _),rfl⟩
    | some out =>
      have hstep : workerStep prog none (s,{ w with job := .tagScan di (item :: todo) lists serr }) =
          (s,{ w with job := .tagScan di todo out.1 out.2 }) := by simp [workerStep,hone]
      obtain ⟨w',hreach,hends⟩ := ih out.1 out.2
      exact ⟨w',.step hstep hreach,hends⟩

theorem showRecommend_ends (lastRand : Key) (job : Job) (out : Recommendation) :
    w.Ends ((if out.ret then recommendLinks out.lists 0 out.lists.urls else some (bytes "GetRecommend fail~")).bind
        (fun content => (respond w.request.ngx w.request.method out.err content).map
          (fun response => (.answered out.err content response,out.lastRand))))
      ({ w with lastRand, job }.showRecommend out) := by
  rw [Worker.showRecommend]
  cases (if out.ret then recommendLinks out.lists 0 out.lists.urls else some (bytes "GetRecommend fail~")) with
  | none => rfl
  | some content =>
    simp only [Worker.respond,Option.bind_some]
    cases respond w.request.ngx w.request.method out.err content with
    | none => rfl
    | some response => rfl

/-- What `GetRecommend` and the handler make of the result of the fill. -/
def afterFill (w : Worker) (serr : Bytes) (result : Option (Bool × Lists × Key)) : Option (Outcome × Key) :=
  result.bind (fun (ret,lists,lastRand) =>
    let err := serr ++ bytes "url_num: " ++ decimal lists.urls.length ++ bytes ", title_num: " ++
      decimal lists.desc.length ++ bytes "<br/>\n"
    (if ret then recommendLinks { lists with tags := lists.tags.map stripKey } 0 lists.urls
      else some (bytes "GetRecommend fail~")).bind
        (fun content => (respond w.request.ngx w.request.method err content).map
          (fun response => (.answered err content response,lastRand))))

theorem fill_ends (lastRand : Key) (job : Job) (slice : TableSlice) (lists : Lists) (serr : Bytes) :
    w.Ends (afterFill w serr ((randomRecommendLoop (fillNum 10 lists.urls.length) slice.entries 0
        (lists,lastRand)).map (fun st => (true,st))))
      ({ w with lastRand, job }.fill slice lists serr) := by
  simp only [Worker.fill]
  cases randomRecommendLoop (fillNum 10 lists.urls.length) slice.entries 0 (lists,lastRand) with
  | none => rfl
  | some st => exact showRecommend_ends w lastRand job ⟨true,{ st.1 with tags := st.1.tags.map stripKey },_,st.2⟩

theorem fillScan_alone (lists : Lists) (serr : Bytes) :
    ∃ w', Reaches (workerStep prog none) (s,{ w with job := .fillScan lists serr }) (s,w') ∧
      w.Ends (afterFill w serr (randomRecommend (prog.tagtable.scan s.tag) (fillNum 10 lists.urls.length) lists
        w.lastRand)) w' := by
  rw [randomRecommend,randomScan]
  cases hok : (prog.tagtable.scan s.tag w.lastRand (bytes "~")).1 with
  | true =>
    refine ⟨_,.head (.refl _ _),?_⟩
    simp only [hok,if_true]
    exact fill_ends w w.lastRand _ _ lists serr
  | false =>
    have hreset : workerStep prog none (s,{ w with job := .fillScan lists serr }) =
        (s,{ w with lastRand := [], job := .refillScan lists serr }) := by simp [workerStep,hok]
    refine ⟨_,.step hreset (.step rfl (.refl _ _)),?_⟩
    simp only [hok,Bool.false_eq_true,if_false]
    exact fill_ends w [] _ _ lists serr

/-- `GetRecommend` from its second half on. -/
theorem afterFill_eq (serr : Bytes) (lists : Lists) (tagtable : Scan) :
    ((randomRecommend tagtable (fillNum 10 lists.urls.length) lists w.lastRand).map (fun (ret,lists,lastRand) =>
      let serr := serr ++ bytes "url_num: " ++ decimal lists.urls.length ++ bytes ", title_num: " ++
        decimal lists.desc.length ++ bytes "<br/>\n"
      (⟨ret,{ lists with tags := lists.tags.map stripKey },serr,lastRand⟩ : Recommendation))).bind (fun out =>
        (if out.ret then recommendLinks out.lists 0 out.lists.urls else some (bytes "GetRecommend fail~")).bind
          (fun content => (respond w.request.ngx w.request.method out.err content).map
            (fun response => (.answered out.err content response,out.lastRand)))) =
      afterFill w serr (randomRecommend tagtable (fillNum 10 lists.urls.length) lists w.lastRand) := by
  rw [afterFill,Option.bind_map]
  rfl

/-- Left alone, a worker answers as the handler of `/recommend` does. -/
theorem recommend_alone (ngx : Nginx) (method : Method) :
    ∃ w', Reaches (workerStep prog none) (s,w.start (.recommend ngx method)) (s,w') ∧
      { w with request := .recommend ngx method }.Ends
        (recommendHandler prog.lib (prog.usertable.read s.user) (prog.tagtable.scan s.tag) w.lastRand ngx method)
        w' := by
  cases hallowed : method.allowed with
  | false =>
    simp only [Worker.start,Request.method,recommendHandler,hallowed,Bool.not_false,if_true]
    exact ⟨_,.refl _ _,rfl⟩
  | true =>
    simp only [Worker.start,Request.method,recommendHandler,hallowed,Bool.not_true,Bool.false_eq_true,if_false]
    obtain ⟨ok,row,hrow⟩ : ∃ ok row, prog.usertable.read s.user (bytes "user") = (ok,row) := ⟨_,_,rfl⟩
    have hprofile : workerStep prog none (s,{ w with request := .recommend ngx method, job := .profileRead }) =
        (s,{ w with request := .recommend ngx method, job := .profileRead }.profile prog.lib ok row) := by
      simp [workerStep,hrow]
    simp only [getRecommend,getRecommendWith,hrow,profilePart]
    split_ifs with hread hprio
    · refine ⟨_,.step hprofile (.refl _ _),?_⟩
      simp only [Worker.profile,hread,hprio,if_true]
      exact showRecommend_ends { w with request := .recommend ngx method } w.lastRand _ ⟨false,.empty,_,w.lastRand⟩
    · rw [Worker.profile,if_pos hread,if_neg hprio] at hprofile
      obtain ⟨scanned,hscans,hends⟩ := tagScan_alone prog s { w with request := .recommend ngx method }
        (double.round (1 / allPrio ((prog.lib.sort (tagItems row)).take 5))) ((prog.lib.sort (tagItems row)).take 5)
        .empty
        (bytes "di= " ++ prog.lib.showDouble (double.round (1 / allPrio ((prog.lib.sort (tagItems row)).take 5))) ++
          bytes "<br/>\n")
      revert hends
      cases profileLoop double prog.lib (prog.tagtable.scan s.tag) _ 10 _ (Lists.empty,_) with
      | none => exact fun hends => ⟨scanned,.step hprofile hscans,hends⟩
      | some out =>
        rintro rfl
        obtain ⟨w',hreach,hends⟩ := fillScan_alone prog s { w with request := .recommend ngx method } out.1 out.2
        refine ⟨w',.step hprofile (hscans.trans hreach),?_⟩
        rw [← afterFill_eq] at hends
        exact hends
    · rw [Worker.profile,if_neg hread] at hprofile
      obtain ⟨w',hreach,hends⟩ := fillScan_alone prog s { w with request := .recommend ngx method } .empty []
      refine ⟨w',.step hprofile hreach,?_⟩
      rw [← afterFill_eq] at hends
      exact hends

/-- Left alone, a worker answers as the handler of `/view` does, and leaves the
same profile behind. -/
theorem view_alone (ngx : Nginx) (method : Method) (args : Option Bytes) :
    ∃ s' w', Reaches (workerStep prog none) (s,w.start (.view ngx method args)) (s',w') ∧
      match viewHandler (prog.webtable.read s.web) prog.usertable s.user ngx method args with
      | some (outcome,user) =>
        s'.web = s.web ∧ s'.tag = s.tag ∧ s'.user = user ∧
          w' = { w with request := .view ngx method args }.answer outcome
      | none => w'.job = .crashed := by
  cases hallowed : method.allowed with
  | false =>
    simp only [Worker.start,Request.method,viewHandler,hallowed,Bool.not_false,if_true]
    exact ⟨_,_,.refl _ _,rfl,rfl,rfl,rfl⟩
  | true =>
    simp only [Worker.start,Request.method,viewHandler,hallowed,Bool.not_true,Bool.false_eq_true,if_false]
    cases hparse : parseArgs args [] [] with
    | none => exact ⟨_,_,.refl _ _,rfl⟩
    | some out =>
      obtain ⟨ok,user,url⟩ := out
      simp only [recordActions,Option.bind_some,ne_eq,not_true_eq_false,if_false]
      cases hrow : recordTags (prog.usertable.read s.user (bytes "user")).2
          (viewTags (prog.webtable.read s.web) [url]) with
      | none =>
        refine ⟨_,_,.head (.head (.head (.refl _ _))),?_⟩
        simp [hrow,Worker.crash]
      | some row =>
        refine ⟨_,_,.head (.head (.head (.head (.refl _ _)))),?_⟩
        simp only [hrow,Worker.respond,Request.ngx,Request.method,Option.map_some,Option.bind_some]
        cases respond ngx method _ (viewHtml (prog.webtable.read s.web) url) with
        | none => rfl
        | some response => exact ⟨trivial,trivial,rfl,rfl⟩

end

/-- A request served without interruption is answered as its handler answers it. -/
theorem served_alone {σ τ υ : Type} (prog : Programs σ τ υ) (s : Servers σ τ υ) (w : Worker) (ngx : Nginx)
    (method : Method) (args : Option Bytes) :
    (∃ w', Reaches (workerStep prog none) (s,w.start (.recommend ngx method)) (s,w') ∧
      match recommendHandler prog.lib (prog.usertable.read s.user) (prog.tagtable.scan s.tag) w.lastRand ngx method with
      | some (outcome,cursor) =>
        w' = { w with request := .recommend ngx method, lastRand := cursor }.answer outcome
      | none => w'.job = .crashed) ∧
    ∃ s' w', Reaches (workerStep prog none) (s,w.start (.view ngx method args)) (s',w') ∧
      match viewHandler (prog.webtable.read s.web) prog.usertable s.user ngx method args with
      | some (outcome,user) =>
        s'.web = s.web ∧ s'.tag = s.tag ∧ s'.user = user ∧
          w' = { w with request := .view ngx method args }.answer outcome
      | none => w'.job = .crashed :=
  ⟨recommend_alone prog s w ngx method,view_alone prog s w ngx method args⟩

section
variable {σ τ υ : Type} (prog : Programs σ τ υ)

def packed (endKey : Key) (getMicros : Nat → Int) (x : State σ τ × Pc) : (σ × τ) × IndexerState :=
  ((x.1.web,x.1.tag),⟨endKey,getMicros,x.1.ticks,x.1.lastKey,x.1.log,x.2⟩)

theorem indexerMove_iterate (endKey : Key) (getMicros : Nat → Int) (n : Nat) (x : State σ τ × Pc) :
    (indexerMove prog)^[n] (packed endKey getMicros x) =
      packed endKey getMicros ((indexerStep (prog.env getMicros) endKey)^[n] x) := by
  have h : Function.Semiconj (packed endKey getMicros) (indexerStep (prog.env getMicros) endKey) (indexerMove prog) :=
    fun x => rfl
  exact (h.iterate_right n x).symm

/-- What a process makes of the two tables that indexers write. -/
def tablesStep : (σ × τ) × Process → (σ × τ) × Process
  | (tables,.indexer p) =>
    let (tables,p) := indexerMove prog (tables,p)
    (tables,.indexer p)
  | (tables,.worker w) => (tables,.worker w)

theorem tablesStep_iterate (n : Nat) (x : (σ × τ) × IndexerState) :
    (tablesStep prog)^[n] (x.1,.indexer x.2) =
      (((indexerMove prog)^[n] x).1,.indexer ((indexerMove prog)^[n] x).2) := by
  have h : Function.Semiconj (fun x : (σ × τ) × IndexerState => (x.1,Process.indexer x.2)) (indexerMove prog)
    (tablesStep prog) := fun x => rfl
  exact (h.iterate_right n x).symm

theorem workerStep_tables (request : Option Request) (s : Servers σ τ υ) (w : Worker) :
    (workerStep prog request (s,w)).1.web = s.web ∧ (workerStep prog request (s,w)).1.tag = s.tag := by
  simp only [workerStep]
  split
  case h_3 | h_9 => split <;> exact ⟨rfl,rfl⟩
  all_goals exact ⟨rfl,rfl⟩

/-- Whatever requests are served meanwhile and in whatever order, the only indexer
of a site gets through and leaves the tables that its program leaves. -/
theorem indexer_undisturbed {ι : Type} [DecidableEq ι] {webRows : σ → TableSlice} {tagRows : τ → TableSlice}
    (hw : Stores prog.webtable webRows) (ht : Stores prog.tagtable tagRows)
    (hscan : ∀ s, ScanRuns (prog.webtable.scan s) (webRows s)) (c : Running ι σ τ υ) (i : ι) (startKey endKey : Key)
    (getMicros : Nat → Int) (hi : c.locals i = .indexer ⟨endKey,getMicros,0,startKey,[],.scan⟩)
    (hothers : ∀ j ≠ i, ∃ w, c.locals j = .worker w) (fuel : Nat) (hfuel : (webRows c.shared.web).size < fuel) :
    ∃ final n, main (prog.env getMicros) startKey endKey fuel c.shared.web c.shared.tag = some final ∧
      ∀ moves : List (ι × Option Request), n ≤ moves.countP (fun m => m.1 = i) →
        (c.run prog moves).shared.web = final.web ∧ (c.run prog moves).shared.tag = final.tag ∧
          (c.run prog moves).locals i = .indexer ⟨endKey,getMicros,final.ticks,final.lastKey,final.log,.stop⟩ := by
  obtain ⟨final,hfinal,-⟩ : ∃ final, main (prog.env getMicros) startKey endKey fuel c.shared.web c.shared.tag =
      some final ∧ _ :=
    main_advances hw ht hscan startKey endKey c.shared.web c.shared.tag
      (lt_of_le_of_lt (List.length_filter_le _ _) hfuel)
  obtain ⟨n,hn⟩ := mainLoop_alone (prog.env getMicros) endKey hfinal
  refine ⟨final,n,hfinal,fun moves hmoves => ?_⟩
  have hquiet : ∀ request (s : Servers σ τ υ) (l : Process), (∃ w, l = .worker w) →
      ((processStep prog request (s,l)).1.web,(processStep prog request (s,l)).1.tag) = (s.web,s.tag) ∧
        ∃ w, (processStep prog request (s,l)).2 = .worker w := by
    rintro request s l ⟨w,rfl⟩
    obtain ⟨hweb,htag⟩ := workerStep_tables prog request s w
    exact ⟨Prod.ext hweb htag,_,rfl⟩
  have hrun : (((c.run prog moves).shared.web,(c.run prog moves).shared.tag),(c.run prog moves).locals i) =
      (tablesStep prog)^[moves.countP (fun m => m.1 = i)] ((c.shared.web,c.shared.tag),c.locals i) :=
    Interleaving.Config.run_part (fun s => (s.web,s.tag)) (tablesStep prog) (fun l => ∃ w, l = .worker w)
      (fun l => ∃ p, l = .indexer p) i hquiet (fun request s l ⟨p,hp⟩ => hp ▸ ⟨rfl,_,rfl⟩) moves c ⟨_,hi⟩ hothers
  obtain ⟨m,hm⟩ := Nat.exists_eq_add_of_le' hmoves
  -- once stopped, an indexer stays where it is
  have hstop : (indexerStep (prog.env getMicros) endKey)^[m] (final,Pc.stop) = (final,.stop) :=
    Function.iterate_fixed rfl m
  have hpacked : ((c.shared.web,c.shared.tag),(⟨endKey,getMicros,0,startKey,[],.scan⟩ : IndexerState)) =
    packed endKey getMicros (⟨c.shared.web,c.shared.tag,0,startKey,[]⟩,.scan) := rfl
  rw [hi,tablesStep_iterate prog _ (_,_),hpacked,indexerMove_iterate,hm,Function.iterate_add_apply,hn,hstop] at hrun
  simp only [Prod.mk.injEq,packed] at hrun
  exact ⟨hrun.1.1,hrun.1.2,hrun.2⟩

end

def samplePrograms : Programs TableSlice TableSlice TableSlice :=
  ⟨memTable,memTable,memTable,insertionLib,fun _ => [bytes "a"],fun _ => bytes "t"⟩

def sampleView : Request := .view goodNginx .get (some (bytes "url=p2014 "))

def sampleSite : Running Bool TableSlice TableSlice TableSlice :=
  ⟨⟨samplePages,∅,∅,[]⟩,fun i => if i then .worker ⟨sampleView,.idle,[],[]⟩ else
    .indexer ⟨[],fun n => 7 + n,0,[],[],.scan⟩⟩

theorem indexer_undisturbed_sample :
    ∃ final n, main (samplePrograms.env (fun n => 7 + n)) [] [] 2 samplePages ∅ = some final ∧
      ∀ moves : List (Bool × Option Request), n ≤ moves.countP (fun m => m.1 = false) →
        (sampleSite.run samplePrograms moves).shared.tag = final.tag := by
  have hothers : ∀ j ≠ false, ∃ w, sampleSite.locals j = .worker w := by
    intro j hj
    cases j with
    | false => exact absurd rfl hj
    | true => exact ⟨_,rfl⟩
  obtain ⟨final,n,hfinal,hrun⟩ := indexer_undisturbed samplePrograms memTable_stores memTable_stores memTable_scanRuns
    sampleSite false [] [] (fun n => 7 + n) rfl hothers 2 (by decide)
  exact ⟨final,n,hfinal,fun moves hmoves => (hrun moves hmoves).2.1⟩

end Aret.Site
