import Aret.Lib.Decimal
import Mathlib.Data.List.Induction

/-! The configuration of `ngx_http_aret_module.cc`. Contexts are merged from the
outermost one inwards. Both merges of `ngx_http_aret_merge_loc_conf` are made on
`user_id`, so that `url` is never inherited. -/
namespace Aret.Http
open Lib

/-- `ngx_str_t`: a length and the memory from `data` on, `none` for a null pointer. -/
structure NgxStr where
  len : Nat
  data : Option Bytes
  deriving DecidableEq, Repr

def NgxStr.text (s : NgxStr) : Bytes := (s.data.getD []).take s.len

/-- `ngx_http_aret_loc_conf_t`. -/
structure LocConf where
  userId : NgxStr
  url : NgxStr
  deriving DecidableEq, Repr

inductive Handler where
  | recommend | view
  deriving DecidableEq, Repr

structure Location where
  handler : Option Handler
  conf : LocConf
  deriving DecidableEq, Repr

inductive Command where
  | recommend (userId : Bytes)
  | view (url : Bytes)
  deriving DecidableEq, Repr

/-- `ngx_http_aret_create_loc_conf`. -/
def createLocConf : LocConf := ⟨⟨0,none⟩,⟨0,none⟩⟩

/-- `ngx_conf_set_str_slot`; its "is duplicate" is dropped by both callers. -/
def confSetStrSlot (field : NgxStr) (value : Bytes) : NgxStr :=
  match field.data with
  | some _ => field
  | none => ⟨value.length,some value⟩

/-- `ngx_http_recommend_readconf` and `ngx_http_view_readconf`. -/
def readconf (loc : Location) : Command → Location
  | .recommend userId => ⟨some .recommend,{ loc.conf with userId := confSetStrSlot loc.conf.userId userId }⟩
  | .view url => ⟨some .view,{ loc.conf with url := confSetStrSlot loc.conf.url url }⟩

def readContext (commands : List Command) : Location := commands.foldl readconf ⟨none,createLocConf⟩

/-- `ngx_conf_merge_str_value`. -/
def confMergeStrValue (conf prev : NgxStr) (default : Bytes) : NgxStr :=
  match conf.data with
  | some _ => conf
  | none =>
    match prev.data with
    | some _ => prev
    | none => ⟨default.length,some default⟩

/-- `ngx_http_aret_merge_loc_conf`. -/
def mergeLocConf (prev conf : LocConf) : LocConf :=
  let conf := { conf with userId := confMergeStrValue conf.userId prev.userId [] }
  -- the second merge names `user_id` again and takes `url` of the parent
  { conf with userId := confMergeStrValue conf.userId prev.url [] }

/-- What the innermost of nested contexts ends up with: nginx merges each one with
its enclosing one, which has been merged before. -/
def mergeContexts (outer : List Command) (inner : List (List Command)) : LocConf :=
  (inner.map (fun commands => (readContext commands).conf)).foldl mergeLocConf (readContext outer).conf

/-- Blocks of the configuration with the blocks nested in each, as nginx queues them. -/
inductive Blocks (α : Type) where
  | nil
  | cons (block : α) (nested next : Blocks α)

def Blocks.toList {α : Type} : Blocks α → List α
  | .nil => []
  | .cons block nested next => block :: (nested.toList ++ next.toList)

def Blocks.chains {α : Type} : Blocks α → List (List α)
  | .nil => []
  | .cons block nested next => [block] :: (nested.chains.map (block :: ·) ++ next.chains)

/-- `ngx_http_merge_servers` and `ngx_http_merge_locations`: a block is merged
before the ones nested in it. -/
def mergeBlocks (prev : LocConf) : Blocks (List Command) → Blocks LocConf
  | .nil => .nil
  | .cons commands nested next =>
    let conf := mergeLocConf prev (readContext commands).conf
    .cons conf (mergeBlocks conf nested) (mergeBlocks prev next)

/-- Every block ends up with what the chain down to it gives, whatever stands beside it. -/
theorem mergeBlocks_toList (outer : List Command) (blocks : Blocks (List Command)) :
    (mergeBlocks (readContext outer).conf blocks).toList = blocks.chains.map (mergeContexts outer) := by
  have hfrom : ∀ prev, (mergeBlocks prev blocks).toList = blocks.chains.map (fun inner =>
      (inner.map (fun commands => (readContext commands).conf)).foldl mergeLocConf prev) := by
    induction blocks with
    | nil => exact fun prev => rfl
    | cons commands nested next ihnested ihnext =>
      intro prev
      simp [mergeBlocks,Blocks.toList,Blocks.chains,ihnested,ihnext,Function.comp_def]
  exact hfrom _

def Command.userId? : Command → Option Bytes
  | .recommend userId => some userId
  | .view _ => none

def Command.url? : Command → Option Bytes
  | .recommend _ => none
  | .view url => some url

/-- The `user_id` a context sets itself; of several directives the first one counts. -/
def setUserId (commands : List Command) : Option Bytes := commands.findSome? Command.userId?

def setUrl (commands : List Command) : Option Bytes := commands.findSome? Command.url?

/-- The value of the nearest context that sets one, the outermost being listed first. -/
def nearest (set : List Command → Option Bytes) (contexts : List (List Command)) : Option Bytes :=
  contexts.reverse.findSome? set

structure Inherits (outer : List Command) (inner : List (List Command)) : Prop where
  userId : (mergeContexts outer inner).userId.text = (nearest setUserId (outer :: inner)).getD []
  url : (mergeContexts outer inner).url.text = (nearest setUrl (outer :: inner)).getD []

def NgxStr.ofValue : Option Bytes → NgxStr
  | none => ⟨0,none⟩
  | some value => ⟨value.length,some value⟩

@[simp] theorem NgxStr.text_ofValue (value : Option Bytes) : (NgxStr.ofValue value).text = value.getD [] := by
  cases value with
  | none => rfl
  | some value => exact List.take_length

theorem confSetStrSlot_ofValue (value : Option Bytes) (v : Bytes) :
    confSetStrSlot (.ofValue value) v = .ofValue (value.or (some v)) := by
  cases value <;> rfl

theorem confMergeStrValue_ofValue (value prev : Option Bytes) :
    confMergeStrValue (.ofValue value) (.ofValue prev) [] = .ofValue (some ((value.or prev).getD [])) := by
  cases value <;> cases prev <;> rfl

theorem confMergeStrValue_merged (conf prev prev' : NgxStr) (default default' : Bytes) :
    confMergeStrValue (confMergeStrValue conf prev default) prev' default' = confMergeStrValue conf prev default := by
  have hset : ∃ data, (confMergeStrValue conf prev default).data = some data := by
    rw [confMergeStrValue]
    split
    · exact ⟨_,‹_›⟩
    · split
      · exact ⟨_,‹_›⟩
      · exact ⟨_,rfl⟩
  obtain ⟨data,hdata⟩ := hset
  rw [confMergeStrValue,hdata]

theorem mergeLocConf_eq (prev conf : LocConf) :
    mergeLocConf prev conf = ⟨confMergeStrValue conf.userId prev.userId [],conf.url⟩ := by
  simp only [mergeLocConf,confMergeStrValue_merged]

theorem readContext_conf (commands : List Command) :
    (readContext commands).conf = ⟨.ofValue (setUserId commands),.ofValue (setUrl commands)⟩ := by
  induction commands using List.reverseRecOn with
  | nil => rfl
  | append_singleton commands command ih =>
    rw [readContext,List.foldl_append,← readContext]
    cases command with
    | recommend userId =>
      simp [readconf,ih,confSetStrSlot_ofValue,setUserId,setUrl,List.findSome?_append,Command.userId?,Command.url?]
    | view url =>
      simp [readconf,ih,confSetStrSlot_ofValue,setUserId,setUrl,List.findSome?_append,Command.userId?,Command.url?]

section
variable (outer : List Command) (inner : List (List Command))

theorem mergeContexts_append (commands : List Command) :
    mergeContexts outer (inner ++ [commands]) =
      mergeLocConf (mergeContexts outer inner) (readContext commands).conf := by
  simp only [mergeContexts,List.map_append,List.map_singleton,List.foldl_append,List.foldl_cons,List.foldl_nil]

theorem nearest_append (set : List Command → Option Bytes) (contexts : List (List Command)) (commands : List Command) :
    nearest set (contexts ++ [commands]) = (set commands).or (nearest set contexts) := by
  rw [nearest,List.reverse_append,List.reverse_singleton,List.singleton_append,List.findSome?_cons,nearest]
  cases set commands <;> rfl

theorem mergeContexts_userId : ∃ value, (mergeContexts outer inner).userId = .ofValue value ∧
    value.getD [] = (nearest setUserId (outer :: inner)).getD [] := by
  induction inner using List.reverseRecOn with
  | nil =>
    refine ⟨setUserId outer,?_,?_⟩
    · rw [mergeContexts,readContext_conf]
      rfl
    · simp [nearest]
  | append_singleton inner commands ih =>
    obtain ⟨value,hvalue,hnearest⟩ := ih
    refine ⟨some (((setUserId commands).or value).getD []),?_,?_⟩
    · rw [mergeContexts_append,mergeLocConf_eq,readContext_conf,hvalue,confMergeStrValue_ofValue]
    · rw [← List.cons_append,nearest_append,Option.getD_some]
      cases setUserId commands with
      | none => exact hnearest
      | some userId => rfl

theorem mergeContexts_url : (mergeContexts outer inner).url = .ofValue (setUrl (inner.getLastD outer)) := by
  induction inner using List.reverseRecOn with
  | nil => rw [mergeContexts,List.map_nil,List.foldl_nil,readContext_conf,List.getLastD_nil]
  | append_singleton inner commands ih =>
    rw [mergeContexts_append,mergeLocConf_eq,readContext_conf,List.getLastD_concat]

theorem nearest_of_set (set : List Command → Option Bytes) {value : Bytes}
    (h : set (inner.getLastD outer) = some value) :
    nearest set (outer :: inner) = some value := by
  induction inner using List.reverseRecOn with
  | nil => simpa [nearest] using h
  | append_singleton inner commands ih =>
    rw [List.getLastD_concat] at h
    rw [← List.cons_append,nearest_append,h,Option.some_or]

/-- Both fields are inherited exactly when the innermost context sets `url` itself
or there is nothing in `url` to inherit. -/
theorem inherits_iff : Inherits outer inner ↔
    setUrl (inner.getLastD outer) ≠ none ∨ (nearest setUrl (outer :: inner)).getD [] = [] := by
  obtain ⟨value,hvalue,hnearest⟩ := mergeContexts_userId outer inner
  have huserId : (mergeContexts outer inner).userId.text = (nearest setUserId (outer :: inner)).getD [] := by
    rw [hvalue,NgxStr.text_ofValue,hnearest]
  have hurl := congrArg NgxStr.text (mergeContexts_url outer inner)
  rw [NgxStr.text_ofValue] at hurl
  cases hset : setUrl (inner.getLastD outer) with
  | none =>
    rw [hset,Option.getD_none] at hurl
    constructor
    · exact fun h => Or.inr (h.url.symm.trans hurl)
    · exact fun h => ⟨huserId,hurl.trans (h.resolve_left (fun hne => hne rfl)).symm⟩
  | some url =>
    rw [hset] at hurl
    refine iff_of_true ⟨huserId,?_⟩ (Or.inl (Option.some_ne_none url))
    rw [hurl,nearest_of_set outer inner setUrl hset]

end

/-- The inner of two nested locations does not see the `url` of the outer one. -/
theorem url_not_inherited :
    nearest setUrl [[],[],[.view (bytes "v")],[]] = some (bytes "v") ∧
    (mergeContexts [] [[],[.view (bytes "v")],[]]).url = ⟨0,none⟩ ∧
    ¬ Inherits [] [[],[.view (bytes "v")],[]] := by
  refine ⟨by decide,by decide,fun h => ?_⟩
  exact absurd h.url (by decide)

end Aret.Http
