import Aret.Conf.Parse
import Aret.Http.LocConf
import Mathlib.Tactic.IntervalCases

/-! `ngx_conf_handler` with the directives of `ngx_http_aret_module.cc` among those of
nginx, and what the locations of a configuration file hold when it has been read. -/
namespace Aret.Conf
open Lib
open Http (Location createLocConf readconf readContext Blocks)

/-- `NGX_CONF_*`, `NGX_*_CONF` and the types of modules. -/
def ngxConfBlock : Nat := 0x00000100
def ngxConfFlag : Nat := 0x00000200
def ngxConfAny : Nat := 0x00000400
def ngxConf1More : Nat := 0x00000800
def ngxConf2More : Nat := 0x00001000
def ngxConfTake1 : Nat := 0x00000002
def ngxConfMaxArgs : Nat := 8
def ngxMainConf : Nat := 0x01000000
def ngxHttpLocConf : Nat := 0x08000000
def ngxCoreModule : Nat := 0x45524F43
def ngxConfModule : Nat := 0x464E4F43
def ngxHttpModule : Nat := 0x50545448

def argumentNumber : List Nat := [0x01,0x02,0x04,0x08,0x10,0x20,0x40,0x80]

/-- `ngx_command_t` without its function. -/
structure Command where
  name : Bytes
  type : Nat
  deriving DecidableEq, Repr

structure Module where
  type : Nat
  commands : List Command
  deriving DecidableEq, Repr

/-- The two commands of `ngx_http_aret_commands`. -/
def recommendCommand : Command := ⟨bytes "recommend",ngxHttpLocConf ||| ngxConfTake1⟩

def viewCommand : Command := ⟨bytes "view",ngxHttpLocConf ||| ngxConfTake1⟩

def aretModule : Module := ⟨ngxHttpModule,[recommendCommand,viewCommand]⟩

/-- What `cf` says of the block a directive stands in; `custom` is whether `cf->handler`
is set. -/
structure Place where
  moduleType : Nat
  cmdType : Nat
  custom : Bool
  deriving DecidableEq, Repr

/-- A block with configurations of its own: `cf->ctx` is one that its directive has made,
with a configuration of every module. -/
def Place.isHttp (place : Place) : Bool := !place.custom && place.moduleType == ngxHttpModule

/-- `cf`, where `loc` is the configuration of the module that `cf->ctx` leads to. -/
structure Context extends Place where
  loc : Nat
  deriving DecidableEq, Repr

/-- `ngx_init_cycle`. -/
def mainContext : Context := ⟨⟨ngxCoreModule,ngxMainConf,false⟩,0⟩

def argsAllowed (type nelts : Nat) : Bool :=
  if type &&& ngxConfAny ≠ 0 then true
  else if type &&& ngxConfFlag ≠ 0 then nelts == 2
  else if type &&& ngxConf1More ≠ 0 then 2 ≤ nelts
  else if type &&& ngxConf2More ≠ 0 then 3 ≤ nelts
  else if ngxConfMaxArgs < nelts then false
  else type &&& argumentNumber.getD (nelts - 1) 0 != 0

def named (modules : List Module) (name : Bytes) : List (Module × Command) :=
  modules.flatMap fun m => (m.commands.filter (·.name == name)).map fun cmd => (m,cmd)

/-- The module may be used here, and the directive's location is right. -/
def allowedHere (place : Place) (hit : Module × Command) : Bool :=
  (hit.1.type == ngxConfModule || hit.1.type == place.moduleType) && hit.2.type &&& place.cmdType != 0

def taken (modules : List Module) (place : Place) (name : Bytes) : Option (Module × Command) :=
  (named modules name).find? (allowedHere place)

/-- `ngx_conf_handler`, where `set` is the function of the command. -/
def confHandler {R : Type} (modules : List Module) (set : Command → List Bytes → Except Message R) (place : Place)
    (args : List Bytes) (last : Token) : Except Message R :=
  let name := args.headD []
  match taken modules place name with
  | some (_,cmd) =>
    let block := cmd.type &&& ngxConfBlock != 0
    if !block ∧ last ≠ .ok then .error (.notTerminated name)
    else if block ∧ last ≠ .blockStart then .error (.noOpening name)
    else if !argsAllowed cmd.type args.length then .error (.invalidNumber name)
    else set cmd args
  | none => if named modules name ≠ [] then .error (.notAllowedHere name) else .error (.unknownDirective name)

/-- The functions of nginx's own directives over what they store: a block is parsed exactly
for the commands with `NGX_CONF_BLOCK`, in a context that the command and its own context
determine; `leave` is what is done behind it, and `handler` stands for `cf->handler`.
`include`, which parses other files in its place, is left out. -/
structure Core (E : Type) where
  set : Context → E → Command → List Bytes → Except Message E
  inner : Place → Command → Place
  leave : Context → E → List Bytes → Except Message E
  handler : Context → E → List Bytes → Except Message E

section Directives
variable {E : Type} (modules : List Module) (core : Core E)

def aretFunction (cmd : Command) (value : Bytes) : Option Http.Command :=
  if cmd = recommendCommand then some (.recommend value)
  else if cmd = viewCommand then some (.view value)
  else none

/-- The function of a command, over the configurations of the module, in the order in which
they were created, and what the others store. -/
def set (cf : Context) (d : List Location × E) (cmd : Command) (args : List Bytes) :
    Except Message ((List Location × E) × Option Context) :=
  match aretFunction cmd (args.getD 1 []) with
  | some command => .ok ((d.1.modify cf.loc fun loc => readconf loc command,d.2),none)
  | none =>
    (core.set cf d.2 cmd args).map fun e =>
      if cmd.type &&& ngxConfBlock ≠ 0 then
        let inner := core.inner cf.toPlace cmd
        ((if inner.isHttp then d.1 ++ [⟨none,createLocConf⟩] else d.1,e),some ⟨inner,d.1.length⟩)
      else ((d.1,e),none)

/-- All directives. The merge that the function of `http` makes behind its block is
`mergeBlocks`, and not made here. -/
def directives : Directives Context (List Location × E) where
  enter cf d args rc :=
    if cf.custom then (core.handler cf d.2 args).map fun e => ((d.1,e),none)
    else confHandler modules (set core cf d) cf.toPlace args rc
  leave cf d args := (core.leave cf d.2 args).map fun e => (d.1,e)

end Directives

def aretCommand : List Bytes → Option Http.Command
  | [name,value] =>
    if name = bytes "recommend" then some (.recommend value)
    else if name = bytes "view" then some (.view value)
    else none
  | _ => none

/-- The directives of the module that stand in a block and in none inside it. -/
def Tree.commands : Tree → List Http.Command
  | .nil => []
  | .directive args next => (aretCommand args).toList ++ next.commands
  | .block _ _ next => next.commands

def append {α : Type} : Blocks α → Blocks α → Blocks α
  | .nil,blocks => blocks
  | .cons block nested next,blocks => .cons block nested (append next blocks)

theorem toList_append {α : Type} (one two : Blocks α) : (append one two).toList = one.toList ++ two.toList := by
  induction one with
  | nil => rfl
  | cons block nested next ihnested ihnext => simp [append,Blocks.toList,ihnext]

/-- The blocks with configurations of their own, each with the directives of the module in it. -/
def Tree.locations {E : Type} (modules : List Module) (core : Core E) : Place → Tree → Blocks (List Http.Command)
  | _,.nil => .nil
  | place,.directive _ next => next.locations modules core place
  | place,.block args nested next =>
    match taken modules place (args.headD []) with
    | none => next.locations modules core place
    | some (_,cmd) =>
      let inner := core.inner place cmd
      if inner.isHttp then
        .cons nested.commands (nested.locations modules core inner) (next.locations modules core place)
      else append (nested.locations modules core inner) (next.locations modules core place)

def AretName (name : Bytes) : Prop := name = bytes "recommend" ∨ name = bytes "view"

/-- No other module has a command of such a name. -/
def OnlyAret (modules : List Module) : Prop := ∀ m ∈ modules, ∀ cmd ∈ m.commands, AretName cmd.name → m = aretModule

/-- Outside the blocks with a handler of their own, a directive of such a name stands where
its type allows, with one argument and no block. -/
def Tree.Placed {E : Type} (modules : List Module) (core : Core E) : Place → Tree → Prop
  | _,.nil => True
  | place,.directive args next =>
    (place.custom = false → AretName (args.headD []) → place.moduleType = ngxHttpModule ∧
      (ngxHttpLocConf ||| ngxConfTake1) &&& place.cmdType ≠ 0 ∧ args.length = 2) ∧ next.Placed modules core place
  | place,.block args nested next =>
    ¬ AretName (args.headD []) ∧
      (∀ m cmd, taken modules place (args.headD []) = some (m,cmd) →
        nested.Placed modules core (core.inner place cmd)) ∧
      next.Placed modules core place

section Taken
variable {modules : List Module} {place : Place} {name : Bytes} {m : Module} {cmd : Command} {args : List Bytes}

theorem taken_some (h : taken modules place name = some (m,cmd)) :
    m ∈ modules ∧ cmd ∈ m.commands ∧ cmd.name = name ∧ allowedHere place (m,cmd) = true := by
  have hmem := List.mem_of_find?_eq_some h
  obtain ⟨m',hm,hmem'⟩ := List.mem_flatMap.mp hmem
  obtain ⟨cmd',hcmd,heq⟩ := List.mem_map.mp hmem'
  obtain ⟨rfl,rfl⟩ := Prod.mk.inj heq
  obtain ⟨hcmd,hname⟩ := List.mem_filter.mp hcmd
  exact ⟨hm,hcmd,beq_iff_eq.mp hname,List.find?_some h⟩

theorem allowedHere_aret (hm : m = aretModule) (h : allowedHere place (m,cmd) = true) :
    place.moduleType = ngxHttpModule := by
  subst hm
  rw [allowedHere,Bool.and_eq_true,Bool.or_eq_true] at h
  rcases h.1 with hconf | htype
  · have hne : ngxHttpModule ≠ ngxConfModule := by decide
    exact absurd (beq_iff_eq.mp hconf) hne
  · exact (beq_iff_eq.mp htype).symm

/-- `NGX_CONF_TAKE1`. -/
theorem argsAllowed_take1 {nelts : Nat} (hpos : 0 < nelts)
    (h : argsAllowed (ngxHttpLocConf ||| ngxConfTake1) nelts = true) :
    nelts = 2 := by
  by_cases hmax : nelts ≤ 8
  · interval_cases nelts <;> first | rfl | exact absurd h (by decide)
  · have hlt : ngxConfMaxArgs < nelts := by
      rw [ngxConfMaxArgs]
      omega
    simp [argsAllowed,ngxHttpLocConf,ngxConfTake1,ngxConfAny,ngxConfFlag,ngxConf1More,ngxConf2More,hlt] at h

theorem taken_aret (hown : OnlyAret modules) (htaken : taken modules place name = some (m,cmd))
    (hname : AretName name) :
    (cmd = recommendCommand ∨ cmd = viewCommand) ∧ place.moduleType = ngxHttpModule ∧
      cmd.type &&& place.cmdType ≠ 0 := by
  obtain ⟨hm,hcmd,rfl,hallowed⟩ := taken_some htaken
  obtain rfl := hown m hm cmd hcmd hname
  refine ⟨by simpa [aretModule] using hcmd,allowedHere_aret rfl hallowed,?_⟩
  rw [allowedHere,Bool.and_eq_true] at hallowed
  exact bne_iff_ne.mp hallowed.2

theorem args_of_take1 {name : Bytes} (hname : name = args.headD []) (hne : name ≠ [])
    (hargs : argsAllowed (ngxHttpLocConf ||| ngxConfTake1) args.length = true) : ∃ value, args = [name,value] := by
  have hpos : 0 < args.length := by
    cases args with
    | nil => exact absurd hname hne
    | cons first rest => exact Nat.succ_pos _
  obtain ⟨first,value,rfl⟩ := List.length_eq_two.mp (argsAllowed_take1 hpos hargs)
  exact ⟨value,by rw [hname]; rfl⟩

theorem aretFunction_taken (hown : OnlyAret modules) (htaken : taken modules place (args.headD []) = some (m,cmd))
    (hargs : argsAllowed cmd.type args.length = true) :
    aretFunction cmd (args.getD 1 []) = aretCommand args ∧
      (aretCommand args ≠ none → place.moduleType = ngxHttpModule) := by
  obtain ⟨-,-,hname,-⟩ := taken_some htaken
  have haret (h : AretName (args.headD [])) := taken_aret hown htaken h
  by_cases hrecommend : cmd = recommendCommand
  · subst hrecommend
    obtain ⟨value,rfl⟩ := args_of_take1 hname (by decide) hargs
    exact ⟨by simp [aretFunction,aretCommand,recommendCommand],fun _ => (haret (.inl hname.symm)).2.1⟩
  · by_cases hview : cmd = viewCommand
    · subst hview
      obtain ⟨value,rfl⟩ := args_of_take1 hname (by decide) hargs
      have hne : bytes "view" ≠ bytes "recommend" := by decide
      have hview : viewCommand.name = bytes "view" := rfl
      exact ⟨by simp [aretFunction,aretCommand,hrecommend,hview,hne],fun _ => (haret (.inr hname.symm)).2.1⟩
    · -- a command of another module, which has neither of the names
      have hnot : ¬ AretName (args.headD []) := fun h => (haret h).1.elim hrecommend hview
      have hnone : aretCommand args = none := by
        unfold aretCommand
        split
        · rw [List.headD_cons] at hnot
          rw [if_neg fun h => hnot (.inl h),if_neg fun h => hnot (.inr h)]
        · rfl
      exact ⟨by rw [hnone,aretFunction,if_neg hrecommend,if_neg hview],fun h => absurd hnone h⟩

end Taken

section Enter
variable {E : Type} {modules : List Module} {core : Core E} {cf cf' : Context} {locs locs' : List Location} {e e' : E}
  {args : List Bytes} {rc : Token}

/-- What directives of the module make of the configurations when they stand in `cf`. -/
def Context.hold (cf : Context) (commands : List Http.Command) (locs : List Location) : List Location :=
  if cf.isHttp then locs.modify cf.loc fun loc => commands.foldl readconf loc else locs

theorem hold_nil : cf.hold [] locs = locs := by
  rw [Context.hold]
  split_ifs
  · exact List.modify_id cf.loc locs
  · rfl

theorem hold_append (one two : List Http.Command) : cf.hold (one ++ two) locs = cf.hold two (cf.hold one locs) := by
  simp only [Context.hold]
  split_ifs
  · rw [List.modify_modify_eq]
    congr 1
    funext loc
    exact List.foldl_append
  · rfl

theorem length_hold (commands : List Http.Command) : (cf.hold commands locs).length = locs.length := by
  rw [Context.hold]
  split_ifs
  · exact List.length_modify _ _ _
  · rfl

theorem loc_later (hloc : cf.isHttp = true → cf.loc < locs.length) (later : List Location) (hhttp : cf.isHttp = true) :
    cf.loc < (locs ++ later).length := by
  rw [List.length_append]
  exact Nat.lt_add_right _ (hloc hhttp)

/-- Configurations made later are left alone. -/
theorem hold_later (hloc : cf.isHttp = true → cf.loc < locs.length) (commands : List Http.Command)
    (later : List Location) :
    cf.hold commands (locs ++ later) = cf.hold commands locs ++ later := by
  rw [Context.hold,Context.hold]
  split_ifs with hhttp
  · have hlt := hloc hhttp
    rw [List.modify_eq_take_drop,List.modify_eq_take_drop,List.take_append_of_le_length hlt.le,
      List.drop_append_of_le_length hlt.le,List.append_assoc]
    congr 1
    have hne : locs.drop cf.loc ≠ [] := by
      rw [Ne,List.drop_eq_nil_iff]
      omega
    obtain ⟨loc,rest,hdrop⟩ := List.exists_cons_of_ne_nil hne
    rw [hdrop]
    rfl
  · rfl

theorem hold_new {place : Place} (hhttp : place.isHttp = true) (commands : List Http.Command) :
    (Context.mk place locs.length).hold commands (locs ++ [⟨none,createLocConf⟩]) = locs ++ [readContext commands] := by
  rw [Context.hold,if_pos hhttp,List.modify_eq_take_drop,List.take_left,List.drop_left]
  rfl

theorem confHandler_ok {R : Type} {f : Command → List Bytes → Except Message R} {place : Place} {r : R}
    (h : confHandler modules f place args rc = .ok r) :
    ∃ m cmd, taken modules place (args.headD []) = some (m,cmd) ∧ argsAllowed cmd.type args.length = true ∧
      f cmd args = .ok r := by
  simp only [confHandler] at h
  split at h
  · rename_i m cmd htaken
    split_ifs at h with hterminated hopening hargs
    exact ⟨m,cmd,htaken,by simpa using hargs,h⟩
  · split_ifs at h

theorem map_ok {α β : Type} {f : α → β} {x : Except Message α} {r : β} (h : x.map f = .ok r) : ∃ a, r = f a := by
  cases x with
  | error m => cases h
  | ok a => exact ⟨a,(Except.ok.inj h).symm⟩

theorem enter_directive (hown : OnlyAret modules)
    (h : (directives modules core).enter cf (locs,e) args rc = .ok ((locs',e'),none)) :
    locs' = cf.hold (aretCommand args).toList locs := by
  simp only [directives] at h
  split_ifs at h with hcustom
  · obtain ⟨a,ha⟩ := map_ok h
    obtain ⟨rfl,-⟩ := Prod.mk.inj (Prod.mk.inj ha).1
    simp [Context.hold,Place.isHttp,hcustom]
  · obtain ⟨m,cmd,htaken,hargs,hset⟩ := confHandler_ok h
    obtain ⟨hfunction,htype⟩ := aretFunction_taken hown htaken hargs
    rw [set,hfunction] at hset
    cases hcommand : aretCommand args with
    | some command =>
      have hhttp : cf.isHttp = true := by
        simp [Place.isHttp,hcustom,htype (by simp [hcommand])]
      rw [hcommand] at hset
      obtain ⟨hlocs,-⟩ := Prod.mk.inj (Except.ok.inj hset)
      obtain ⟨rfl,-⟩ := Prod.mk.inj hlocs
      simp [Context.hold,hhttp]
    | none =>
      rw [hcommand] at hset
      obtain ⟨a,ha⟩ := map_ok hset
      split_ifs at ha
      · cases (Prod.mk.inj ha).2
      · obtain ⟨rfl,-⟩ := Prod.mk.inj (Prod.mk.inj ha).1
        exact hold_nil.symm

theorem enter_block (h : (directives modules core).enter cf (locs,e) args rc = .ok ((locs',e'),some cf')) :
    cf.custom = false ∧ ∃ m cmd, taken modules cf.toPlace (args.headD []) = some (m,cmd) ∧
      cf' = ⟨core.inner cf.toPlace cmd,locs.length⟩ ∧
        locs' = if cf'.isHttp then locs ++ [⟨none,createLocConf⟩] else locs := by
  simp only [directives] at h
  split_ifs at h with hcustom
  · obtain ⟨a,ha⟩ := map_ok h
    cases (Prod.mk.inj ha).2
  · obtain ⟨m,cmd,htaken,hargs,hset⟩ := confHandler_ok h
    refine ⟨by simpa using hcustom,m,cmd,htaken,?_⟩
    rw [set] at hset
    cases hfunction : aretFunction cmd (args.getD 1 []) with
    | some command =>
      rw [hfunction] at hset
      cases (Prod.mk.inj (Except.ok.inj hset)).2
    | none =>
      rw [hfunction] at hset
      obtain ⟨a,ha⟩ := map_ok hset
      split_ifs at ha
      · obtain ⟨hlocs,hinner⟩ := Prod.mk.inj ha
        obtain rfl := Option.some.inj hinner
        exact ⟨rfl,(Prod.mk.inj hlocs).1⟩
      · cases (Prod.mk.inj ha).2

/-- What a directive of one of the two names must be to be taken. -/
theorem enter_aret {d : List Location × E} {r : (List Location × E) × Option Context} (hown : OnlyAret modules)
    (h : (directives modules core).enter cf d args rc = .ok r) (hcustom : cf.custom = false)
    (hname : AretName (args.headD [])) :
    cf.moduleType = ngxHttpModule ∧ (ngxHttpLocConf ||| ngxConfTake1) &&& cf.cmdType ≠ 0 ∧ args.length = 2 ∧
      r.2 = none := by
  simp only [directives,hcustom] at h
  obtain ⟨m,cmd,htaken,hargs,hset⟩ := confHandler_ok h
  obtain ⟨hcmd,htype,hallowed⟩ := taken_aret hown htaken hname
  have hcmdType : cmd.type = ngxHttpLocConf ||| ngxConfTake1 := by
    rcases hcmd with rfl | rfl <;> rfl
  have hset' : r.2 = none := by
    rw [set] at hset
    cases hfunction : aretFunction cmd (args.getD 1 []) with
    | some command =>
      rw [hfunction] at hset
      rw [← Except.ok.inj hset]
    | none =>
      have hne : viewCommand ≠ recommendCommand := by decide
      rcases hcmd with rfl | rfl <;> simp [aretFunction,hne] at hfunction
  have hpos : 0 < args.length := by
    cases args with
    | nil => rcases hname with h | h <;> exact absurd h (by decide)
    | cons first rest => exact Nat.succ_pos _
  rw [hcmdType] at hargs hallowed
  exact ⟨htype,hallowed,argsAllowed_take1 hpos hargs,hset'⟩

theorem leave_locs (h : (directives modules core).leave cf (locs,e) args = .ok (locs',e')) : locs' = locs := by
  obtain ⟨a,ha⟩ := map_ok h
  exact (Prod.mk.inj ha).1

/-- What a run over the directives of a block leaves: the block's own configuration with
the directives of the module in it, and a configuration for every block inside. -/
theorem taken_locations (hown : OnlyAret modules) {tree : Tree}
    (h : tree.Taken (directives modules core) cf (locs,e) (locs',e')) (hloc : cf.isHttp = true → cf.loc < locs.length) :
    locs' = cf.hold tree.commands locs ++ (tree.locations modules core cf.toPlace).toList.map readContext := by
  induction tree generalizing cf locs locs' e e' with
  | nil =>
    obtain ⟨rfl,-⟩ := Prod.mk.inj h
    simp [Tree.commands,Tree.locations,Blocks.toList,hold_nil]
  | directive args next ih =>
    obtain ⟨rc,⟨locs1,e1⟩,henter,hnext⟩ := h
    obtain rfl := enter_directive hown henter
    rw [ih hnext (by rwa [length_hold]),Tree.commands,hold_append,Tree.locations]
  | block args nested next ihnested ihnext =>
    obtain ⟨rc,cf1,⟨locs1,e1⟩,⟨locs2,e2⟩,⟨locs3,e3⟩,henter,hnested,hleave,hnext⟩ := h
    obtain ⟨-,m,cmd,htaken,rfl,hlocs1⟩ := enter_block henter
    have hkept : locs3 = locs2 := leave_locs hleave
    subst locs3
    have hinner := ihnested hnested
    -- the block adds its own configuration, if it has one, and those of the blocks in it
    have hmade : locs2 = locs ++ ((if (core.inner cf.toPlace cmd).isHttp then [nested.commands] else []) ++
        (nested.locations modules core (core.inner cf.toPlace cmd)).toList).map readContext := by
      split_ifs at hlocs1 ⊢ with hhttp
      · subst hlocs1
        rw [hold_new hhttp] at hinner
        rw [hinner fun _ => by simp,List.map_append,List.map_singleton,List.append_assoc]
      · subst hlocs1
        rw [Context.hold,if_neg hhttp] at hinner
        rw [hinner fun h => absurd h hhttp,List.nil_append]
    subst hmade
    rw [ihnext hnext (loc_later hloc _),hold_later hloc,Tree.commands,Tree.locations,htaken]
    by_cases hhttp : (core.inner cf.toPlace cmd).isHttp = true
    · simp [hhttp,Blocks.toList]
    · simp [hhttp,toList_append]

theorem taken_placed (hown : OnlyAret modules) {tree : Tree} {d d' : List Location × E}
    (h : tree.Taken (directives modules core) cf d d') : tree.Placed modules core cf.toPlace := by
  induction tree generalizing cf d d' with
  | nil => trivial
  | directive args next ih =>
    obtain ⟨rc,d1,henter,hnext⟩ := h
    refine ⟨fun hcustom hname => ?_,ih hnext⟩
    obtain ⟨htype,hallowed,hlen,-⟩ := enter_aret hown henter hcustom hname
    exact ⟨htype,hallowed,hlen⟩
  | block args nested next ihnested ihnext =>
    obtain ⟨rc,inner,d1,d2,d3,henter,hnested,hleave,hnext⟩ := h
    obtain ⟨hcustom,m,cmd,htaken,rfl,-⟩ := enter_block henter
    refine ⟨fun hname => ?_,fun m' cmd' htaken' => ?_,ihnext hnext⟩
    · obtain ⟨-,-,-,hnone⟩ := enter_aret hown henter hcustom hname
      cases hnone
    · obtain ⟨rfl,rfl⟩ := Prod.mk.inj (Option.some.inj (htaken.symm.trans htaken'))
      exact ihnested hnested

end Enter

def sampleModules : List Module :=
  [⟨ngxCoreModule,[⟨bytes "http",ngxMainConf ||| ngxConfBlock ||| 0x01⟩]⟩,
    ⟨ngxHttpModule,[⟨bytes "server",0x02000000 ||| ngxConfBlock ||| 0x01⟩,
      ⟨bytes "location",0x04000000 ||| ngxHttpLocConf ||| ngxConfBlock ||| 0x06⟩]⟩,
    aretModule]

def sampleCore : Core Unit where
  set _ _ _ _ := .ok ()
  inner _ cmd :=
    ⟨ngxHttpModule,if cmd.name = bytes "http" then 0x02000000 else if cmd.name = bytes "server" then 0x04000000
      else ngxHttpLocConf,false⟩
  leave _ _ _ := .ok ()
  handler _ _ _ := .ok ()

def sampleConf : Bytes :=
  bytes "http\x7bserver\x7blocation /a \x7bview v;recommend u;\x7dlocation /b\x7bview w;\x7d\x7d\x7d"

def sampleTree : Tree :=
  .block [bytes "http"] (.block [bytes "server"]
    (.block [bytes "location",bytes "/a"]
        (.directive [bytes "view",bytes "v"] (.directive [bytes "recommend",bytes "u"] .nil))
      (.block [bytes "location",bytes "/b"] (.directive [bytes "view",bytes "w"] .nil) .nil)) .nil) .nil

theorem onlyAret_sample : OnlyAret sampleModules := by
  have hnames : sampleModules.all (fun m => m.commands.all fun cmd =>
      !(cmd.name == bytes "recommend" || cmd.name == bytes "view") || m == aretModule) = true := by decide +kernel
  intro m hm cmd hcmd hname
  have h := List.all_eq_true.mp (List.all_eq_true.mp hnames m hm) cmd hcmd
  simp only [Bool.or_eq_true,Bool.not_eq_true',Bool.or_eq_false_iff,beq_eq_false_iff_ne,beq_iff_eq] at h
  rcases h with ⟨hrecommend,hview⟩ | hmodule
  · exact (hname.elim hrecommend hview).elim
  · exact hmodule

def sampleLocations : List Location :=
  [⟨none,createLocConf⟩,⟨none,createLocConf⟩,readContext [.view (bytes "v"),.recommend (bytes "u")],
    readContext [.view (bytes "w")]]

theorem sampleConf_read : (parseFile 16 (directives sampleModules sampleCore) mainContext ([],()) sampleConf).outcome =
    some (.ok (sampleTree,(sampleLocations,()))) := by
  decide +kernel

section Read
variable {E : Type} {modules : List Module} {core : Core E} {locs : List Location} {e e' : E} {size : Nat}
  {text : Bytes}
  {tree : Tree}

/-- Whatever the other directives do, after a configuration file has been read every block
of it that has configurations of its own holds the directives of the module that stand in
it, in their order, and those of no other block. -/
theorem conf_locations_read (hown : OnlyAret modules)
    (h : (parseFile size (directives modules core) mainContext ([],e) text).outcome = some (.ok (tree,(locs,e')))) :
    locs = (tree.locations modules core mainContext.toPlace).toList.map readContext := by
  have hlocs := taken_locations hown (parseFile_taken h) fun hhttp => absurd hhttp (by decide)
  rw [hlocs,Context.hold,if_neg (by decide),List.nil_append]

theorem conf_locations_read_sample :
    sampleLocations = [[],[],[.view (bytes "v"),.recommend (bytes "u")],[.view (bytes "w")]].map readContext :=
  (conf_locations_read onlyAret_sample sampleConf_read).trans (by decide +kernel)

/-- No accepted configuration file has a directive of the module outside a location, with a
block or with another number of arguments. -/
theorem conf_commands_placed (hown : OnlyAret modules)
    (h : (parseFile size (directives modules core) mainContext ([],e) text).outcome = some (.ok (tree,(locs,e')))) :
    tree.Placed modules core mainContext.toPlace := taken_placed hown (parseFile_taken h)

theorem conf_commands_placed_sample : sampleTree.Placed sampleModules sampleCore mainContext.toPlace :=
  conf_commands_placed onlyAret_sample sampleConf_read

end Read

end Aret.Conf
