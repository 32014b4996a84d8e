import Aret.Lib.Regions
import Mathlib.Algebra.Ring.Int.Defs
import Mathlib.Data.List.ReduceOption

/-! The memory pool of `ngx_palloc.c`, from which the handlers take their buffers. -/
namespace Aret.Core
open Lib

/-- `sizeof` of `ngx_pool_t`, `ngx_pool_data_t` and `ngx_pool_large_t` on a 64-bit machine. -/
def poolSize : Nat := 80
def poolDataSize : Nat := 32
def poolLargeSize : Nat := 16

/-- `NGX_MAX_ALLOC_FROM_POOL`, `NGX_POOL_ALIGNMENT` and `NGX_MIN_POOL_SIZE`. -/
def ngxMaxAllocFromPool : Nat := 4095
def ngxPoolAlignment : Nat := 16
def ngxMinPoolSize : Nat := 112

/-- `ngx_pool_data_t` with the address it stands at; `header` is what of the block the pool
keeps to itself. -/
structure PoolData extends Arena where
  failed : Nat
  deriving DecidableEq, Repr

/-- `ngx_pool_t`: the blocks in the order of `d.next`, the place of `current` among them, and
for each `ngx_pool_large_t` what `alloc` points to. No function reads `handed`: it keeps
what has been taken from the blocks. -/
structure Pool where
  blocks : List PoolData
  current : Nat
  max : Nat
  large : List (Option Region)
  handed : List Region
  deriving DecidableEq, Repr

/-- `ngx_create_pool`, at the address that `ngx_memalign` gives. -/
def createPool (start size : Nat) : Pool :=
  ⟨[⟨⟨start,poolSize,start + poolSize,start + size⟩,0⟩],0,min (size - poolSize) ngxMaxAllocFromPool,[],[]⟩

/-- `ngx_align_ptr` with `NGX_ALIGNMENT`. -/
def alignPtr (p : Nat) : Nat := (p + 7) / 8 * 8

/-- `(size_t) (end - m)`. -/
def room (stop m : Nat) : Nat := (((stop : Int) - m) % 2^64).toNat

def tried (aligned : Bool) (p : PoolData) : Nat := if aligned then alignPtr p.last else p.last

/-- The loop of `ngx_palloc` and `ngx_pnalloc` over the blocks from `current` on. -/
def takeRoom (aligned : Bool) (size : Nat) : List PoolData → Option (Nat × List PoolData)
  | [] => none
  | p :: rest =>
    let m := tried aligned p
    if size ≤ room p.stop m then some (m,{ p with last := m + size } :: rest)
    else (takeRoom aligned size rest).map fun found => (found.1,p :: found.2)

/-- The loop of `ngx_palloc_block`: `i` is the place of the first of these blocks. -/
def countFailed (i current : Nat) : List PoolData → Nat × List PoolData
  | [] => (current,[])
  | [p] => (current,[p])
  | p :: q :: rest =>
    let behind := countFailed (i + 1) (if 4 < p.failed then i + 1 else current) (q :: rest)
    (behind.1,{ p with failed := p.failed + 1 } :: behind.2)

def Pool.psize (pool : Pool) : Nat :=
  match pool.blocks with
  | [] => 0
  | p :: _ => p.stop - p.start

/-- `ngx_palloc_block`, where `block` is what `ngx_memalign` gives. -/
def pallocBlock (pool : Pool) (size : Nat) (block : Option Nat) : Pool × Option Nat :=
  match block with
  | none => (pool,none)
  | some start =>
    let m := alignPtr (start + poolDataSize)
    let counted := countFailed pool.current pool.current (pool.blocks.drop pool.current)
    let new : PoolData := ⟨⟨start,poolDataSize,m + size,start + pool.psize⟩,0⟩
    ({ pool with
      blocks := pool.blocks.take pool.current ++ counted.2 ++ [new]
      current := counted.1
      handed := ⟨m,size⟩ :: pool.handed },some m)

/-- `ngx_palloc` and `ngx_pnalloc` for what is not larger than `max`. -/
def pallocSmall (aligned : Bool) (pool : Pool) (size : Nat) (block : Option Nat) : Pool × Option Nat :=
  match takeRoom aligned size (pool.blocks.drop pool.current) with
  | some (m,blocks) =>
    ({ pool with blocks := pool.blocks.take pool.current ++ blocks, handed := ⟨m,size⟩ :: pool.handed },some m)
  | none => pallocBlock pool size block

/-- The loop of `ngx_palloc_large`: one of the first entries may be free. -/
def reuseLarge (r : Region) (n : Nat) : List (Option Region) → Option (List (Option Region))
  | [] => none
  | none :: rest => some (some r :: rest)
  | some s :: rest => if 3 < n then none else (reuseLarge r (n + 1) rest).map (some s :: ·)

/-- A new `ngx_pool_large_t` for memory from the system; its size is never larger than `max`. -/
def linkLarge (pool : Pool) (r : Region) (block : Option Nat) : Pool × Option Nat :=
  match pallocSmall true pool poolLargeSize block with
  | (pool,none) => (pool,none)
  | (pool,some _) => ({ pool with large := some r :: pool.large },some r.addr)

/-- `ngx_palloc_large`, where `large` is what `ngx_alloc` gives. -/
def pallocLarge (pool : Pool) (size : Nat) (large block : Option Nat) : Pool × Option Nat :=
  match large with
  | none => (pool,none)
  | some p =>
    match reuseLarge ⟨p,size⟩ 0 pool.large with
    | some entries => ({ pool with large := entries },some p)
    | none => linkLarge pool ⟨p,size⟩ block

/-- `ngx_palloc` and `ngx_pnalloc`. -/
def palloc (aligned : Bool) (pool : Pool) (size : Nat) (large block : Option Nat) : Pool × Option Nat :=
  if size ≤ pool.max then pallocSmall aligned pool size block else pallocLarge pool size large block

/-- `ngx_pmemalign`. -/
def pmemalign (pool : Pool) (size : Nat) (large block : Option Nat) : Pool × Option Nat :=
  match large with
  | none => (pool,none)
  | some p => linkLarge pool ⟨p,size⟩ block

def pfreeLarge (p : Nat) : List (Option Region) → List (Option Region)
  | [] => []
  | none :: rest => none :: pfreeLarge p rest
  | some r :: rest => if p = r.addr then none :: rest else some r :: pfreeLarge p rest

def pfree (pool : Pool) (p : Nat) : Pool := { pool with large := pfreeLarge p pool.large }

/-- `ngx_reset_pool`. -/
def resetPool (pool : Pool) : Pool :=
  { pool with
    blocks := pool.blocks.map fun p => { p with last := p.start + poolSize }
    large := []
    handed := [] }

inductive Op where
  | palloc (size : Nat)
  | pnalloc (size : Nat)
  | pmemalign (size : Nat)
  | pfree (p : Nat)
  | reset
  deriving DecidableEq, Repr

def Op.size : Op → Nat
  | .palloc size => size
  | .pnalloc size => size
  | .pmemalign size => size
  | .pfree _ => 0
  | .reset => 0

/-- A call with what the system answers, if it is asked: to `ngx_alloc` (or the first
`ngx_memalign`), and for a new block. -/
def step (pool : Pool) (op : Op) (large block : Option Nat) : Pool × Option Nat :=
  match op with
  | .palloc size => palloc true pool size large block
  | .pnalloc size => palloc false pool size large block
  | .pmemalign size => pmemalign pool size large block
  | .pfree p => (pfree pool p,none)
  | .reset => (resetPool pool,none)

def Pool.system (pool : Pool) : List Region := pool.blocks.map (·.region) ++ pool.large.reduceOption

def Pool.live (pool : Pool) : List Region := pool.handed ++ pool.large.reduceOption

structure Fresh (size : Nat) (pool : Pool) (op : Op) (large block : Option Nat) : Prop where
  ofLarge : ∀ p, large = some p → ∀ r ∈ pool.system, Region.Apart ⟨p,op.size⟩ r
  ofBlock : ∀ b, block = some b → ngxPoolAlignment ∣ b ∧ (∀ r ∈ pool.system, Region.Apart ⟨b,size⟩ r) ∧
    ∀ p, large = some p → Region.Apart ⟨b,size⟩ ⟨p,op.size⟩

inductive Reachable (size : Nat) : Pool → Prop where
  | create (start : Nat) (halign : ngxPoolAlignment ∣ start) : Reachable size (createPool start size)
  | step {pool : Pool} (h : Reachable size pool) (op : Op) (large block : Option Nat)
      (hfresh : Fresh size pool op large block) :
    Reachable size (step pool op large block).1

structure Pool.Inv (size : Nat) (pool : Pool) : Prop where
  blocks : ∀ p ∈ pool.blocks, ngxPoolAlignment ∣ p.start ∧ p.stop = p.start + size ∧ p.header ≤ poolSize
  current : pool.current < pool.blocks.length
  max : pool.max = min (size - poolSize) ngxMaxAllocFromPool
  handedOut : HandedOut (pool.blocks.map (·.toArena)) pool.large.reduceOption pool.handed

theorem le_alignPtr (p : Nat) : p ≤ alignPtr p := by
  rw [alignPtr]
  omega

theorem alignPtr_le {p stop : Nat} (hdvd : ngxPoolAlignment ∣ stop) (hle : p ≤ stop) : alignPtr p ≤ stop := by
  rw [ngxPoolAlignment] at hdvd
  rw [alignPtr]
  omega

theorem alignPtr_dvd (p : Nat) : 8 ∣ alignPtr p := Nat.dvd_mul_left 8 _

/-- The difference is taken as a `size_t`, which is right as long as it is not negative. -/
theorem room_le {stop m size : Nat} (hle : m ≤ stop) (hroom : size ≤ room stop m) : m + size ≤ stop := by
  rw [room] at hroom
  omega

section Blocks
variable {aligned : Bool} {size i c : Nat} {blocks blocks' : List PoolData} {m : Nat}

theorem takeRoom_some (h : takeRoom aligned size blocks = some (m,blocks')) :
    ∃ front p back, blocks = front ++ p :: back ∧ blocks' = front ++ { p with last := m + size } :: back ∧
      m = tried aligned p ∧ size ≤ room p.stop m := by
  induction blocks generalizing blocks' with
  | nil => cases h
  | cons p rest ih =>
    simp only [takeRoom] at h
    split_ifs at h with hroom
    · obtain ⟨rfl,rfl⟩ := Prod.mk.inj (Option.some.inj h)
      exact ⟨[],p,rest,rfl,rfl,rfl,hroom⟩
    · obtain ⟨⟨m',rest'⟩,hfound,heq⟩ := Option.map_eq_some_iff.mp h
      simp only [Prod.mk.injEq] at heq
      obtain ⟨rfl,rfl⟩ := heq
      obtain ⟨front,q,back,rfl,hrest,hm,hle⟩ := ih hfound
      exact ⟨p :: front,q,back,rfl,by rw [hrest]; rfl,hm,hle⟩

theorem takeRoom_regions (h : takeRoom aligned size blocks = some (m,blocks')) :
    blocks'.map (·.region) = blocks.map (·.region) := by
  obtain ⟨front,p,back,rfl,rfl,-,-⟩ := takeRoom_some h
  simp [Arena.region]

theorem countFailed_arenas : (countFailed i c blocks).2.map (·.toArena) = blocks.map (·.toArena) := by
  induction blocks generalizing i c with
  | nil => rfl
  | cons p rest ih =>
    cases rest with
    | nil => rfl
    | cons q rest => simp only [countFailed,List.map_cons,ih]

theorem countFailed_regions : (countFailed i c blocks).2.map (·.region) = blocks.map (·.region) := by
  have harenas : (countFailed i c blocks).2.map (·.toArena) = blocks.map (·.toArena) := countFailed_arenas
  have hregions := congrArg (List.map Arena.region) harenas
  rw [List.map_map,List.map_map] at hregions
  exact hregions

theorem countFailed_lt (h : c < i + blocks.length) : (countFailed i c blocks).1 < i + blocks.length := by
  induction blocks generalizing i c with
  | nil => exact h
  | cons p rest ih =>
    cases rest with
    | nil => exact h
    | cons q rest =>
      have hnext : (if 4 < p.failed then i + 1 else c) < i + 1 + (q :: rest).length := by
        simp only [List.length_cons] at h ⊢
        split_ifs <;> omega
      have hlt := ih hnext
      simp only [countFailed,List.length_cons] at hlt ⊢
      omega

end Blocks

namespace Pool.Inv
variable {size n : Nat} {pool : Pool} {block : Option Nat}

/-- A block that has room gives it. -/
theorem take {aligned : Bool} {m : Nat} {blocks' : List PoolData} (h : pool.Inv size) (hdvd : ngxPoolAlignment ∣ size)
    (hfound : takeRoom aligned n (pool.blocks.drop pool.current) = some (m,blocks')) :
    Pool.Inv size { pool with blocks := pool.blocks.take pool.current ++ blocks', handed := ⟨m,n⟩ :: pool.handed } := by
  obtain ⟨front,p,back,hblocks,rfl,hm,hroom⟩ := takeRoom_some hfound
  have hsplit : pool.blocks = (pool.blocks.take pool.current ++ front) ++ p :: back := by
    rw [List.append_assoc,← hblocks,List.take_append_drop]
  have hp : p ∈ pool.blocks := hsplit ▸ List.mem_append_right _ List.mem_cons_self
  obtain ⟨hstart,hstop,hheader⟩ := h.blocks p hp
  have hfits : p.Fits := h.handedOut.fits _ (List.mem_map_of_mem hp)
  have hstopDvd : ngxPoolAlignment ∣ p.stop := hstop ▸ Nat.dvd_add hstart hdvd
  have htried : p.last ≤ m ∧ m ≤ p.stop := by
    rw [hm,tried]
    split_ifs
    · exact ⟨le_alignPtr p.last,alignPtr_le hstopDvd hfits.2⟩
    · exact ⟨le_rfl,hfits.2⟩
  rw [← List.append_assoc]
  constructor
  · intro q hq
    rcases List.mem_append.mp hq with hfront | htail
    · exact h.blocks q (hsplit ▸ List.mem_append_left _ hfront)
    · rcases List.mem_cons.mp htail with rfl | hback
      · exact ⟨hstart,hstop,hheader⟩
      · exact h.blocks q (hsplit ▸ List.mem_append_right _ (List.mem_cons_of_mem _ hback))
  · have hlt := h.current
    rw [hsplit] at hlt
    simpa using hlt
  · exact h.max
  · have hgiven := h.handedOut
    rw [hsplit,List.map_append,List.map_cons] at hgiven
    rw [List.map_append,List.map_cons]
    exact hgiven.take htried.1 (room_le htried.2 hroom)

theorem psize (h : pool.Inv size) : pool.psize = size := by
  have hne : pool.blocks ≠ [] := List.ne_nil_of_length_pos (Nat.zero_lt_of_lt h.current)
  rw [Pool.psize]
  obtain ⟨p,rest,hblocks⟩ := List.exists_cons_of_ne_nil hne
  rw [hblocks]
  have hstop := (h.blocks p (hblocks ▸ List.mem_cons_self)).2.1
  simp only
  omega

theorem newBlock {b : Nat} (h : pool.Inv size) (hmin : ngxMinPoolSize ≤ size) (hn : n ≤ pool.max)
    (halign : ngxPoolAlignment ∣ b) (hfresh : ∀ r ∈ pool.system, Region.Apart ⟨b,size⟩ r) :
    Pool.Inv size (pallocBlock pool n (some b)).1 := by
  have hm : alignPtr (b + poolDataSize) = b + poolDataSize := by
    rw [ngxPoolAlignment] at halign
    rw [alignPtr,poolDataSize]
    omega
  rw [h.max,ngxMaxAllocFromPool,poolSize] at hn
  rw [ngxMinPoolSize] at hmin
  have harenas : (pool.blocks.take pool.current ++
      (countFailed pool.current pool.current (pool.blocks.drop pool.current)).2).map (·.toArena) =
      pool.blocks.map (·.toArena) := by
    rw [List.map_append,countFailed_arenas,← List.map_append,List.take_append_drop]
  simp only [pallocBlock,h.psize,hm]
  constructor
  · intro q hq
    rcases List.mem_append.mp hq with hold | hnew
    · have hmem : q.toArena ∈ pool.blocks.map (·.toArena) := harenas ▸ List.mem_map_of_mem hold
      obtain ⟨p,hp,heq⟩ := List.mem_map.mp hmem
      rw [← heq]
      exact h.blocks p hp
    · obtain rfl := List.mem_singleton.mp hnew
      exact ⟨halign,rfl,(by decide : poolDataSize ≤ poolSize)⟩
  · have hlt := h.current
    have hcount : (countFailed pool.current pool.current (pool.blocks.drop pool.current)).1 <
        pool.current + (pool.blocks.drop pool.current).length := countFailed_lt (by rw [List.length_drop]; omega)
    have hlen := congrArg List.length harenas
    simp only [List.length_map] at hlen
    rw [List.length_drop] at hcount
    rw [List.length_append,hlen,List.length_singleton]
    simp only
    omega
  · exact h.max
  · have hfits : (⟨b,poolDataSize,b + poolDataSize,b + size⟩ : Arena).Fits := by
      refine ⟨le_rfl,?_⟩
      rw [poolDataSize]
      simp only
      omega
    have hregion : (⟨b,poolDataSize,b + poolDataSize,b + size⟩ : Arena).region = ⟨b,size⟩ := by
      simp [Arena.region]
    have hgiven := h.handedOut.arena hfits (by rw [hregion,List.map_map]; exact hfresh)
    have hstop : b + poolDataSize + n ≤ b + size := by
      rw [poolDataSize]
      omega
    rw [List.map_append,harenas]
    exact hgiven.take le_rfl hstop

theorem small {aligned : Bool} (h : pool.Inv size) (hmin : ngxMinPoolSize ≤ size) (hdvd : ngxPoolAlignment ∣ size)
    (hn : n ≤ pool.max)
    (hfresh : ∀ b, block = some b → ngxPoolAlignment ∣ b ∧ ∀ r ∈ pool.system, Region.Apart ⟨b,size⟩ r) :
    Pool.Inv size (pallocSmall aligned pool n block).1 := by
  rw [pallocSmall]
  cases hfound : takeRoom aligned n (pool.blocks.drop pool.current) with
  | some found => exact h.take hdvd hfound
  | none =>
    cases block with
    | none => exact h
    | some b =>
      obtain ⟨halign,hapart⟩ := hfresh b rfl
      exact h.newBlock hmin hn halign hapart

end Pool.Inv

section Small
variable {aligned : Bool} {size n m : Nat} {pool : Pool} {block : Option Nat}

/-- What `ngx_palloc` and `ngx_pnalloc` leave as it was, and what they add. -/
structure Smaller (size n : Nat) (pool : Pool) (block : Option Nat) (result : Pool × Option Nat) : Prop where
  max : result.1.max = pool.max
  large : result.1.large = pool.large
  handed : ∀ m, result.2 = some m → result.1.handed = ⟨m,n⟩ :: pool.handed
  kept : result.2 = none → result.1 = pool
  system : ∀ r ∈ result.1.system, r ∈ pool.system ∨ ∃ b, block = some b ∧ r = ⟨b,size⟩

theorem pallocSmall_smaller (h : pool.Inv size) : Smaller size n pool block (pallocSmall aligned pool n block) := by
  have hsame {blocks : List PoolData}
      (hblocks : blocks.map (·.region) = (pool.blocks.drop pool.current).map (·.region)) :
      (pool.blocks.take pool.current ++ blocks).map (·.region) = pool.blocks.map (·.region) := by
    rw [List.map_append,hblocks,← List.map_append,List.take_append_drop]
  rw [pallocSmall]
  cases hfound : takeRoom aligned n (pool.blocks.drop pool.current) with
  | some found =>
    refine ⟨rfl,rfl,fun m hm => ?_,(fun hnone => nomatch hnone),fun r hr => .inl ?_⟩
    · rw [← Option.some.inj hm]
    · simp only [Pool.system,hsame (takeRoom_regions hfound)] at hr
      exact hr
  | none =>
    cases block with
    | none => exact ⟨rfl,rfl,(fun m hm => nomatch hm),fun _ => rfl,fun r hr => .inl hr⟩
    | some b =>
      refine ⟨rfl,rfl,fun m hm => ?_,(fun hnone => nomatch hnone),fun r hr => ?_⟩
      · rw [← Option.some.inj hm]
        rfl
      · have hnew : (⟨b,b + pool.psize - b⟩ : Region) = ⟨b,size⟩ := by rw [h.psize,Nat.add_sub_cancel_left]
        simp only [pallocBlock,Pool.system] at hr
        rw [List.map_append,hsame countFailed_regions,List.append_assoc] at hr
        rcases List.mem_append.mp hr with hold | hr
        · exact .inl (List.mem_append_left _ hold)
        · rcases List.mem_append.mp hr with hmade | hlarge
          · exact .inr ⟨b,rfl,(List.mem_singleton.mp hmade).trans hnew⟩
          · exact .inl (List.mem_append_right _ hlarge)

end Small

theorem reuseLarge_perm {r : Region} {n : Nat} {entries entries' : List (Option Region)}
    (h : reuseLarge r n entries = some entries') : entries'.reduceOption.Perm (r :: entries.reduceOption) := by
  induction entries generalizing n entries' with
  | nil => cases h
  | cons entry rest ih =>
    cases entry with
    | none =>
      obtain rfl := Option.some.inj h
      rw [List.reduceOption_cons_of_some,List.reduceOption_cons_of_none]
    | some s =>
      rw [reuseLarge] at h
      split_ifs at h
      obtain ⟨rest',hrest,rfl⟩ := Option.map_eq_some_iff.mp h
      rw [List.reduceOption_cons_of_some,List.reduceOption_cons_of_some]
      exact ((ih hrest).cons s).trans (.swap r s _)

theorem pfreeLarge_sublist (p : Nat) (entries : List (Option Region)) :
    (pfreeLarge p entries).reduceOption.Sublist entries.reduceOption := by
  induction entries with
  | nil => exact .slnil
  | cons entry rest ih =>
    cases entry with
    | none => simpa only [pfreeLarge,List.reduceOption_cons_of_none] using ih
    | some r =>
      rw [pfreeLarge]
      split_ifs
      · rw [List.reduceOption_cons_of_none,List.reduceOption_cons_of_some]
        exact List.sublist_cons_self r _
      · rw [List.reduceOption_cons_of_some,List.reduceOption_cons_of_some]
        exact ih.cons_cons r

section Step
variable {size : Nat} {pool : Pool} {large block : Option Nat} {r : Region}

def BlockFresh (size : Nat) (pool : Pool) (block : Option Nat) : Prop :=
  ∀ b, block = some b → ngxPoolAlignment ∣ b ∧ ∀ s ∈ pool.system, Region.Apart ⟨b,size⟩ s

theorem Pool.Inv.largeSize_le (h : pool.Inv size) (hmin : ngxMinPoolSize ≤ size) : poolLargeSize ≤ pool.max := by
  rw [h.max,poolLargeSize,poolSize,ngxMaxAllocFromPool]
  rw [ngxMinPoolSize] at hmin
  omega

theorem Pool.Inv.link (h : pool.Inv size) (hmin : ngxMinPoolSize ≤ size) (hdvd : ngxPoolAlignment ∣ size)
    (hblock : BlockFresh size pool block) (hr : ∀ s ∈ pool.system, r.Apart s)
    (hboth : ∀ b, block = some b → Region.Apart ⟨b,size⟩ r) : Pool.Inv size (linkLarge pool r block).1 := by
  have hsmall : Pool.Inv size (pallocSmall true pool poolLargeSize block).1 :=
    h.small hmin hdvd (h.largeSize_le hmin) hblock
  have hsmaller : Smaller size poolLargeSize pool block (pallocSmall true pool poolLargeSize block) :=
    pallocSmall_smaller h
  rw [linkLarge]
  generalize pallocSmall true pool poolLargeSize block = result at hsmall hsmaller
  obtain ⟨pool',m⟩ := result
  cases m with
  | none => exact hsmall
  | some m =>
    have hfresh (s : Region) (hs : s ∈ pool'.system) : r.Apart s := by
      rcases hsmaller.system s hs with hold | ⟨b,hb,rfl⟩
      · exact hr s hold
      · exact (hboth b hb).symm
    refine ⟨hsmall.blocks,hsmall.current,hsmall.max,?_⟩
    rw [List.reduceOption_cons_of_some]
    refine hsmall.handedOut.give (.refl _) fun s hs => hfresh s ?_
    rw [List.map_map] at hs
    exact hs

/-- The users keep what they have, and what they get is new. -/
structure Gives (n : Nat) (pool : Pool) (result : Pool × Option Nat) : Prop where
  kept : ∀ s ∈ pool.live, s ∈ result.1.live
  given : ∀ m, result.2 = some m → ∃ own, result.1.live.Perm (⟨m,n⟩ :: (own ++ pool.live))

theorem Gives.nothing {n : Nat} : Gives n pool (pool,none) := ⟨fun _ hs => hs,fun _ hm => nomatch hm⟩

theorem Gives.of_perm {n m : Nat} {pool' : Pool} {own : List Region}
    (h : pool'.live.Perm (⟨m,n⟩ :: (own ++ pool.live))) :
    Gives n pool (pool',some m) := by
  refine ⟨fun s hs => ?_,fun m' hm' => ⟨own,?_⟩⟩
  · exact h.mem_iff.mpr (List.mem_cons_of_mem _ (List.mem_append_right _ hs))
  · rw [← Option.some.inj hm']
    exact h

theorem pallocSmall_gives (h : pool.Inv size) (aligned : Bool) (n : Nat) :
    Gives n pool (pallocSmall aligned pool n block) := by
  have hsmaller : Smaller size n pool block (pallocSmall aligned pool n block) := pallocSmall_smaller h
  generalize pallocSmall aligned pool n block = result at hsmaller
  obtain ⟨pool',m⟩ := result
  cases m with
  | none =>
    obtain rfl : pool' = pool := hsmaller.kept rfl
    exact .nothing
  | some m =>
    have hhanded : pool'.handed = ⟨m,n⟩ :: pool.handed := hsmaller.handed m rfl
    have hlarge : pool'.large = pool.large := hsmaller.large
    have hlive : pool'.live = ⟨m,n⟩ :: ([] ++ pool.live) := by
      rw [Pool.live,hhanded,hlarge]
      rfl
    exact .of_perm (.of_eq hlive)

theorem linkLarge_gives (h : pool.Inv size) : Gives r.size pool (linkLarge pool r block) := by
  have hsmaller : Smaller size poolLargeSize pool block (pallocSmall true pool poolLargeSize block) :=
    pallocSmall_smaller h
  rw [linkLarge]
  generalize pallocSmall true pool poolLargeSize block = result at hsmaller
  obtain ⟨pool',m⟩ := result
  cases m with
  | none =>
    obtain rfl : pool' = pool := hsmaller.kept rfl
    exact .nothing
  | some m =>
    have hhanded : pool'.handed = ⟨m,poolLargeSize⟩ :: pool.handed := hsmaller.handed m rfl
    have hlarge : pool'.large = pool.large := hsmaller.large
    have hlive : (⟨m,poolLargeSize⟩ :: pool.handed ++ r :: pool.large.reduceOption).Perm
        (r :: ([⟨m,poolLargeSize⟩] ++ pool.live)) := List.perm_middle
    have hnew : ({ pool' with large := some r :: pool'.large } : Pool).live =
        ⟨m,poolLargeSize⟩ :: pool.handed ++ r :: pool.large.reduceOption := by
      rw [Pool.live,hhanded,hlarge,List.reduceOption_cons_of_some]
    exact .of_perm (hnew ▸ hlive)

theorem Pool.Inv.giveLarge {size' p : Nat} {entries : List (Option Region)} (h : pool.Inv size)
    (hreuse : reuseLarge ⟨p,size'⟩ 0 pool.large = some entries) (hr : ∀ s ∈ pool.system, Region.Apart ⟨p,size'⟩ s) :
    Pool.Inv size { pool with large := entries } := by
  refine ⟨h.blocks,h.current,h.max,h.handedOut.give (reuseLarge_perm hreuse) fun s hs => hr s ?_⟩
  rw [List.map_map] at hs
  exact hs

theorem step_inv (hmin : ngxMinPoolSize ≤ size) (hdvd : ngxPoolAlignment ∣ size) (h : pool.Inv size) {op : Op}
    (hfresh : Fresh size pool op large block) : Pool.Inv size (step pool op large block).1 := by
  have hblock : BlockFresh size pool block := fun b hb => ⟨(hfresh.ofBlock b hb).1,(hfresh.ofBlock b hb).2.1⟩
  have hlink {p : Nat} (hp : large = some p) : Pool.Inv size (linkLarge pool ⟨p,op.size⟩ block).1 :=
    h.link hmin hdvd hblock (hfresh.ofLarge p hp) fun b hb => (hfresh.ofBlock b hb).2.2 p hp
  have hpalloc (aligned : Bool) : Pool.Inv size (palloc aligned pool op.size large block).1 := by
    rw [palloc]
    split_ifs with hmax
    · exact h.small hmin hdvd hmax hblock
    · cases hlarge : large with
      | none => exact h
      | some p =>
        cases hreuse : reuseLarge ⟨p,op.size⟩ 0 pool.large with
        | some entries =>
          simp only [pallocLarge,hreuse]
          exact h.giveLarge hreuse (hfresh.ofLarge p hlarge)
        | none =>
          simp only [pallocLarge,hreuse]
          exact hlink hlarge
  cases op with
  | palloc n => exact hpalloc true
  | pnalloc n => exact hpalloc false
  | pmemalign n =>
    cases hlarge : large with
    | none => exact h
    | some p => exact hlink hlarge
  | pfree p => exact ⟨h.blocks,h.current,h.max,h.handedOut.giveBack (pfreeLarge_sublist p pool.large)⟩
  | reset =>
    have hlast (a : Arena) (ha : a ∈ pool.blocks.map (·.toArena)) :
        a.start + a.header ≤ a.start + poolSize ∧ a.start + poolSize ≤ a.stop := by
      obtain ⟨p,hp,rfl⟩ := List.mem_map.mp ha
      obtain ⟨-,hstop,hheader⟩ := h.blocks p hp
      rw [ngxMinPoolSize] at hmin
      rw [poolSize] at hheader ⊢
      omega
    refine ⟨fun q hq => ?_,?_,h.max,?_⟩
    · obtain ⟨p,hp,rfl⟩ := List.mem_map.mp hq
      exact h.blocks p hp
    · rw [step,resetPool,List.length_map]
      exact h.current
    · have hreset := h.handedOut.reset hlast
      simp only [List.map_map] at hreset
      rw [step,resetPool,List.map_map]
      exact hreset

theorem createPool_inv (hmin : ngxMinPoolSize ≤ size) {start : Nat} (halign : ngxPoolAlignment ∣ start) :
    Pool.Inv size (createPool start size) := by
  rw [ngxMinPoolSize] at hmin
  refine ⟨?_,Nat.zero_lt_one,rfl,?_⟩
  · intro p hp
    obtain rfl := List.mem_singleton.mp hp
    exact ⟨halign,rfl,le_rfl⟩
  · refine ⟨?_,List.pairwise_singleton _ _,fun r hr => absurd hr List.not_mem_nil,.nil⟩
    intro a ha
    obtain rfl := List.mem_singleton.mp ha
    refine ⟨le_rfl,?_⟩
    change start + poolSize ≤ start + size
    rw [poolSize]
    omega

theorem reachable_inv (hmin : ngxMinPoolSize ≤ size) (hdvd : ngxPoolAlignment ∣ size) (h : Reachable size pool) :
    pool.Inv size := by
  induction h with
  | create start halign => exact createPool_inv hmin halign
  | step h op large block hfresh ih => exact step_inv hmin hdvd ih hfresh

def Op.gives : Op → Bool
  | .palloc _ => true
  | .pnalloc _ => true
  | .pmemalign _ => true
  | .pfree _ => false
  | .reset => false

theorem step_gives (h : pool.Inv size) {op : Op} (hgives : op.gives = true) :
    Gives op.size pool (step pool op large block) := by
  have hlink (p : Nat) : Gives op.size pool (linkLarge pool ⟨p,op.size⟩ block) :=
    linkLarge_gives (r := ⟨p,op.size⟩) h
  have hpalloc (aligned : Bool) : Gives op.size pool (palloc aligned pool op.size large block) := by
    rw [palloc]
    split_ifs with hmax
    · exact pallocSmall_gives h aligned op.size
    · cases large with
      | none => exact .nothing
      | some p =>
        cases hreuse : reuseLarge ⟨p,op.size⟩ 0 pool.large with
        | some entries =>
          simp only [pallocLarge,hreuse]
          have hperm : (pool.handed ++ entries.reduceOption).Perm (⟨p,op.size⟩ :: ([] ++ pool.live)) :=
            ((reuseLarge_perm hreuse).append_left _).trans List.perm_middle
          exact .of_perm hperm
        | none =>
          simp only [pallocLarge,hreuse]
          exact hlink p
  cases op with
  | palloc n => exact hpalloc true
  | pnalloc n => exact hpalloc false
  | pmemalign n =>
    cases large with
    | none => exact .nothing
    | some p => exact hlink p
  | pfree p => cases hgives
  | reset => cases hgives

theorem pallocSmall_aligned {n m : Nat} (h : (pallocSmall true pool n block).2 = some m) : 8 ∣ m := by
  rw [pallocSmall] at h
  cases hfound : takeRoom true n (pool.blocks.drop pool.current) with
  | some found =>
    obtain ⟨m',blocks'⟩ := found
    rw [hfound] at h
    obtain rfl := Option.some.inj h
    obtain ⟨-,p,-,-,-,hm,-⟩ := takeRoom_some hfound
    rw [hm,tried,if_pos rfl]
    exact alignPtr_dvd p.last
  | none =>
    rw [hfound] at h
    cases block with
    | none => cases h
    | some b =>
      obtain rfl := Option.some.inj h
      exact alignPtr_dvd (b + poolDataSize)

/-- Whatever has been asked of a pool whose size the configuration allows, and in whatever
order: all memory that its users have lies apart, what comes from its blocks lies in them
and behind their headers, and the next call takes none of it away and gives memory apart
from all of it, aligned if `ngx_palloc` takes it from a block. -/
theorem pool_memory_apart (hmin : ngxMinPoolSize ≤ size) (hdvd : ngxPoolAlignment ∣ size) (h : Reachable size pool) :
    pool.live.Pairwise Region.Apart ∧
      (∀ r ∈ pool.handed, ∃ p ∈ pool.blocks, p.start + p.header ≤ r.addr ∧ r.addr + r.size ≤ p.start + size) ∧
      ∀ op large block, op.gives = true → Fresh size pool op large block →
        (∀ r ∈ pool.live, r ∈ (step pool op large block).1.live) ∧
          ∀ m, (step pool op large block).2 = some m →
            ⟨m,op.size⟩ ∈ (step pool op large block).1.live ∧ (∀ r ∈ pool.live, Region.Apart ⟨m,op.size⟩ r) ∧
              (op = .palloc op.size → op.size ≤ pool.max → 8 ∣ m) := by
  have hinv : pool.Inv size := reachable_inv hmin hdvd h
  refine ⟨hinv.handedOut.all,fun r hr => ?_,fun op large block hgives hfresh => ?_⟩
  · obtain ⟨a,ha,hstart,hend⟩ := hinv.handedOut.held r hr
    obtain ⟨p,hp,rfl⟩ := List.mem_map.mp ha
    have hlast := (hinv.handedOut.fits _ ha).2
    rw [(hinv.blocks p hp).2.1] at hlast
    exact ⟨p,hp,hstart,hend.trans hlast⟩
  · have hstep : Gives op.size pool (step pool op large block) := step_gives hinv hgives
    have hnext : (step pool op large block).1.Inv size := step_inv hmin hdvd hinv hfresh
    refine ⟨hstep.kept,fun m hm => ?_⟩
    obtain ⟨own,hperm⟩ := hstep.given m hm
    have hapart := (hperm.pairwise_iff Region.Apart.symm).mp hnext.handedOut.all
    refine ⟨hperm.mem_iff.mpr List.mem_cons_self,fun r hr => ?_,fun hop hmax => ?_⟩
    · exact (List.pairwise_cons.mp hapart).1 r (List.mem_append_right _ hr)
    · rw [hop,step,palloc,if_pos hmax] at hm
      exact pallocSmall_aligned hm

end Step

/-- A pool of 256 bytes of which 100 bytes have been asked for, and 300 that the system gives. -/
def samplePool : Pool := (step (step (createPool 4096 256) (.palloc 100) none none).1 (.palloc 300) (some 8192) none).1

theorem pool_memory_apart_sample :
    Reachable 256 samplePool ∧ samplePool.live = [⟨4280,16⟩,⟨4176,100⟩,⟨8192,300⟩] ∧
      samplePool.live.Pairwise Region.Apart := by
  have hfirst : Fresh 256 (createPool 4096 256) (.palloc 100) none none :=
    ⟨(fun p hp => nomatch hp),fun b hb => nomatch hb⟩
  have hsecond : Fresh 256 (step (createPool 4096 256) (.palloc 100) none none).1 (.palloc 300) (some 8192) none := by
    refine ⟨fun p hp => ?_,fun b hb => nomatch hb⟩
    obtain rfl := Option.some.inj hp
    decide
  have hreach : Reachable 256 samplePool :=
    .step (.step (.create 4096 (by decide)) _ none none hfirst) _ (some 8192) none hsecond
  exact ⟨hreach,by decide,(pool_memory_apart (by decide) (by decide) hreach).1⟩

end Aret.Core
