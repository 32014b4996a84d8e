import Aret.Lib.Prefixes
import Aret.Lib.Sscanf

/-! How nginx stores the locations of a server and finds the one for a request:
`ngx_http_add_location` and the functions that turn the queue of locations into a
tree, and the search of that tree by `ngx_http_core_find_static_location`. -/
namespace Aret.Http
open Lib

inductive LocationKind where
  | exact | inclusive | regex | named | noname
  deriving DecidableEq, Repr

/-- What the location tables look at in an `ngx_http_core_loc_conf_t`; `locConf`
stands for the rest of it. -/
structure CoreLocConf (α : Type) where
  name : Bytes
  kind : LocationKind
  autoRedirect : Bool
  locConf : α
  deriving DecidableEq, Repr

/-- `ngx_http_location_queue_t` without its list. -/
structure LocationQueue (α : Type) where
  name : Bytes
  exact : Option (CoreLocConf α)
  inclusive : Option (CoreLocConf α)
  deriving DecidableEq, Repr

inductive LocationList (α : Type) where
  | mk (lq : LocationQueue α) (list : List (LocationList α))

/-- `ngx_http_location_tree_node_t`; `nil` is the null pointer, and `len` a `u_char`. -/
inductive LocationTree (α : Type) where
  | nil
  | node (left right tree : LocationTree α) (exact inclusive : Option (CoreLocConf α)) (autoRedirect : Bool) (len : Nat)
      (name : Bytes)

def strcmp (s t : Bytes) : Ordering := order (cString s) (cString t)

def strncmpEq (s t : Bytes) (n : Nat) : Bool := cString (s.take n) == cString (t.take n)

def memcmp (s t : Bytes) (n : Nat) : Ordering := order (s.take n) (t.take n)

/-- `ngx_queue_sort` moves an element forward past those that compare greater. -/
def queueInsert {β : Type} (compare : β → β → Ordering) (sorted : List β) (q : β) : List β :=
  (sorted.reverse.dropWhile (fun prev => compare prev q == .gt)).reverse ++
    q :: (sorted.reverse.takeWhile (fun prev => compare prev q == .gt)).reverse

def queueSort {β : Type} (compare : β → β → Ordering) (queue : List β) : List β :=
  queue.foldl (queueInsert compare) []

section
variable {α : Type}

def addLocation (locations : List (LocationQueue α)) (clcf : CoreLocConf α) : List (LocationQueue α) :=
  locations ++ [match clcf.kind with
    | .inclusive => ⟨clcf.name,none,some clcf⟩
    | _ => ⟨clcf.name,some clcf,none⟩]

/-- `lq->exact ? lq->exact : lq->inclusive`. -/
def LocationQueue.clcf (lq : LocationQueue α) : Option (CoreLocConf α) := lq.exact <|> lq.inclusive

def LocationQueue.kind (lq : LocationQueue α) : Option LocationKind := lq.clcf.map CoreLocConf.kind

/-- Locations without a name go to the end, before them the named ones, before
these the regular expressions; the static ones are sorted by name. -/
def cmpLocations (one two : LocationQueue α) : Ordering :=
  let first := one.kind
  let second := two.kind
  if first = some .noname ∧ second ≠ some .noname then .gt
  else if first ≠ some .noname ∧ second = some .noname then .lt
  else if first = some .noname ∨ second = some .noname then .eq
  else if first = some .named ∧ second ≠ some .named then .gt
  else if first ≠ some .named ∧ second = some .named then .lt
  else if first = some .named ∧ second = some .named then strcmp one.name two.name
  else if first = some .regex ∧ second ≠ some .regex then .gt
  else if first ≠ some .regex ∧ second = some .regex then .lt
  else if first = some .regex ∨ second = some .regex then .eq
  else if strcmp one.name two.name = .eq ∧ first ≠ some .exact ∧ second = some .exact then .gt
  else strcmp one.name two.name

/-- What `ngx_http_init_locations` leaves in the queue: it cuts off the tail at the
first location of each other kind. -/
def initLocations (locations : List (LocationQueue α)) : List (LocationQueue α) :=
  let sorted := queueSort cmpLocations locations
  let named := sorted.takeWhile (fun lq => lq.kind ≠ some .noname)
  let regex := named.takeWhile (fun lq => lq.kind ≠ some .named)
  regex.takeWhile (fun lq => lq.kind ≠ some .regex)

/-- `ngx_http_join_exact_locations` from the element `lq` on; `none` is the error
"duplicate location". -/
def joinExactLocations (lq : LocationQueue α) : List (LocationQueue α) → Option (List (LocationQueue α))
  | [] => some [lq]
  | lx :: rest =>
    if strcmp lq.name lx.name = .eq then
      if (lq.exact.isSome && lx.exact.isSome) || (lq.inclusive.isSome && lx.inclusive.isSome) then none
      else joinExactLocations { lq with inclusive := lx.inclusive } rest
    else (joinExactLocations lx rest).map (lq :: ·)

def below (lq lx : LocationQueue α) : Bool :=
  lq.name.length ≤ lx.name.length && strncmpEq lq.name lx.name lq.name.length

/-- Locations whose names extend that of an inclusive one move into its list. -/
def createLocationsList : Nat → List (LocationQueue α) → List (LocationList α)
  | 0,_ => []
  | _ + 1,[] => []
  | n + 1,lq :: rest =>
    match lq.inclusive with
    | none => .mk lq [] :: createLocationsList n rest
    | some _ =>
      .mk lq (createLocationsList n (rest.takeWhile (below lq))) ::
        createLocationsList n (rest.dropWhile (below lq))

/-- The middle of the queue becomes the root, and names are stored from `skip` on. -/
def createLocationsTree : Nat → List (LocationList α) → Nat → LocationTree α
  | 0,_,_ => .nil
  | n + 1,locations,skip =>
    match locations[locations.length / 2]? with
    | none => .nil
    | some (.mk lq list) =>
      let len := lq.name.length - skip
      .node (createLocationsTree n (locations.take (locations.length / 2)) skip)
        (createLocationsTree n (locations.drop (locations.length / 2 + 1)) skip)
        (createLocationsTree n list (skip + len)) lq.exact lq.inclusive
        (lq.exact.any CoreLocConf.autoRedirect || lq.inclusive.any CoreLocConf.autoRedirect) (len % 256)
        (lq.name.drop skip)

/-- `ngx_http_init_static_location_trees` on the locations of one block. -/
def initStaticLocationTrees (locs : List (CoreLocConf α)) : Option (LocationTree α) :=
  match initLocations (locs.foldl addLocation []) with
  | [] => some .nil
  | lq :: rest =>
    (joinExactLocations lq rest).map (fun locations =>
      createLocationsTree locations.length (createLocationsList locations.length locations) 0)

inductive LocationRc where
  | ok | done | again | declined
  deriving DecidableEq, Repr

def findStaticLocation : LocationTree α → Bytes → LocationRc × Option (CoreLocConf α) →
    LocationRc × Option (CoreLocConf α)
  | .nil,_,st => st
  | .node left right tree exact inclusive autoRedirect len name,uri,st =>
    let n := if uri.length ≤ len then uri.length else len
    match memcmp uri name n with
    | .lt => findStaticLocation left uri st
    | .gt => findStaticLocation right uri st
    | .eq =>
      if len < uri.length then
        match inclusive with
        | some clcf => findStaticLocation tree (uri.drop n) (.again,some clcf)
        | none => findStaticLocation right uri st
      else if uri.length = len then
        match exact with
        | some clcf => (.ok,some clcf)
        | none => (.again,inclusive)
      else
        findStaticLocation left uri
          (if uri.length + 1 = len ∧ autoRedirect = true then (.done,exact <|> inclusive) else st)

end

end Aret.Http
