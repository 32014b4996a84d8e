import Aret.Conf.Refill

/-! `ngx_conf_parse`. The parser asks for one token after the other, and goes into a
block when the function of a directive calls it again. What it has handed to these
functions is kept as a tree. -/
namespace Aret.Conf
open Lib

/-- The directives of a block in their order, each with `cf->args`. -/
inductive Tree where
  | nil
  | directive (args : List Bytes) (next : Tree)
  | block (args : List Bytes) (nested next : Tree)
  deriving DecidableEq, Repr

inductive ParseType where
  | file | block | param
  deriving DecidableEq, Repr

inductive ReadStep (S : Type) where
  | token (rc : Token) (args : List Bytes) (s : S)
  | error (e : ConfError)

/-- Where tokens come from, with the number of the line reached. -/
structure Reader (S : Type) where
  line : S → Nat
  read : S → ReadStep S

/-- The functions of the directives, over what these have stored so far. `enter` is
`ngx_conf_handler` up to where the function it calls goes on to parse a block, if it
does, with the context of that block; `leave` is what this function does behind it. -/
structure Directives (C D : Type) where
  enter : C → D → List Bytes → Token → Except Message (D × Option C)
  leave : C → D → List Bytes → Except Message D

inductive Parsed (S D : Type) where
  | done (tree : Tree) (s : S) (d : D)
  | failed (e : ConfError)
  | spent

section Map
variable {S D : Type}

def Parsed.map (f : Tree → Tree) : Parsed S D → Parsed S D
  | .done tree s d => .done (f tree) s d
  | .failed e => .failed e
  | .spent => .spent

theorem Parsed.map_eq_done {f : Tree → Tree} {p : Parsed S D} {tree : Tree} {s : S} {d : D}
    (h : p.map f = .done tree s d) :
    ∃ t, p = .done t s d ∧ tree = f t := by
  cases p with
  | done t s' d' =>
    obtain ⟨rfl,rfl,rfl⟩ := Parsed.done.inj h
    exact ⟨t,rfl,rfl⟩
  | failed e => cases h
  | spent => cases h

end Map

/-- One pass of the parser's loop: it ends, or a directive has been handed on, with the
context of the block that follows it if there is one. -/
inductive Step (S C D : Type) where
  | stop (result : Parsed S D)
  | directive (args : List Bytes) (s : S) (d : D)
  | block (args : List Bytes) (inner : C) (s : S) (d : D)

section Parse
variable {S C D : Type} (reader : Reader S) (dirs : Directives C D)

def confStep (type : ParseType) (ctx : C) (s : S) (d : D) : Step S C D :=
  match reader.read s with
  | .error e => .stop (.failed e)
  | .token .blockDone _ s =>
    .stop (if type ≠ .block then .failed ⟨.unexpected 125,reader.line s⟩ else .done .nil s d)
  | .token .fileDone _ s =>
    .stop (if type = .block then .failed ⟨.expectingBrace,reader.line s⟩ else .done .nil s d)
  | .token rc args s =>
    if rc = .blockStart ∧ type = .param then .stop (.failed ⟨.blockInParameter,reader.line s⟩)
    else
      match dirs.enter ctx d args rc with
      | .error m => .stop (.failed ⟨m,reader.line s⟩)
      | .ok (d,none) => .directive args s d
      | .ok (d,some inner) => .block args inner s d

/-- The parser; every pass reads a token, so that `fuel` is never used up. -/
def confParse : Nat → ParseType → C → S → D → Parsed S D
  | 0,_,_,_,_ => .spent
  | fuel + 1,type,ctx,s,d =>
    match confStep reader dirs type ctx s d with
    | .stop result => result
    | .directive args s d => (confParse fuel type ctx s d).map (.directive args)
    | .block args inner s d =>
      match confParse fuel .block inner s d with
      | .done nested s d =>
        match dirs.leave inner d args with
        | .error m => .failed ⟨m,reader.line s⟩
        | .ok d => (confParse fuel type ctx s d).map (.block args nested)
      | .failed e => .failed e
      | .spent => .spent

/-- The directives are taken one after the other, every one by the block it stands in, and
`d'` is what they have stored in the end. -/
def Tree.Accepted : C → D → Tree → D → Prop
  | _,d,.nil,d' => d' = d
  | ctx,d,.directive args next,d' => ∃ d1, dirs.enter ctx d args .ok = .ok (d1,none) ∧ next.Accepted ctx d1 d'
  | ctx,d,.block args nested next,d' =>
    ∃ inner d1 d2 d3, dirs.enter ctx d args .blockStart = .ok (d1,some inner) ∧ nested.Accepted inner d1 d2 ∧
      dirs.leave inner d2 args = .ok d3 ∧ next.Accepted ctx d3 d'

/-- The same, whatever ended the words of each directive: a block may have a handler that
does not look at it. -/
def Tree.Taken : C → D → Tree → D → Prop
  | _,d,.nil,d' => d' = d
  | ctx,d,.directive args next,d' => ∃ rc d1, dirs.enter ctx d args rc = .ok (d1,none) ∧ next.Taken ctx d1 d'
  | ctx,d,.block args nested next,d' =>
    ∃ rc inner d1 d2 d3, dirs.enter ctx d args rc = .ok (d1,some inner) ∧ nested.Taken inner d1 d2 ∧
      dirs.leave inner d2 args = .ok d3 ∧ next.Taken ctx d3 d'

inductive Stepped (reader : Reader S) (dirs : Directives C D) (type : ParseType) (ctx : C) (s : S) (d : D) :
    Step S C D → Prop where
  | failed (e : ConfError) : Stepped reader dirs type ctx s d (.stop (.failed e))
  | blockDone {args : List Bytes} {s' : S} (hread : reader.read s = .token .blockDone args s') (htype : type = .block) :
    Stepped reader dirs type ctx s d (.stop (.done .nil s' d))
  | fileDone {args : List Bytes} {s' : S} (hread : reader.read s = .token .fileDone args s') (htype : type ≠ .block) :
    Stepped reader dirs type ctx s d (.stop (.done .nil s' d))
  | directive {rc : Token} {args : List Bytes} {s' : S} {d' : D} (hread : reader.read s = .token rc args s')
    (hrc : rc = .ok ∨ rc = .blockStart) (henter : dirs.enter ctx d args rc = .ok (d',none)) :
    Stepped reader dirs type ctx s d (.directive args s' d')
  | block {rc : Token} {args : List Bytes} {inner : C} {s' : S} {d' : D} (hread : reader.read s = .token rc args s')
    (hrc : rc = .ok ∨ rc = .blockStart) (henter : dirs.enter ctx d args rc = .ok (d',some inner)) :
    Stepped reader dirs type ctx s d (.block args inner s' d')

theorem confStep_stepped (type : ParseType) (ctx : C) (s : S) (d : D) :
    Stepped reader dirs type ctx s d (confStep reader dirs type ctx s d) := by
  have hcall {rc : Token} {args : List Bytes} {s' : S} (hread : reader.read s = .token rc args s')
      (hrc : rc = .ok ∨ rc = .blockStart) : Stepped reader dirs type ctx s d
        (if rc = .blockStart ∧ type = .param then .stop (.failed ⟨.blockInParameter,reader.line s'⟩)
        else match dirs.enter ctx d args rc with
          | .error m => .stop (.failed ⟨m,reader.line s'⟩)
          | .ok (d,none) => .directive args s' d
          | .ok (d,some inner) => .block args inner s' d) := by
    split_ifs
    · exact .failed _
    · split
      · exact .failed _
      · rename_i henter
        exact .directive hread hrc henter
      · rename_i henter
        exact .block hread hrc henter
  unfold confStep
  split
  · exact .failed _
  · rename_i hread
    split_ifs with htype
    · exact .failed _
    · exact .blockDone hread (not_not.mp htype)
  · rename_i hread
    split_ifs with htype
    · exact .failed _
    · exact .fileDone hread htype
  · rename_i rc args s' hblock hfile hread
    cases rc with
    | ok => exact hcall hread (.inl rfl)
    | blockStart => exact hcall hread (.inr rfl)
    | blockDone => exact (hblock rfl).elim
    | fileDone => exact (hfile rfl).elim

variable {reader dirs}

/-- What a parse that has come to its end has done first. -/
inductive ParsedTo (reader : Reader S) (dirs : Directives C D) (fuel : Nat) (type : ParseType) (ctx : C) (s : S) (d : D)
    (s' : S) (d' : D) : Tree → Prop where
  | blockDone {args : List Bytes} (hread : reader.read s = .token .blockDone args s') (htype : type = .block)
    (hd : d' = d) : ParsedTo reader dirs fuel type ctx s d s' d' .nil
  | fileDone {args : List Bytes} (hread : reader.read s = .token .fileDone args s') (htype : type ≠ .block)
    (hd : d' = d) : ParsedTo reader dirs fuel type ctx s d s' d' .nil
  | directive {rc : Token} {args : List Bytes} {t : S} {d1 : D} {next : Tree} (hread : reader.read s = .token rc args t)
    (hrc : rc = .ok ∨ rc = .blockStart) (henter : dirs.enter ctx d args rc = .ok (d1,none))
    (hnext : confParse reader dirs fuel type ctx t d1 = .done next s' d') :
    ParsedTo reader dirs fuel type ctx s d s' d' (.directive args next)
  | block {rc : Token} {args : List Bytes} {inner : C} {t u : S} {d1 d2 d3 : D} {nested next : Tree}
    (hread : reader.read s = .token rc args t) (hrc : rc = .ok ∨ rc = .blockStart)
    (henter : dirs.enter ctx d args rc = .ok (d1,some inner))
    (hnested : confParse reader dirs fuel .block inner t d1 = .done nested u d2)
    (hleave : dirs.leave inner d2 args = .ok d3)
    (hnext : confParse reader dirs fuel type ctx u d3 = .done next s' d') :
    ParsedTo reader dirs fuel type ctx s d s' d' (.block args nested next)

theorem confParse_done {fuel : Nat} {type : ParseType} {ctx : C} {s s' : S} {d d' : D} {tree : Tree}
    (h : confParse reader dirs (fuel + 1) type ctx s d = .done tree s' d') :
    ParsedTo reader dirs fuel type ctx s d s' d' tree := by
  rw [confParse] at h
  have hstepped := confStep_stepped reader dirs type ctx s d
  cases hstep : confStep reader dirs type ctx s d with
  | stop result =>
    rw [hstep] at h hstepped
    cases hstepped with
    | failed e => cases h
    | blockDone hread htype =>
      obtain ⟨rfl,rfl,rfl⟩ := Parsed.done.inj h
      exact .blockDone hread htype rfl
    | fileDone hread htype =>
      obtain ⟨rfl,rfl,rfl⟩ := Parsed.done.inj h
      exact .fileDone hread htype rfl
  | directive args t d1 =>
    rw [hstep] at h hstepped
    obtain ⟨next,hnext,rfl⟩ := Parsed.map_eq_done h
    obtain _ | _ | _ | ⟨hread,hrc,henter⟩ := hstepped
    exact .directive hread hrc henter hnext
  | block args inner t d1 =>
    rw [hstep] at h hstepped
    obtain _ | _ | _ | _ | ⟨hread,hrc,henter⟩ := hstepped
    cases hnested : confParse reader dirs fuel .block inner t d1 with
    | done nested u d2 =>
      cases hleave : dirs.leave inner d2 args with
      | error m => simp [hnested,hleave] at h
      | ok d3 =>
        simp only [hnested,hleave] at h
        obtain ⟨next,hnext,rfl⟩ := Parsed.map_eq_done h
        exact .block hread hrc henter hnested hleave hnext
    | failed e => simp [hnested] at h
    | spent => simp [hnested] at h

theorem confParse_taken {fuel : Nat} {type : ParseType} {ctx : C} {s s' : S} {d d' : D} {tree : Tree}
    (h : confParse reader dirs fuel type ctx s d = .done tree s' d') : tree.Taken dirs ctx d d' := by
  induction fuel generalizing type ctx s s' d d' tree with
  | zero => cases h
  | succ fuel ih =>
    cases confParse_done h with
    | blockDone hread htype hd => exact hd
    | fileDone hread htype hd => exact hd
    | directive hread hrc henter hnext => exact ⟨_,_,henter,ih hnext⟩
    | block hread hrc henter hnested hleave hnext => exact ⟨_,_,_,_,_,henter,ih hnested,hleave,ih hnext⟩

end Parse

section Simulation
variable {S T C D : Type}

inductive StepRel (Q : ConfError → Prop) (R : S → T → Prop) : ReadStep S → ReadStep T → Prop where
  | token {rc : Token} {args : List Bytes} {s : S} {t : T} (hrel : R s t) :
    StepRel Q R (.token rc args s) (.token rc args t)
  | error (e : ConfError) : StepRel Q R (.error e) (.error e)
  | own {e : ConfError} {step : ReadStep T} (he : Q e) : StepRel Q R (.error e) step

structure ReaderRel (Q : ConfError → Prop) (R : S → T → Prop) (reader : Reader S) (reader' : Reader T) : Prop where
  line : ∀ {s t}, R s t → reader.line s = reader'.line t
  read : ∀ {s t}, R s t → StepRel Q R (reader.read s) (reader'.read t)

inductive ParsedRel (Q : ConfError → Prop) (R : S → T → Prop) : Parsed S D → Parsed T D → Prop where
  | done {tree : Tree} {s : S} {t : T} {d : D} (hrel : R s t) : ParsedRel Q R (.done tree s d) (.done tree t d)
  | failed (e : ConfError) : ParsedRel Q R (.failed e) (.failed e)
  | spent : ParsedRel Q R .spent .spent
  | own {e : ConfError} {p : Parsed T D} (he : Q e) : ParsedRel Q R (.failed e) p

variable {Q : ConfError → Prop} {R : S → T → Prop}

theorem ParsedRel.map {p : Parsed S D} {p' : Parsed T D} (h : ParsedRel Q R p p') (f : Tree → Tree) :
    ParsedRel Q R (p.map f) (p'.map f) := by
  cases h with
  | done hrel => exact .done hrel
  | failed e => exact .failed e
  | spent => exact .spent
  | own he => exact .own he

/-- The parser cannot tell two such readers apart. -/
theorem confParse_rel {reader : Reader S} {reader' : Reader T} {dirs : Directives C D}
    (hreader : ReaderRel Q R reader reader') {fuel : Nat} {type : ParseType} {ctx : C} {s : S} {t : T} {d : D}
    (h : R s t) :
    ParsedRel Q R (confParse reader dirs fuel type ctx s d) (confParse reader' dirs fuel type ctx t d) := by
  induction fuel generalizing type ctx s t d with
  | zero => exact .spent
  | succ fuel ih =>
    have hstep := hreader.read h
    rw [confParse,confParse,confStep,confStep]
    generalize reader.read s = step at hstep
    generalize reader'.read t = step' at hstep
    cases hstep with
    | error e => exact .failed e
    | own he => exact .own he
    | @token rc args s t hrel =>
      have hline := hreader.line hrel
      have hblock {inner : C} {d : D} :
          ParsedRel Q R
            (match confParse reader dirs fuel .block inner s d with
              | .done nested s d =>
                match dirs.leave inner d args with
                | .error m => .failed ⟨m,reader.line s⟩
                | .ok d => (confParse reader dirs fuel type ctx s d).map (.block args nested)
              | .failed e => .failed e
              | .spent => .spent)
            (match confParse reader' dirs fuel .block inner t d with
              | .done nested t d =>
                match dirs.leave inner d args with
                | .error m => .failed ⟨m,reader'.line t⟩
                | .ok d => (confParse reader' dirs fuel type ctx t d).map (.block args nested)
              | .failed e => .failed e
              | .spent => .spent) := by
        have hnested : ParsedRel Q R (confParse reader dirs fuel .block inner s d)
            (confParse reader' dirs fuel .block inner t d) := ih hrel
        generalize confParse reader dirs fuel .block inner s d = p at hnested
        generalize confParse reader' dirs fuel .block inner t d = p' at hnested
        cases hnested with
        | @done nested u v d2 hrel =>
          simp only [hreader.line hrel]
          cases dirs.leave inner d2 args with
          | error m => exact .failed _
          | ok d3 => exact (ih hrel).map _
        | failed e => exact .failed e
        | spent => exact .spent
        | own he => exact .own he
      cases rc with
      | ok =>
        simp only [reduceCtorEq,false_and,if_false,hline]
        rcases dirs.enter ctx d args .ok with m | ⟨d1,_ | inner⟩
        · exact .failed _
        · exact (ih hrel).map _
        · exact hblock
      | blockStart =>
        simp only [true_and,hline]
        split_ifs
        · exact .failed _
        · rcases dirs.enter ctx d args .blockStart with m | ⟨d1,_ | inner⟩
          · exact .failed _
          · exact (ih hrel).map _
          · exact hblock
      | blockDone =>
        simp only [hline]
        split_ifs
        · exact .failed _
        · exact .done hrel
      | fileDone =>
        simp only [hline]
        split_ifs
        · exact .failed _
        · exact .done hrel

end Simulation

def fileReader (size : Nat) : Reader ConfFile where
  line := ConfFile.line
  read file :=
    match readToken size file with
    | .token rc args file => .token rc args file
    | .error e => .error e

def ConfFile.init (text : Bytes) : ConfFile := ⟨[],0,text,1,true⟩

/-- A text that is there as a whole, with the number of its line; `size` bytes may be a token. -/
def textReader (size : Nat) : Reader (Nat × Bytes) where
  line := Prod.fst
  read s :=
    match scanToken size true s.1 s.2 with
    | .token rc args line text => .token rc args (line,text)
    | .error e => .error e

def Parsed.outcome {S D : Type} : Parsed S D → Option (Except ConfError (Tree × D))
  | .done tree _ d => some (.ok (tree,d))
  | .failed e => some (.error e)
  | .spent => none

/-- `ngx_conf_parse` on a file, read through a buffer of `size` bytes. -/
def parseFile {C D : Type} (size : Nat) (dirs : Directives C D) (ctx : C) (d : D) (text : Bytes) : Parsed ConfFile D :=
  confParse (fileReader size) dirs (text.length + 1) .file ctx (.init text) d

def parseText {C D : Type} (size : Nat) (dirs : Directives C D) (ctx : C) (d : D) (text : Bytes) :
    Parsed (Nat × Bytes) D :=
  confParse (textReader size) dirs (text.length + 1) .file ctx (1,text) d

structure SamePlace (size : Nat) (file : ConfFile) (s : Nat × Bytes) : Prop where
  fits : file.buffer.length ≤ size
  pos_le : file.pos ≤ file.buffer.length
  isFile : file.isFile = true
  line : file.line = s.1
  left : file.left = s.2

theorem SamePlace.read {size : Nat} {file : ConfFile} {s : Nat × Bytes} (h : SamePlace size file s) :
    StepRel (fun _ => False) (SamePlace size) ((fileReader size).read file) ((textReader size).read s) := by
  obtain ⟨line,text⟩ := s
  obtain ⟨hfits,hpos,hisFile,rfl,rfl⟩ := h
  have hagree := readToken_agrees hfits hpos
  rw [hisFile] at hagree
  rw [fileReader,textReader]
  simp only
  generalize readToken size file = result at hagree
  generalize scanToken size true file.line file.left = scan at hagree
  cases hagree with
  | token hfits hpos hfile => exact .token ⟨hfits,hpos,hfile,rfl,rfl⟩
  | error e => exact .error e

theorem fileReader_textReader (size : Nat) :
    ReaderRel (fun _ => False) (SamePlace size) (fileReader size) (textReader size) where
  line := SamePlace.line
  read := SamePlace.read

section Text
variable {size limit : Nat} {s : Nat × Bytes}

theorem textReader_token {rc : Token} {args : List Bytes} {line : Nat} {text : Bytes}
    (h : scanToken size true s.1 s.2 = .token rc args line text) :
    (textReader size).read s = .token rc args (line,text) := by
  simp only [textReader,h]

end Text

section Outcome
variable {C D : Type} (size : Nat) (dirs : Directives C D) (ctx : C) (d : D) (text : Bytes)

/-- Where the buffer ends makes no difference. -/
theorem parseFile_text : (parseFile size dirs ctx d text).outcome = (parseText size dirs ctx d text).outcome := by
  have hinit : SamePlace size (.init text) (1,text) := ⟨Nat.zero_le _,le_rfl,rfl,rfl,rfl⟩
  have hrel : ParsedRel (fun _ => False) (SamePlace size) (parseFile size dirs ctx d text)
      (parseText size dirs ctx d text) := confParse_rel (fileReader_textReader size) hinit
  generalize parseFile size dirs ctx d text = p at hrel
  generalize parseText size dirs ctx d text = p' at hrel
  cases hrel with
  | done hrel => rfl
  | failed e => rfl
  | spent => rfl
  | own he => exact he.elim

variable {size dirs ctx d text}

theorem parseFile_taken {tree : Tree} {d' : D} (h : (parseFile size dirs ctx d text).outcome = some (.ok (tree,d'))) :
    tree.Taken dirs ctx d d' := by
  cases hparse : parseFile size dirs ctx d text with
  | done t s d1 =>
    rw [hparse] at h
    obtain ⟨rfl,rfl⟩ := Prod.mk.inj (Except.ok.inj (Option.some.inj h))
    exact confParse_taken hparse
  | failed e => simp [hparse,Parsed.outcome] at h
  | spent => simp [hparse,Parsed.outcome] at h

end Outcome

end Aret.Conf
