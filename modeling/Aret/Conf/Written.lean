import Aret.Conf.Parse

/-! Configuration files as they are written: words with or without quotes, escapes in
them, and blanks and comments between them. The parser gives back the directives. -/
namespace Aret.Conf
open Lib

inductive Gap : Bytes → Prop where
  | nil : Gap []
  | blank {ch : UInt8} {gap : Bytes} (hblank : isBlank ch = true) (hgap : Gap gap) : Gap (ch :: gap)
  | comment {text gap : Bytes} (htext : 10 ∉ text) (hgap : Gap gap) : Gap (35 :: (text ++ 10 :: gap))

/-- A byte of a word as it is, or behind a backslash. -/
inductive Piece where
  | plain (ch : UInt8)
  | escape (ch : UInt8)
  deriving DecidableEq, Repr

def Piece.text : Piece → Bytes
  | .plain ch => [ch]
  | .escape ch => [92,ch]

/-- What a piece stands for; a backslash before any other byte is kept. -/
def Piece.value : Piece → Bytes
  | .plain ch => [ch]
  | .escape ch =>
    if ch = 34 ∨ ch = 39 ∨ ch = 92 then [ch]
    else if ch = 116 then [9]
    else if ch = 114 then [13]
    else if ch = 110 then [10]
    else [92,ch]

inductive Mode where
  | bare | single | double
  deriving DecidableEq, Repr

/-- What may stand in a word without a backslash; in a word without quotes a brace may
follow a `$`. -/
def plainOk (mode : Mode) (inVariable : Bool) (ch : UInt8) : Bool :=
  (ch == 123 && inVariable) ||
    ch != 92 &&
      match mode with
      | .bare => !(isBlank ch || ch == 59 || ch == 123)
      | .single => ch != 39
      | .double => ch != 34

def variableBehind (inVariable : Bool) (ch : UInt8) : Bool := if ch = 123 ∧ inVariable then true else ch == 36

/-- Reads the pieces of a word from left to right, with the flag `variable`. -/
def bodyRun (mode : Mode) : Bool → List Piece → Option Bool
  | v,[] => some v
  | v,.plain ch :: pieces => if plainOk mode v ch then bodyRun mode (variableBehind v ch) pieces else none
  | _,.escape _ :: pieces => bodyRun mode false pieces

def firstOk : Piece → Bool
  | .plain ch => !(isBlank ch || [59,123,125,35,92,34,39].contains ch)
  | .escape _ => true

def body (pieces : List Piece) : Bytes := pieces.flatMap Piece.text

def value (pieces : List Piece) : Bytes := pieces.flatMap Piece.value

/-- The ways to write a word, and whether a brace may follow it. -/
inductive Spelled : Bytes → Bytes → Bool → Prop where
  | double {pieces : List Piece} {v : Bool} (hbody : bodyRun .double false pieces = some v) :
    Spelled (value pieces) (34 :: (body pieces ++ [34])) true
  | single {pieces : List Piece} {v : Bool} (hbody : bodyRun .single false pieces = some v) :
    Spelled (value pieces) (39 :: (body pieces ++ [39])) true
  | bare {first : Piece} {pieces : List Piece} {v : Bool} (hfirst : firstOk first = true)
    (hbody : bodyRun .bare false pieces = some v) : Spelled (value (first :: pieces)) (body (first :: pieces)) (!v)

/-- The words of a directive up to the `;` or the brace behind them. -/
inductive Phrase (size : Nat) (stop : UInt8) : List Bytes → Bytes → Prop where
  | last {word text : Bytes} {brace : Bool} (hword : Spelled word text brace) (hbrace : stop = 123 → brace = true)
    (hshort : text.length < size) : Phrase size stop [word] text
  | lastGap {word text gap : Bytes} {brace : Bool} {ch : UInt8} (hword : Spelled word text brace)
    (hblank : isBlank ch = true) (hgap : Gap gap) (hshort : (text ++ ch :: gap).length < size) :
    Phrase size stop [word] (text ++ ch :: gap)
  | more {word text gap rest : Bytes} {words : List Bytes} {brace : Bool} {ch : UInt8} (hword : Spelled word text brace)
    (hblank : isBlank ch = true) (hgap : Gap gap) (hshort : (text ++ ch :: gap).length < size)
    (hrest : Phrase size stop words rest) : Phrase size stop (word :: words) (text ++ ch :: (gap ++ rest))

/-- A way to write the directives, in which no word with what stands behind it fills the
buffer, nor what stands before a directive. -/
inductive Written (size : Nat) : Tree → Bytes → Prop where
  | nil {gap : Bytes} (hgap : Gap gap) (hshort : gap.length < size) : Written size .nil gap
  | directive {gap text rest : Bytes} {args : List Bytes} {next : Tree} (hgap : Gap gap) (hshort : gap.length < size)
    (hphrase : Phrase size 59 args text) (hnext : Written size next rest) :
    Written size (.directive args next) (gap ++ (text ++ 59 :: rest))
  | block {gap text inner rest : Bytes} {args : List Bytes} {nested next : Tree} (hgap : Gap gap)
    (hshort : gap.length < size) (hphrase : Phrase size 123 args text) (hnested : Written size nested inner)
    (hnext : Written size next rest) :
    Written size (.block args nested next) (gap ++ (text ++ 123 :: (inner ++ 125 :: rest)))

def between (args : List Bytes) (line startLine : Nat) : Flags :=
  ⟨false,true,false,false,false,false,false,args,line,startLine⟩

def Mode.flags (mode : Mode) (v : Bool) (args : List Bytes) (line startLine : Nat) : Flags :=
  ⟨false,false,false,v,false,mode == .single,mode == .double,args,line,startLine⟩

section Scan
variable {size : Nat} {isFile : Bool} {token rest : Bytes} {args : List Bytes} {line startLine : Nat}

theorem scanText_go {s s' : Flags} {move : Start} {ch : UInt8} (hlen : token.length < size)
    (hpass : pass s (token ++ [ch]) ch = .go s' move) :
    scanText size isFile token s (ch :: rest) = scanText size isFile (move.token token ch) s' rest := by
  rw [scanText,if_neg hlen.ne,hpass]

theorem scanText_done {s s' : Flags} {rc : Token} {ch : UInt8} (hlen : token.length < size)
    (hpass : pass s (token ++ [ch]) ch = .done s' rc) :
    scanText size isFile token s (ch :: rest) = .token rc s'.args s'.line rest := by
  rw [scanText,if_neg hlen.ne,hpass]

def lineBehind (line : Nat) (ch : UInt8) : Nat := if ch = 10 then line + 1 else line

theorem isBlank_newline : isBlank 10 = true := by decide

theorem pass_blank {ch : UInt8} (hblank : isBlank ch = true) (t : Bytes) :
    pass (between args line startLine) t ch = .go (between args (lineBehind line ch) startLine) .keep := by
  by_cases hline : ch = 10
  · subst hline
    simp [pass,between,bytePass,spacePass,isBlank_newline,lineBehind]
  · simp [pass,between,bytePass,spacePass,hblank,hline,lineBehind]

def comment (args : List Bytes) (line : Nat) : Flags := ⟨false,true,true,false,false,false,false,args,line,line⟩

theorem pass_comment (t : Bytes) : pass (between args line startLine) t 35 = .go (comment args line) .here := by
  simp [pass,between,bytePass,spacePass,comment,isBlank]

theorem scanText_comment {text : Bytes} (htext : 10 ∉ text) (hlen : token.length + text.length < size) :
    scanText size isFile token (comment args line) (text ++ 10 :: rest) =
      scanText size isFile (token ++ text ++ [10]) (between args (line + 1) line) rest := by
  induction text generalizing token with
  | nil =>
    have hpass (t : Bytes) : pass (comment args line) t 10 = .go (between args (line + 1) line) .keep := by
      simp [pass,comment,bytePass,spacePass,isBlank_newline,between]
    rw [List.nil_append,scanText_go (by simpa using hlen) (hpass _),List.append_nil]
    rfl
  | cons ch text ih =>
    have hne : ch ≠ 10 := fun he => htext (he ▸ List.mem_cons_self)
    have hpass (t : Bytes) : pass (comment args line) t ch = .go (comment args line) .keep := by
      simp [pass,comment,hne]
    rw [List.length_cons] at hlen
    rw [List.cons_append,scanText_go (by omega) (hpass _),Start.token,
      ih (fun hmem => htext (List.mem_cons_of_mem ch hmem)) (by rw [List.length_append,List.length_singleton]; omega)]
    simp

/-- Blanks and comments change nothing but the line, and no more bytes than they have come
to be those since `start`. -/
theorem scanText_gap {gap : Bytes} (hgap : Gap gap) (hlen : token.length + gap.length ≤ size) :
    ∃ token' line' startLine', token'.length ≤ token.length + gap.length ∧
      scanText size isFile token (between args line startLine) (gap ++ rest) =
        scanText size isFile token' (between args line' startLine') rest := by
  induction hgap generalizing token line startLine with
  | nil => exact ⟨token,line,startLine,le_rfl,rfl⟩
  | @blank ch gap hblank hgap ih =>
    rw [List.length_cons] at hlen
    have hkept : (token ++ [ch]).length + gap.length ≤ size := by
      rw [List.length_append,List.length_singleton]
      omega
    obtain ⟨token',line',startLine',hle,hscan⟩ := @ih (token ++ [ch]) (lineBehind line ch) startLine hkept
    refine ⟨token',line',startLine',?_,?_⟩
    · rw [List.length_append,List.length_singleton] at hle
      rw [List.length_cons]
      omega
    · rw [List.cons_append,scanText_go (by omega) (pass_blank hblank _)]
      exact hscan
  | @comment text gap htext hgap ih =>
    rw [List.length_cons,List.length_append,List.length_cons] at hlen
    have hkept : ([35] ++ text ++ [10]).length + gap.length ≤ size := by
      simp only [List.length_append,List.length_singleton]
      omega
    obtain ⟨token',line',startLine',hle,hscan⟩ := @ih ([35] ++ text ++ [10]) (line + 1) line hkept
    refine ⟨token',line',startLine',?_,?_⟩
    · simp only [List.length_append,List.length_singleton] at hle
      rw [List.length_cons,List.length_append,List.length_cons]
      omega
    · rw [List.cons_append,scanText_go (by omega) (pass_comment _),List.append_assoc,List.cons_append,Start.token,
        scanText_comment htext (by simp only [List.length_singleton]; omega)]
      exact hscan

section Word
variable {mode : Mode} {v : Bool} {ch : UInt8}

theorem pass_word (t : Bytes) : pass (mode.flags v args line startLine) t ch =
    wordPass (mode.flags v args (lineBehind line ch) startLine) t ch := by
  by_cases hline : ch = 10
  · subst hline
    simp [pass,Mode.flags,bytePass,lineBehind]
  · simp [pass,Mode.flags,bytePass,lineBehind,hline]

theorem pass_plain (hplain : plainOk mode v ch = true) (t : Bytes) :
    pass (mode.flags v args line startLine) t ch =
      .go (mode.flags (variableBehind v ch) args (lineBehind line ch) startLine) .keep := by
  rw [pass_word,wordPass]
  by_cases hbrace : ch = 123 ∧ v = true
  · obtain ⟨rfl,rfl⟩ := hbrace
    simp [Mode.flags,variableBehind]
  · have hnot : ¬ (ch = 123 ∧ (mode.flags v args (lineBehind line ch) startLine).inVariable = true) := hbrace
    have hbehind : variableBehind v ch = (ch == 36) := if_neg hbrace
    simp only [plainOk,Bool.or_eq_true,Bool.and_eq_true,beq_iff_eq,hbrace,false_or,bne_iff_ne] at hplain
    obtain ⟨hslash,hmode⟩ := hplain
    rw [if_neg hnot,hbehind]
    by_cases hdollar : ch = 36
    · subst hdollar
      simp [Mode.flags]
    · cases mode <;> simp_all [Mode.flags]

theorem pass_quoted (t : Bytes) : pass { mode.flags v args line startLine with quoted := true } t ch =
    .go (mode.flags v args (lineBehind line ch) startLine) .keep := by
  by_cases hline : ch = 10
  · subst hline
    simp [pass,Mode.flags,lineBehind]
  · simp [pass,Mode.flags,lineBehind,hline]

/-- A backslash inside a word takes the byte behind it. -/
theorem scanText_escape (hlen : token.length + 1 < size) :
    scanText size isFile token (mode.flags v args line startLine) (92 :: ch :: rest) =
      scanText size isFile (token ++ [92,ch]) (mode.flags false args (lineBehind line ch) startLine) rest := by
  have hfirst (t : Bytes) : pass (mode.flags v args line startLine) t 92 =
      .go { mode.flags false args line startLine with quoted := true } .keep := by
    rw [pass_word,wordPass]
    simp [Mode.flags,lineBehind]
  have hkept : (token ++ [92]).length < size := by
    rw [List.length_append,List.length_singleton]
    omega
  rw [scanText_go (by omega) (hfirst _),Start.token,scanText_go hkept (pass_quoted _),Start.token,List.append_assoc]
  rfl

theorem scanText_body {v' : Bool} {pieces : List Piece} (hbody : bodyRun mode v pieces = some v')
    (hlen : token.length + (body pieces).length ≤ size) :
    ∃ line', scanText size isFile token (mode.flags v args line startLine) (body pieces ++ rest) =
      scanText size isFile (token ++ body pieces) (mode.flags v' args line' startLine) rest := by
  induction pieces generalizing token v line with
  | nil =>
    obtain rfl := Option.some.inj hbody
    exact ⟨line,by simp [body]⟩
  | cons piece pieces ih =>
    have hsplit : body (piece :: pieces) = piece.text ++ body pieces := List.flatMap_cons
    rw [hsplit,List.length_append] at hlen
    cases piece with
    | plain ch =>
      rw [bodyRun] at hbody
      split_ifs at hbody with hplain
      have hone : (Piece.plain ch).text.length = 1 := rfl
      rw [hone] at hlen
      obtain ⟨line',hscan⟩ := @ih (token ++ [ch]) (lineBehind line ch) _ hbody
        (by rw [List.length_append,List.length_singleton]; omega)
      refine ⟨line',?_⟩
      rw [hsplit,List.append_assoc,Piece.text,List.singleton_append,scanText_go (by omega) (pass_plain hplain _),
        Start.token,hscan,List.append_assoc,List.singleton_append]
    | escape ch =>
      rw [bodyRun] at hbody
      have htwo : (Piece.escape ch).text.length = 2 := rfl
      rw [htwo] at hlen
      obtain ⟨line',hscan⟩ := @ih (token ++ [92,ch]) (lineBehind line ch) _ hbody
        (by rw [List.length_append]; simp only [List.length_cons,List.length_nil]; omega)
      refine ⟨line',?_⟩
      rw [hsplit,List.append_assoc,Piece.text,List.cons_append,List.singleton_append,scanText_escape (by omega),hscan,
        List.append_assoc]

theorem copyWord_cons (hne : ch ≠ 92) {s : Bytes} (hs : s ≠ []) : copyWord (ch :: s) = ch :: copyWord s := by
  cases s with
  | nil => exact absurd rfl hs
  | cons next s => rw [copyWord,if_neg hne]

theorem copyWord_escape {s : Bytes} (hs : s ≠ []) :
    copyWord (92 :: ch :: s) = (Piece.escape ch).value ++ copyWord s := by
  rw [copyWord,if_pos rfl,Piece.value]
  split_ifs with hkept
  · rfl
  · rfl
  · rfl
  · rfl
  · rw [copyWord_cons (fun he => hkept (.inr (.inr he))) hs]
    rfl

def Clean (pieces : List Piece) : Prop := ∀ ch, .plain ch ∈ pieces → ch ≠ 92

theorem bodyRun_clean {pieces : List Piece} {v' : Bool} (hbody : bodyRun mode v pieces = some v') : Clean pieces := by
  induction pieces generalizing v with
  | nil => exact fun ch hch => absurd hch List.not_mem_nil
  | cons piece pieces ih =>
    intro c hc
    cases piece with
    | plain ch =>
      rw [bodyRun] at hbody
      split_ifs at hbody with hplain
      rcases List.mem_cons.mp hc with heq | hmem
      · obtain rfl := Piece.plain.inj heq
        rintro rfl
        simp [plainOk] at hplain
      · exact ih hbody c hmem
    | escape ch =>
      rw [bodyRun] at hbody
      rcases List.mem_cons.mp hc with heq | hmem
      · cases heq
      · exact ih hbody c hmem

/-- The copy of a word is what its pieces stand for. -/
theorem copyWord_body {pieces : List Piece} (hclean : Clean pieces) (stop : UInt8) :
    copyWord (body pieces ++ [stop]) = value pieces := by
  induction pieces with
  | nil => rfl
  | cons piece pieces ih =>
    have hsplit : body (piece :: pieces) = piece.text ++ body pieces := List.flatMap_cons
    have hvalue : value (piece :: pieces) = piece.value ++ value pieces := List.flatMap_cons
    have hne : body pieces ++ [stop] ≠ [] := by simp
    have hrest := ih fun ch hch => hclean ch (List.mem_cons_of_mem piece hch)
    cases piece with
    | plain ch =>
      rw [hsplit,hvalue,List.append_assoc,Piece.text,List.singleton_append,
        copyWord_cons (hclean ch List.mem_cons_self) hne,hrest]
      rfl
    | escape ch =>
      rw [hsplit,hvalue,List.append_assoc,Piece.text,List.cons_append,List.singleton_append,copyWord_escape hne,hrest]

def closed (args : List Bytes) (line startLine : Nat) : Flags :=
  ⟨true,false,false,false,false,false,false,args,line,startLine⟩

inductive Quotes : Mode → UInt8 → Prop where
  | single : Quotes .single 39
  | double : Quotes .double 34

theorem pass_open {q : UInt8} (hq : Quotes mode q) (t : Bytes) :
    pass (between args line startLine) t q = .go (mode.flags false args line line) .behind := by
  cases hq <;> simp [pass,between,bytePass,spacePass,isBlank,Mode.flags]

theorem pass_close {q : UInt8} (hq : Quotes mode q) (t : Bytes) :
    pass (mode.flags v args line startLine) t q = .go (closed (args ++ [copyWord t]) line startLine) .keep := by
  rw [pass_word,wordPass]
  cases hq <;> simp [Mode.flags,foundWord,closed,lineBehind]

theorem scanText_quoted {q : UInt8} (hq : Quotes mode q) {pieces : List Piece} {v' : Bool}
    (hbody : bodyRun mode false pieces = some v') (hlen : token.length < size) (hshort : (body pieces).length < size) :
    ∃ line', scanText size isFile token (between args line startLine) (q :: (body pieces ++ [q]) ++ rest) =
      scanText size isFile (body pieces ++ [q]) (closed (args ++ [value pieces]) line' line) rest := by
  obtain ⟨line',hscan⟩ : ∃ line', scanText size isFile [] (mode.flags false args line line) (body pieces ++ q :: rest) =
      scanText size isFile ([] ++ body pieces) (mode.flags v' args line' line) (q :: rest) :=
    scanText_body hbody (by simpa using hshort.le)
  refine ⟨line',?_⟩
  rw [List.cons_append,scanText_go hlen (pass_open hq _),List.append_assoc,List.singleton_append,Start.token,hscan,
    List.nil_append,scanText_go hshort (pass_close hq _),copyWord_body (bodyRun_clean hbody)]
  rfl

theorem pass_first (hfirst : firstOk (.plain ch) = true) (t : Bytes) :
    pass (between args line startLine) t ch = .go (Mode.bare.flags false args line line) .here := by
  simp only [firstOk,Bool.not_eq_true',Bool.or_eq_false_iff] at hfirst
  obtain ⟨hblank,hspecial⟩ := hfirst
  have hline : ch ≠ 10 := by
    rintro rfl
    simp [isBlank] at hblank
  simp only [List.contains_cons,List.contains_nil,Bool.or_eq_false_iff,beq_eq_false_iff_ne] at hspecial
  obtain ⟨hsemicolon,hopen,hclose,hsharp,hslash,hdouble,hsingle,-⟩ := hspecial
  simp [pass,between,bytePass,spacePass,Mode.flags,hline,hblank,hsemicolon,hopen,hclose,hsharp,hslash,hdouble,hsingle]

/-- A word without quotes, up to the byte that ends it. -/
theorem scanText_bare {first : Piece} {pieces : List Piece} {v' : Bool} (hfirst : firstOk first = true)
    (hbody : bodyRun .bare false pieces = some v') (hlen : token.length < size)
    (hshort : (body (first :: pieces)).length ≤ size) :
    ∃ line', scanText size isFile token (between args line startLine) (body (first :: pieces) ++ rest) =
      scanText size isFile (body (first :: pieces)) (Mode.bare.flags v' args line' line) rest := by
  have hsplit : body (first :: pieces) = first.text ++ body pieces := List.flatMap_cons
  rw [hsplit,List.length_append] at hshort
  -- the first piece, behind which the flag `variable` is not set
  have hstart : ∃ line', scanText size isFile token (between args line startLine)
      (first.text ++ (body pieces ++ rest)) =
      scanText size isFile first.text (Mode.bare.flags false args line' line) (body pieces ++ rest) := by
    cases first with
    | plain ch =>
      refine ⟨line,?_⟩
      rw [Piece.text,List.singleton_append,scanText_go hlen (pass_first hfirst _)]
      rfl
    | escape ch =>
      have hbackslash (t : Bytes) : pass (between args line startLine) t 92 =
          .go { Mode.bare.flags false args line line with quoted := true } .here := by
        simp [pass,between,bytePass,spacePass,isBlank,Mode.flags]
      have htwo : (Piece.escape ch).text.length = 2 := rfl
      rw [htwo] at hshort
      refine ⟨lineBehind line ch,?_⟩
      rw [Piece.text,List.cons_append,List.singleton_append,scanText_go hlen (hbackslash _),Start.token,
        scanText_go (by simp only [List.length_singleton]; omega) (pass_quoted _)]
      rfl
  obtain ⟨line',hfirst'⟩ := hstart
  obtain ⟨line'',hscan⟩ : ∃ line'', scanText size isFile first.text (Mode.bare.flags false args line' line)
      (body pieces ++ rest) =
      scanText size isFile (first.text ++ body pieces) (Mode.bare.flags v' args line'' line) rest :=
        scanText_body hbody hshort
  exact ⟨line'',by rw [hsplit,List.append_assoc,hfirst',hscan]⟩

theorem pass_closedBlank (hblank : isBlank ch = true) (t : Bytes) :
    pass (closed args line startLine) t ch = .go (between args (lineBehind line ch) startLine) .keep := by
  by_cases hline : ch = 10
  · subst hline
    simp [pass,closed,isBlank_newline,lineBehind,between]
  · simp [pass,closed,hblank,hline,lineBehind,between]

theorem pass_bareBlank (hblank : isBlank ch = true) (t : Bytes) :
    pass (Mode.bare.flags v args line startLine) t ch =
      .go (between (args ++ [copyWord t]) (lineBehind line ch) startLine) .keep := by
  have hne : ch ≠ 123 ∧ ch ≠ 92 ∧ ch ≠ 36 ∧ ch ≠ 59 := by
    refine ⟨?_,?_,?_,?_⟩ <;> rintro rfl <;> simp [isBlank] at hblank
  rw [pass_word,wordPass]
  simp [Mode.flags,foundWord,between,hblank,hne]

def stopToken (stop : UInt8) : Token := if stop = 123 then .blockStart else .ok

theorem pass_closedStop {stop : UInt8} (hstop : stop = 59 ∨ stop = 123) (t : Bytes) :
    pass (closed args line startLine) t stop = .done (closed args line startLine) (stopToken stop) := by
  rcases hstop with rfl | rfl <;> simp [pass,closed,isBlank,stopToken]

theorem pass_bareStop {stop : UInt8} (hstop : stop = 59 ∨ stop = 123) (hbrace : stop = 123 → v = false) (t : Bytes) :
    ∃ s, pass (Mode.bare.flags v args line startLine) t stop = .done s (stopToken stop) ∧
      s.args = args ++ [copyWord t] := by
  rw [pass_word,wordPass]
  rcases hstop with rfl | rfl
  · simp [Mode.flags,foundWord,isBlank,stopToken]
  · simp [Mode.flags,foundWord,isBlank,stopToken,hbrace rfl]

theorem pass_stop {stop : UInt8} (hstop : stop = 59 ∨ stop = 123) (hargs : args ≠ []) (t : Bytes) :
    ∃ s, pass (between args line startLine) t stop = .done s (stopToken stop) ∧ s.args = args := by
  rcases hstop with rfl | rfl <;> simp [pass,between,bytePass,spacePass,isBlank,stopToken,hargs]

end Word

/-- A word has been read up to the byte that ends it. -/
inductive WordRead (args : List Bytes) (word : Bytes) : Bool → Bytes → Flags → Prop where
  | closed {token : Bytes} {line startLine : Nat} :
      WordRead args word true token (closed (args ++ [word]) line startLine)
  | bare {token : Bytes} {v : Bool} {line startLine : Nat} (hcopy : ∀ ch, copyWord (token ++ [ch]) = word) :
    WordRead args word (!v) token (Mode.bare.flags v args line startLine)

variable {word text : Bytes} {brace : Bool} {s : Flags}

theorem Spelled.read (h : Spelled word text brace) (hlen : token.length < size) (hshort : text.length < size)
    (rest : Bytes) :
    ∃ token' s, token'.length ≤ text.length ∧ WordRead args word brace token' s ∧
      scanText size isFile token (between args line startLine) (text ++ rest) = scanText size isFile token' s rest := by
  have hquoted {mode : Mode} {q : UInt8} (hq : Quotes mode q) {pieces : List Piece} {v : Bool}
      (hbody : bodyRun mode false pieces = some v) (hshort : (q :: (body pieces ++ [q])).length < size) :
      ∃ token' s, token'.length ≤ (q :: (body pieces ++ [q])).length ∧ WordRead args (value pieces) true token' s ∧
        scanText size isFile token (between args line startLine) (q :: (body pieces ++ [q]) ++ rest) =
          scanText size isFile token' s rest := by
    rw [List.length_cons,List.length_append,List.length_singleton] at hshort
    obtain ⟨line',hscan⟩ := scanText_quoted hq hbody hlen (by omega)
    exact ⟨_,_,Nat.le_succ _,.closed,hscan⟩
  cases h with
  | double hbody => exact hquoted .double hbody hshort
  | single hbody => exact hquoted .single hbody hshort
  | @bare first pieces v hfirst hbody =>
    obtain ⟨line',hscan⟩ : ∃ line', scanText size isFile token (between args line startLine)
        (body (first :: pieces) ++ rest) =
        scanText size isFile (body (first :: pieces)) (Mode.bare.flags v args line' line) rest :=
      scanText_bare hfirst hbody hlen hshort.le
    have hclean : Clean (first :: pieces) := by
      intro ch hch
      rcases List.mem_cons.mp hch with rfl | hmem
      · rintro rfl
        simp [firstOk] at hfirst
      · exact bodyRun_clean hbody ch hmem
    exact ⟨_,_,le_rfl,.bare fun ch => copyWord_body hclean ch,hscan⟩

theorem WordRead.blank (h : WordRead args word brace token s) {ch : UInt8} (hblank : isBlank ch = true) :
    ∃ line' startLine', pass s (token ++ [ch]) ch = .go (between (args ++ [word]) line' startLine') .keep := by
  cases h with
  | closed => exact ⟨_,_,pass_closedBlank hblank _⟩
  | bare hcopy => exact ⟨_,_,by rw [pass_bareBlank hblank,hcopy]⟩

theorem WordRead.stop (h : WordRead args word brace token s) {stop : UInt8} (hstop : stop = 59 ∨ stop = 123)
    (hbrace : stop = 123 → brace = true) :
    ∃ s', pass s (token ++ [stop]) stop = .done s' (stopToken stop) ∧ s'.args = args ++ [word] := by
  cases h with
  | closed => exact ⟨_,pass_closedStop hstop _,rfl⟩
  | bare hcopy =>
    obtain ⟨s',hpass,hargs⟩ := pass_bareStop hstop (fun h => by simpa using hbrace h) (token ++ [stop])
    exact ⟨s',hpass,by rw [hargs,hcopy]⟩

theorem Spelled.gap (h : Spelled word text brace) {ch : UInt8} {gap : Bytes} (hblank : isBlank ch = true)
    (hgap : Gap gap)
    (hlen : token.length < size) (hshort : (text ++ ch :: gap).length < size) (rest : Bytes) :
    ∃ token' line' startLine', token'.length < size ∧
      scanText size isFile token (between args line startLine) (text ++ ch :: (gap ++ rest)) =
        scanText size isFile token' (between (args ++ [word]) line' startLine') rest := by
  rw [List.length_append,List.length_cons] at hshort
  obtain ⟨token1,s,hle,hread,hscan⟩ := h.read hlen (by omega) (ch :: (gap ++ rest))
  obtain ⟨line1,startLine1,hpass⟩ := hread.blank hblank
  obtain ⟨token2,line2,startLine2,hle2,hscan2⟩ :
      ∃ token' line' startLine', token'.length ≤ (token1 ++ [ch]).length + gap.length ∧
        scanText size isFile (token1 ++ [ch]) (between (args ++ [word]) line1 startLine1) (gap ++ rest) =
          scanText size isFile token' (between (args ++ [word]) line' startLine') rest :=
    scanText_gap hgap (by rw [List.length_append,List.length_singleton]; omega)
  refine ⟨token2,line2,startLine2,?_,?_⟩
  · rw [List.length_append,List.length_singleton] at hle2
    omega
  · rw [hscan,scanText_go (by omega) hpass,Start.token,hscan2]

theorem Phrase.scan {stop : UInt8} {words : List Bytes} (h : Phrase size stop words text)
    (hstop : stop = 59 ∨ stop = 123)
    (hlen : token.length < size) (rest : Bytes) :
    ∃ line', scanText size isFile token (between args line startLine) (text ++ stop :: rest) =
      .token (stopToken stop) (args ++ words) line' rest := by
  induction h generalizing token args line startLine with
  | @last word text brace hword hbrace hshort =>
    obtain ⟨token1,s,hle,hread,hscan⟩ := hword.read hlen hshort (stop :: rest)
    obtain ⟨s',hpass,hargs⟩ := hread.stop hstop hbrace
    exact ⟨s'.line,by rw [hscan,scanText_done (by omega) hpass,hargs]⟩
  | @lastGap word text gap brace ch hword hblank hgap hshort =>
    obtain ⟨token1,line1,startLine1,hlen1,hscan⟩ := hword.gap hblank hgap hlen hshort (stop :: rest)
    obtain ⟨s',hpass,hargs⟩ := pass_stop hstop (by simp : args ++ [word] ≠ []) (token1 ++ [stop])
    exact ⟨s'.line,by rw [List.append_assoc,List.cons_append,hscan,scanText_done hlen1 hpass,hargs]⟩
  | @more word text gap tail words brace ch hword hblank hgap hshort hrest ih =>
    obtain ⟨token1,line1,startLine1,hlen1,hscan⟩ := hword.gap hblank hgap hlen hshort (tail ++ stop :: rest)
    obtain ⟨line2,hscan2⟩ := @ih token1 (args ++ [word]) line1 startLine1 hlen1
    refine ⟨line2,?_⟩
    rw [List.append_assoc,List.cons_append,List.append_assoc,hscan,hscan2,List.append_assoc]
    rfl

end Scan

section RoundTrip
variable {size line : Nat} {gap text rest : Bytes}

/-- What stands before a directive or behind the last one. -/
theorem scanToken_gap (hgap : Gap gap) (hshort : gap.length < size) (line : Nat) (rest : Bytes) :
    ∃ token line' startLine', token.length < size ∧
      scanToken size true line (gap ++ rest) = scanText size true token (between [] line' startLine') rest := by
  obtain ⟨token,line',startLine',hle,hscan⟩ :
      ∃ token' line' startLine', token'.length ≤ ([] : Bytes).length + gap.length ∧
        scanText size true [] (between [] line line) (gap ++ rest) =
          scanText size true token' (between [] line' startLine') rest :=
    scanText_gap hgap (by simpa using hshort.le)
  rw [List.length_nil,Nat.zero_add] at hle
  exact ⟨token,line',startLine',by omega,hscan⟩

theorem textReader_phrase {stop : UInt8} {words : List Bytes} (hgap : Gap gap) (hshort : gap.length < size)
    (hphrase : Phrase size stop words text) (hstop : stop = 59 ∨ stop = 123) :
    ∃ line', (textReader size).read (line,gap ++ (text ++ stop :: rest)) =
      .token (stopToken stop) words (line',rest) := by
  obtain ⟨token,line1,startLine1,hlen,hscan⟩ := scanToken_gap hgap hshort line (text ++ stop :: rest)
  obtain ⟨line',hscan'⟩ : ∃ line', scanText size true token (between [] line1 startLine1) (text ++ stop :: rest) =
      .token (stopToken stop) ([] ++ words) line' rest := hphrase.scan hstop hlen rest
  exact ⟨line',textReader_token (by rw [hscan,hscan',List.nil_append])⟩

theorem textReader_blockDone (hgap : Gap gap) (hshort : gap.length < size) :
    ∃ line', (textReader size).read (line,gap ++ 125 :: rest) = .token .blockDone [] (line',rest) := by
  obtain ⟨token,line1,startLine1,hlen,hscan⟩ := scanToken_gap hgap hshort line (125 :: rest)
  have hpass (t : Bytes) : pass (between [] line1 startLine1) t 125 = .done (between [] line1 line1) .blockDone := by
    simp [pass,between,bytePass,spacePass,isBlank]
  exact ⟨line1,textReader_token (by rw [hscan,scanText_done hlen (hpass _)]; rfl)⟩

theorem textReader_fileDone (hgap : Gap gap) (hshort : gap.length < size) :
    ∃ line', (textReader size).read (line,gap) = .token .fileDone [] (line',[]) := by
  obtain ⟨token,line1,startLine1,hlen,hscan⟩ := scanToken_gap hgap hshort line []
  rw [List.append_nil] at hscan
  exact ⟨line1,textReader_token (by rw [hscan]; rfl)⟩

/-- How a list of directives ends: with a brace, or with the file. -/
inductive Ending : ParseType → Bytes → Bytes → Prop where
  | block (left : Bytes) : Ending .block (125 :: left) left
  | file : Ending .file [] []

variable {C D : Type} {dirs : Directives C D}

theorem Written.parse {tree : Tree} (h : Written size tree text) {ctx : C} {d d' : D}
    (haccepted : tree.Accepted dirs ctx d d')
    {type : ParseType} {tail left : Bytes} (hending : Ending type tail left) {fuel : Nat}
    (hfuel : (text ++ tail).length < fuel) :
    ∃ line', confParse (textReader size) dirs fuel type ctx (line,text ++ tail) d = .done tree (line',left) d' := by
  induction h generalizing ctx d d' type tail left fuel line with
  | @nil gap hgap hshort =>
    obtain rfl : d' = d := haccepted
    cases fuel with
    | zero => omega
    | succ fuel =>
      cases hending with
      | block =>
        obtain ⟨line',hread⟩ : ∃ line',
            (textReader size).read (line,gap ++ 125 :: left) = .token .blockDone [] (line',left) :=
          textReader_blockDone hgap hshort
        exact ⟨line',by rw [confParse,confStep,hread]; rfl⟩
      | file =>
        obtain ⟨line',hread⟩ : ∃ line', (textReader size).read (line,gap) = .token .fileDone [] (line',[]) :=
          textReader_fileDone hgap hshort
        exact ⟨line',by rw [List.append_nil,confParse,confStep,hread]; rfl⟩
  | @directive gap text rest args next hgap hshort hphrase hnext ih =>
    obtain ⟨d1,henter,haccepted⟩ := haccepted
    cases fuel with
    | zero => omega
    | succ fuel =>
      have hsplit : gap ++ (text ++ 59 :: rest) ++ tail = gap ++ (text ++ 59 :: (rest ++ tail)) := by simp
      rw [hsplit] at hfuel ⊢
      obtain ⟨line1,hread⟩ : ∃ line1, (textReader size).read (line,gap ++ (text ++ 59 :: (rest ++ tail))) =
          .token .ok args (line1,rest ++ tail) := textReader_phrase hgap hshort hphrase (.inl rfl)
      have hless : (rest ++ tail).length < fuel := by
        simp only [List.length_append,List.length_cons] at hfuel ⊢
        omega
      obtain ⟨line',hparse⟩ := @ih line1 ctx d1 d' haccepted type tail left hending fuel hless
      refine ⟨line',?_⟩
      rw [confParse,confStep,hread]
      simp only [reduceCtorEq,false_and,if_false,henter,hparse,Parsed.map]
  | @block gap text inner rest args nested next hgap hshort hphrase hnested hnext ihnested ihnext =>
    obtain ⟨ctx',d1,d2,d3,henter,hinner,hleave,haccepted⟩ := haccepted
    cases fuel with
    | zero => omega
    | succ fuel =>
      have hsplit : gap ++ (text ++ 123 :: (inner ++ 125 :: rest)) ++ tail =
          gap ++ (text ++ 123 :: (inner ++ 125 :: (rest ++ tail))) := by simp
      rw [hsplit] at hfuel ⊢
      obtain ⟨line1,hread⟩ : ∃ line1,
          (textReader size).read (line,gap ++ (text ++ 123 :: (inner ++ 125 :: (rest ++ tail)))) =
            .token .blockStart args (line1,inner ++ 125 :: (rest ++ tail)) :=
        textReader_phrase hgap hshort hphrase (.inr rfl)
      have hless : (inner ++ 125 :: (rest ++ tail)).length < fuel ∧ (rest ++ tail).length < fuel := by
        simp only [List.length_append,List.length_cons] at hfuel ⊢
        omega
      obtain ⟨line2,hparse⟩ := @ihnested line1 ctx' d1 d2 hinner .block _ _ (.block (rest ++ tail)) fuel hless.1
      obtain ⟨line',hparse'⟩ := @ihnext line2 ctx d3 d' haccepted type tail left hending fuel hless.2
      have htype : type ≠ .param := by cases hending <;> simp
      refine ⟨line',?_⟩
      rw [confParse,confStep,hread]
      simp only [htype,and_false,if_false,henter,hparse,hleave,hparse',Parsed.map]

/-- A word in double quotes. -/
def quotedPieces (word : Bytes) : List Piece := word.map fun ch => if ch = 34 ∨ ch = 92 then .escape ch else .plain ch

def quote (word : Bytes) : Bytes := 34 :: (body (quotedPieces word) ++ [34])

theorem bodyRun_quotedPieces (word : Bytes) (v : Bool) : ∃ v', bodyRun .double v (quotedPieces word) = some v' := by
  induction word generalizing v with
  | nil => exact ⟨v,rfl⟩
  | cons ch word ih =>
    rw [quotedPieces,List.map_cons,← quotedPieces]
    split_ifs with hspecial
    · exact ih false
    · have hplain : plainOk .double v ch = true := by simp_all [plainOk]
      rw [bodyRun,if_pos hplain]
      exact ih _

theorem value_quotedPieces (word : Bytes) : value (quotedPieces word) = word := by
  induction word with
  | nil => rfl
  | cons ch word ih =>
    have hfirst : (if ch = 34 ∨ ch = 92 then Piece.escape ch else .plain ch).value = [ch] := by
      split_ifs with hspecial
      · rcases hspecial with rfl | rfl <;> rfl
      · rfl
    have hsplit : value (quotedPieces (ch :: word)) =
        (if ch = 34 ∨ ch = 92 then Piece.escape ch else .plain ch).value ++ value (quotedPieces word) :=
          List.flatMap_cons
    rw [hsplit,hfirst,ih,List.singleton_append]

theorem spelled_quote (word : Bytes) : Spelled word (quote word) true := by
  obtain ⟨v,hbody⟩ := bodyRun_quotedPieces word false
  have hspelled := Spelled.double hbody
  rwa [value_quotedPieces] at hspelled

def printWords (words : List Bytes) : Bytes := words.flatMap fun word => quote word ++ [32]

def Tree.print : Tree → Bytes
  | .nil => []
  | .directive args next => printWords args ++ 59 :: next.print
  | .block args nested next => printWords args ++ 123 :: (nested.print ++ 125 :: next.print)

/-- Every directive has a name, and every word in quotes fits the buffer. -/
def Tree.Printable (size : Nat) : Tree → Prop
  | .nil => True
  | .directive args next => args ≠ [] ∧ (∀ word ∈ args, (quote word).length + 1 < size) ∧ next.Printable size
  | .block args nested next =>
    args ≠ [] ∧ (∀ word ∈ args, (quote word).length + 1 < size) ∧ nested.Printable size ∧ next.Printable size

theorem phrase_printWords {stop : UInt8} {words : List Bytes} (hne : words ≠ [])
    (hshort : ∀ word ∈ words, (quote word).length + 1 < size) : Phrase size stop words (printWords words) := by
  induction words with
  | nil => exact absurd rfl hne
  | cons word words ih =>
    obtain ⟨hword,hwords⟩ := List.forall_mem_cons.mp hshort
    have hlen : (quote word ++ 32 :: []).length < size := by
      rw [List.length_append]
      exact hword
    cases words with
    | nil =>
      have hprint : printWords [word] = quote word ++ 32 :: [] := by simp [printWords]
      rw [hprint]
      exact .lastGap (spelled_quote word) (by decide) .nil hlen
    | cons next words =>
      have hmore : Phrase size stop (word :: next :: words) (quote word ++ 32 :: ([] ++ printWords (next :: words))) :=
        .more (spelled_quote word) (by decide) .nil hlen (ih (List.cons_ne_nil next words) hwords)
      have hprint : printWords (word :: next :: words) = quote word ++ 32 :: ([] ++ printWords (next :: words)) := by
        simp [printWords]
      rwa [hprint]

/-- Every tree of directives with a name can be written. -/
theorem written_print (hsize : 0 < size) {tree : Tree} (h : tree.Printable size) : Written size tree tree.print := by
  induction tree with
  | nil => exact .nil .nil hsize
  | directive args next ih =>
    obtain ⟨hne,hshort,hnext⟩ := h
    exact .directive .nil hsize (phrase_printWords hne hshort) (ih hnext)
  | block args nested next ihnested ihnext =>
    obtain ⟨hne,hshort,hnested,hnext⟩ := h
    exact .block .nil hsize (phrase_printWords hne hshort) (ihnested hnested) (ihnext hnext)

/-- Any way of writing the directives, read through the buffer, gives them back: every word
with its escapes undone, every block in its place, and their functions have been called in
that order. -/
theorem conf_round_trip {tree : Tree} (h : Written size tree text) {ctx : C} {d d' : D}
    (haccepted : tree.Accepted dirs ctx d d') : (parseFile size dirs ctx d text).outcome = some (.ok (tree,d')) := by
  obtain ⟨line',hparse⟩ : ∃ line', confParse (textReader size) dirs (text.length + 1) .file ctx (1,text ++ []) d =
      .done tree (line',[]) d' := h.parse haccepted .file (by simp)
  rw [List.append_nil] at hparse
  rw [parseFile_text,parseText,hparse]
  rfl

end RoundTrip

/-- Directives that are counted. -/
def countDirectives : Directives Unit Nat where
  enter _ n _ rc := .ok (n + 1,if rc = .blockStart then some () else none)
  leave _ n _ := .ok n

def sampleBlock : Tree := .block [[97]] (.directive [[99],[100,39],[120]] .nil) .nil

/-- `a {#b` and, behind a newline, `c 'd\'' x; }`. -/
def sampleText : Bytes := [97,32,123,35,98,10,99,32,39,100,92,39,39,32,120,59,32,125]

theorem conf_round_trip_sample :
    Written 8 sampleBlock sampleText ∧
      (parseFile 8 countDirectives () 0 sampleText).outcome = some (.ok (sampleBlock,2)) := by
  have hbare (ch : UInt8) (hch : firstOk (.plain ch) = true) : Spelled [ch] [ch] true :=
    @Spelled.bare (.plain ch) [] false hch rfl
  have hsingle : Spelled [100,39] [39,100,92,39,39] true :=
    @Spelled.single [.plain 100,.escape 39] _ (by decide : bodyRun .single false [.plain 100,.escape 39] = some false)
  have hlast : Phrase 8 59 [[120]] [120] := .last (hbare 120 (by decide)) (by decide) (by decide)
  have hwords : Phrase 8 59 [[99],[100,39],[120]] [99,32,39,100,92,39,39,32,120] :=
    .more (hbare 99 (by decide)) (by decide : isBlank 32 = true) .nil (by decide)
      (.more hsingle (by decide : isBlank 32 = true) .nil (by decide) hlast)
  have hgap : Gap [35,98,10] := @Gap.comment [98] [] (by decide) .nil
  have hend : Gap [32] := .blank (by decide) .nil
  have hnested : Written 8 (.directive [[99],[100,39],[120]] .nil) [35,98,10,99,32,39,100,92,39,39,32,120,59,32] :=
    .directive hgap (by decide) hwords (.nil hend (by decide))
  have hname : Phrase 8 123 [[97]] [97,32] :=
    .lastGap (hbare 97 (by decide)) (by decide : isBlank 32 = true) .nil (by decide)
  have hwritten : Written 8 sampleBlock sampleText := .block .nil (by decide) hname hnested (.nil .nil (by decide))
  have haccepted : sampleBlock.Accepted countDirectives () 0 2 := ⟨(),1,2,2,rfl,⟨2,rfl,rfl⟩,rfl,rfl⟩
  exact ⟨hwritten,conf_round_trip hwritten haccepted⟩

end Aret.Conf
