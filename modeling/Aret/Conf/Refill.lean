import Aret.Conf.ReadToken
import Mathlib.Data.List.TakeDrop

/-! Reading through the buffer is reading the text as a whole, except that the bytes
since `start` must not fill a buffer. Where the buffer happens to end, and how often
a word is moved in it, makes no difference. -/
namespace Aret.Conf
open Lib

inductive ScanResult where
  | token (rc : Token) (args : List Bytes) (line : Nat) (text : Bytes)
  | error (e : ConfError)
  deriving DecidableEq, Repr

/-- The bytes since `start` after a pass. -/
def Start.token (token : Bytes) (ch : UInt8) : Start → Bytes
  | .keep => token ++ [ch]
  | .here => [ch]
  | .behind => []

/-- The passes over a text that is there as a whole. -/
def scanText (size : Nat) (isFile : Bool) : Bytes → Flags → Bytes → ScanResult
  | _,s,[] =>
    match endOfFile s isFile with
    | none => .token .fileDone s.args s.line []
    | some e => .error e
  | token,s,ch :: text =>
    if token.length = size then .error (tooLong s token)
    else
      match pass s (token ++ [ch]) ch with
      | .go s move => scanText size isFile (move.token token ch) s text
      | .done s rc => .token rc s.args s.line text
      | .error e => .error e

/-- The buffer holds the token and then the text, as far as it has been read. -/
structure Window (size : Nat) (file : ConfFile) (start : Nat) (token text : Bytes) : Prop where
  fits : file.buffer.length ≤ size
  start_le : start ≤ file.pos
  pos_le : file.pos ≤ file.buffer.length
  token_eq : file.token start = token
  left_eq : file.left = text

inductive Agree (size : Nat) (isFile : Bool) : ReadResult → ScanResult → Prop where
  | token {rc : Token} {args : List Bytes} {file : ConfFile} (hfits : file.buffer.length ≤ size)
    (hpos : file.pos ≤ file.buffer.length) (hfile : file.isFile = isFile) :
    Agree size isFile (.token rc args file) (.token rc args file.line file.left)
  | error (e : ConfError) : Agree size isFile (.error e) (.error e)

section Window
variable {size start : Nat} {file : ConfFile} {token text : Bytes} {s : Flags}

theorem Window.token_length (h : Window size file start token text) : token.length = file.pos - start := by
  have hpos := h.pos_le
  rw [← h.token_eq,ConfFile.token,List.length_take,List.length_drop]
  omega

theorem Window.next (h : Window size file start token text) (hlt : file.pos < file.buffer.length) :
    ∃ ch rest, text = ch :: rest ∧ file.buffer.getD file.pos 0 = ch ∧
      (∀ move, Window size { file with pos := file.pos + 1 } (Start.move start (file.pos + 1) move)
        (move.token token ch) rest) := by
  obtain ⟨ch,hch⟩ : ∃ ch, file.buffer[file.pos]? = some ch := ⟨_,List.getElem?_eq_getElem hlt⟩
  have hdrop : file.buffer.drop file.pos = ch :: file.buffer.drop (file.pos + 1) := by
    rw [List.drop_eq_getElem?_toList_append,hch]
    rfl
  refine ⟨ch,{ file with pos := file.pos + 1 }.left,?_,?_,fun move => ⟨h.fits,?_,hlt,?_,rfl⟩⟩
  · rw [← h.left_eq,ConfFile.left,hdrop]
    rfl
  · rw [List.getD_eq_getElem?_getD,hch]
    rfl
  · have hstart := h.start_le
    cases move <;> simp only [Start.move] <;> omega
  · cases move with
    | keep =>
      have hstart := h.start_le
      have hget : (file.buffer.drop start)[file.pos - start]? = some ch := by
        rw [List.getElem?_drop,Nat.add_sub_cancel' hstart,hch]
      rw [ConfFile.token,Start.move,Start.token,Nat.sub_add_comm hstart,List.take_add_one,hget,← h.token_eq]
      rfl
    | here =>
      rw [ConfFile.token,Start.move,Start.token,Nat.add_sub_cancel,Nat.add_sub_cancel_left,hdrop]
      rfl
    | behind => rw [ConfFile.token,Start.move,Start.token,Nat.sub_self,List.take_zero]

theorem Window.refill (h : Window size file start token text) (hend : ¬ file.pos < file.buffer.length)
    (hrest : file.rest ≠ []) (hlen : token.length ≠ size) :
    ∃ file', refill size file start s = .ready file' 0 ∧ Window size file' 0 token text ∧
      file'.pos < file'.buffer.length ∧ file'.isFile = file.isFile := by
  have hlength := h.token_length
  have hfits := h.fits
  have hpos := h.pos_le
  have hmore := List.length_pos_of_ne_nil hrest
  refine ⟨⟨token ++ file.rest.take (size - token.length),token.length,file.rest.drop (size - token.length),file.line,
    file.isFile⟩,?_,⟨?_,Nat.zero_le _,?_,?_,?_⟩,?_,rfl⟩
  · rw [Conf.refill,if_neg hend,if_neg hrest,← hlength,if_neg hlen,h.token_eq]
  · rw [List.length_append,List.length_take]
    omega
  · simp only [List.length_append]
    omega
  · rw [ConfFile.token,List.drop_zero,Nat.sub_zero,List.take_left]
  · rw [← h.left_eq,ConfFile.left,ConfFile.left,List.drop_left,List.take_append_drop,List.drop_of_length_le (by omega),
      List.nil_append]
  · simp only [List.length_append,List.length_take]
    omega

theorem refill_ready (hlt : file.pos < file.buffer.length) : refill size file start s = .ready file start := by
  rw [Conf.refill,if_pos hlt]

theorem readLoop_refill {fuel : Nat} {file' : ConfFile} {start' : Nat}
    (h : refill size file start s = .ready file' start')
    (hlt : file'.pos < file'.buffer.length) :
    readLoop size (fuel + 1) file start s = readLoop size (fuel + 1) file' start' s := by
  rw [readLoop,readLoop,h,refill_ready hlt]

/-- Over the whole loop, from any place of the buffer. -/
theorem readLoop_agrees {fuel : Nat} (h : Window size file start token text) (hfuel : text.length < fuel) :
    Agree size file.isFile (readLoop size fuel file start s) (scanText size file.isFile token s text) := by
  induction fuel generalizing file start token text s with
  | zero => omega
  | succ fuel ih =>
    -- a pass for the byte at `b->pos`
    have hpass {file : ConfFile} {start : Nat} (h : Window size file start token text)
        (hlt : file.pos < file.buffer.length) :
        Agree size file.isFile (readLoop size (fuel + 1) file start s) (scanText size file.isFile token s text) := by
      have hlength := h.token_length
      have hfits := h.fits
      obtain ⟨ch,rest,rfl,hch,hnext⟩ := h.next hlt
      have htoken : { file with pos := file.pos + 1 }.token start = token ++ [ch] := (hnext .keep).token_eq
      rw [readLoop,refill_ready hlt,scanText,if_neg (by omega)]
      simp only [hch,htoken]
      cases pass s (token ++ [ch]) ch with
      | go s move => exact ih (hnext move) (by simpa using hfuel)
      | done s rc =>
        have hleft := (hnext .keep).left_eq
        subst hleft
        have hagree : Agree size file.isFile (.token rc s.args { file with pos := file.pos + 1, line := s.line })
            (.token rc s.args s.line { file with pos := file.pos + 1 }.left) := .token hfits hlt rfl
        exact hagree
      | error e => exact .error e
    by_cases hlt : file.pos < file.buffer.length
    · exact hpass h hlt
    · have hleft := h.left_eq
      rw [ConfFile.left,List.drop_of_length_le (by omega),List.nil_append] at hleft
      subst hleft
      cases hrest : file.rest with
      | nil =>
        rw [readLoop,Conf.refill,if_neg hlt,if_pos hrest,scanText]
        cases endOfFile s file.isFile with
        | none =>
          have hdone : { file with line := s.line }.left = [] := by
            rw [ConfFile.left,hrest,List.drop_of_length_le (by simp only; omega)]
            rfl
          have hagree : Agree size file.isFile (.token .fileDone s.args { file with line := s.line })
              (.token .fileDone s.args s.line { file with line := s.line }.left) := .token h.fits h.pos_le rfl
          rwa [hdone] at hagree
        | some e => exact .error e
      | cons ch rest =>
        have hne : file.rest ≠ [] := by simp [hrest]
        by_cases hlen : token.length = size
        · have hlong : file.pos - start = size := h.token_length.symm.trans hlen
          rw [readLoop,Conf.refill,if_neg hlt,if_neg hne,if_pos hlong,scanText,if_pos hlen,h.token_eq]
          exact .error _
        · obtain ⟨file',hrefill,hwindow,hlt',hfile⟩ := h.refill (s := s) hlt hne hlen
          rw [readLoop_refill hrefill hlt',← hrest,← hfile]
          exact hpass hwindow hlt'

end Window

def scanToken (size : Nat) (isFile : Bool) (line : Nat) (text : Bytes) : ScanResult :=
  scanText size isFile [] (.init line) text

theorem readToken_agrees {size : Nat} {file : ConfFile} (hfits : file.buffer.length ≤ size)
    (hpos : file.pos ≤ file.buffer.length) :
    Agree size file.isFile (readToken size file) (scanToken size file.isFile file.line file.left) := by
  have htoken : file.token file.pos = [] := by rw [ConfFile.token,Nat.sub_self,List.take_zero]
  exact readLoop_agrees ⟨hfits,le_rfl,hpos,htoken,rfl⟩ (Nat.lt_succ_self _)

end Aret.Conf
