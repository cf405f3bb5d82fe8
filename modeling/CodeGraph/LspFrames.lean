import CodeGraph.AstPersist
import CodeGraph.UnifiedDiff
import CodeGraph.Lib.Json
import CodeGraph.Lib.Percent
import CodeGraph.Lib.Wire

/-!
# The frames of a language server

`lsp_client/protocol.rs` and `frames.rs`: a message is the length of its body, a blank line
and the body. The thread that reads them goes on behind a body that is no JSON, and stops
where it cannot tell any more where a body ends.
-/

namespace CodeGraph

open List

namespace Lsp

open Percent (utf8 utf8_append utf8_nil fromUtf8 fromUtf8_utf8)
open Wire (Bytes)
open GitDiff (parseU64 parseU64_toDigits)
open Ast (isWhiteSpace isWhiteSpace_of_isDigit trim_eq_self)

inductive FrameError where
  | payload (m : Text)
  | fatal (m : Text)
  | timeout (m : Text)

namespace FrameError

def message : FrameError → Text
  | payload m | fatal m | timeout m => m

def isSkippable : FrameError → Bool
  | payload _ => true
  | fatal _ | timeout _ => false

end FrameError

abbrev Frame := Except FrameError Json

/-- `read_line`: the bytes up to the newline and with it, or up to the end. -/
def readLine (bytes : Bytes) : Bytes × Bytes :=
  match bytes with
  | [] => ([], [])
  | b :: bytes =>
      if b = 10 then ([b], bytes)
      else ((b :: (readLine bytes).1), (readLine bytes).2)

theorem readLine_append : ∀ bytes : Bytes, (readLine bytes).1 ++ (readLine bytes).2 = bytes
  | [] => rfl
  | b :: bytes => by
      rw [readLine]
      split
      · rfl
      · rw [cons_append, readLine_append bytes]

theorem readLine_shorter {bytes : Bytes} (h : (readLine bytes).1 ≠ []) :
    (readLine bytes).2.length < bytes.length := by
  have happend := congrArg List.length (readLine_append bytes)
  have hpos := length_pos_of_ne_nil h
  rw [length_append] at happend
  omega

theorem readLine_line : ∀ {line : Bytes}, (10 : UInt8) ∉ line → ∀ rest : Bytes,
    readLine (line ++ 10 :: rest) = (line ++ [10], rest)
  | [], _, rest => rfl
  | b :: line, h, rest => by
      rw [mem_cons, not_or] at h
      rw [cons_append, readLine, if_neg (Ne.symm h.1), readLine_line h.2 rest]
      rfl

def white : CharClass := ⟨isWhiteSpace, Char.isAlphanum⟩

/-- The headers up to the blank line, the last `Content-Length` counting. -/
def readHeaders (contentLength : Option Nat) (sawAnyByte : Bool) (bytes : Bytes) :
    Except FrameError (Option Nat × Bytes) :=
  if h : (readLine bytes).1 = [] then
    .error (.fatal (if sawAnyByte then "eof_before_body: partial header then EOF".toList
      else "eof_before_header: child stdout closed without LSP framing".toList))
  else
    match fromUtf8 (readLine bytes).1 with
    | none => .error (.fatal "read header line: stream did not contain valid UTF-8".toList)
    | some line =>
        have := readLine_shorter h
        let trimmed := trim white line
        if trimmed = [] then .ok (contentLength, (readLine bytes).2)
        else
          match stripPrefix "Content-Length:".toList trimmed with
          | some rest => readHeaders (parseU64 (trim white rest)) true (readLine bytes).2
          | none => readHeaders contentLength true (readLine bytes).2
termination_by bytes.length

/-- What a read leaves behind a failure is never looked at. -/
def readLspMessage (fromSlice : Bytes → Except Text Json) (bytes : Bytes) : Frame × Bytes :=
  match readHeaders none false bytes with
  | .error e => (.error e, [])
  | .ok (none, rest) => (.error (.fatal "missing Content-Length header".toList), rest)
  | .ok (some len, rest) =>
      if rest.length < len then
        (.error (.fatal ("read body (".toList ++ Nat.toDigits 10 len ++
          " bytes): failed to fill whole buffer".toList)), [])
      else
        match fromSlice (rest.take len) with
        | .ok v => (.ok v, rest.drop len)
        | .error e => (.error (.payload ("parse JSON body: ".toList ++ e)), rest.drop len)

/-- `matches!(frame, Err(FrameError::Fatal(_)))` -/
def Stops : Frame → Prop
  | .error (.fatal _) => True
  | _ => False

instance : DecidablePred Stops
  | .ok _ => .isFalse id
  | .error (.payload _) => .isFalse id
  | .error (.fatal _) => .isTrue trivial
  | .error (.timeout _) => .isFalse id

theorem readHeaders_shorter {contentLength : Option Nat} {sawAnyByte : Bool} {bytes : Bytes}
    {len : Option Nat} {rest : Bytes}
    (h : readHeaders contentLength sawAnyByte bytes = .ok (len, rest)) :
    rest.length < bytes.length := by
  fun_induction readHeaders contentLength sawAnyByte bytes with
  | case1 => cases h
  | case2 => cases h
  | case3 => cases h; assumption
  | case4 _ _ _ _ _ _ hshorter _ _ _ _ ih => exact (ih h).trans hshorter
  | case5 _ _ _ _ _ _ hshorter _ _ _ ih => exact (ih h).trans hshorter

variable {fromSlice : Bytes → Except Text Json}

theorem readLspMessage_shorter {bytes : Bytes} (h : ¬Stops (readLspMessage fromSlice bytes).1) :
    (readLspMessage fromSlice bytes).2.length < bytes.length := by
  revert h
  rw [readLspMessage]
  split
  · next e heq =>
    -- The header loop fails in no other way.
    intro h
    refine absurd ?_ h
    revert heq
    generalize (none : Option Nat) = len, false = saw
    intro heq
    fun_induction readHeaders len saw bytes with
    | case1 => cases heq; exact trivial
    | case2 => cases heq; exact trivial
    | case3 => cases heq
    | case4 _ _ _ _ _ _ _ _ _ _ _ ih => exact ih heq
    | case5 _ _ _ _ _ _ _ _ _ _ ih => exact ih heq
  · intro h
    exact absurd trivial h
  · next len rest heq =>
    have hheaders := readHeaders_shorter heq
    split
    · intro h
      exact absurd trivial h
    · have hdrop : (rest.drop len).length ≤ rest.length := by
        rw [length_drop]
        omega
      split <;> exact fun _ => hdrop.trans_lt hheaders

/-- `spawn_frame_reader`: what the thread sends down the channel, of a stream that ends. -/
def readFrames (fromSlice : Bytes → Except Text Json) (bytes : Bytes) : List Frame :=
  if h : Stops (readLspMessage fromSlice bytes).1 then [(readLspMessage fromSlice bytes).1]
  else
    have := readLspMessage_shorter h
    (readLspMessage fromSlice bytes).1 :: readFrames fromSlice (readLspMessage fromSlice bytes).2
termination_by bytes.length

theorem readFrames_cons {bytes : Bytes} (h : ¬Stops (readLspMessage fromSlice bytes).1) :
    readFrames fromSlice bytes =
      (readLspMessage fromSlice bytes).1 :: readFrames fromSlice (readLspMessage fromSlice bytes).2 := by
  rw [readFrames, dif_neg h]

/-- `write_lsp_message`, on the other end of the pipe. -/
def writeLspMessage (msg : Bytes) : Bytes :=
  utf8 ("Content-Length: ".toList ++ Nat.toDigits 10 msg.length ++ "\r\n\r\n".toList) ++ msg

/-! ## What was framed is read frame by frame -/

def bodyFrame (fromSlice : Bytes → Except Text Json) (body : Bytes) : Frame :=
  match fromSlice body with
  | .ok v => .ok v
  | .error e => .error (.payload ("parse JSON body: ".toList ++ e))

theorem not_stops_bodyFrame (body : Bytes) : ¬Stops (bodyFrame fromSlice body) := by
  rw [bodyFrame]
  split <;> exact id

theorem newline_notMem_utf8 {text : Text} (h : ∀ c ∈ text, c.toNat < 128 ∧ c ≠ '\n') :
    (10 : UInt8) ∉ utf8 text := by
  rw [utf8, mem_flatMap]
  rintro ⟨c, hc, hmem⟩
  obtain ⟨hascii, hne⟩ := h c hc
  rw [← Char.ofNat_toNat c, Percent.utf8EncodeChar_ofNat hascii, mem_singleton] at hmem
  have htoNat : 10 = c.toNat := by
    have hnat := congrArg UInt8.toNat hmem
    rwa [UInt8.toNat_ofNat', Nat.mod_eq_of_lt (by omega)] at hnat
  exact hne (by rw [← Char.ofNat_toNat c, ← htoNat])

theorem digit_ascii {n : Nat} {c : Char} (h : c ∈ Nat.toDigits 10 n) : c.toNat < 128 ∧ c ≠ '\n' := by
  obtain ⟨-, hdigit⟩ : 48 ≤ c.toNat ∧ c.toNat ≤ 57 :=
    Char.isDigit_iff_toNat.mp (Nat.isDigit_of_mem_toDigits (by decide) le_rfl h)
  refine ⟨by omega, ?_⟩
  rintro rfl
  exact absurd (Nat.isDigit_of_mem_toDigits (by decide) le_rfl h) (by decide)

/-- The only header of a frame, without the newline behind it. -/
def lengthHeader (n : Nat) : Text := "Content-Length: ".toList ++ Nat.toDigits 10 n ++ ['\r']

theorem newline_notMem_lengthHeader (n : Nat) : (10 : UInt8) ∉ utf8 (lengthHeader n) := by
  refine newline_notMem_utf8 fun c hc => ?_
  unfold lengthHeader at hc
  rw [mem_append, mem_append] at hc
  rcases hc with (hc | hc) | hc
  · have hall : "Content-Length: ".toList.all fun c => c.toNat < 128 ∧ c ≠ '\n' := by decide
    exact of_decide_eq_true (all_eq_true.mp hall c hc)
  · exact digit_ascii hc
  · rw [mem_singleton.mp hc]
    decide

theorem trim_digits (n : Nat) : trim white (' ' :: Nat.toDigits 10 n) = Nat.toDigits 10 n := by
  have hdigits : ∀ c ∈ Nat.toDigits 10 n, white.isWhitespace c = false := fun c hc =>
    isWhiteSpace_of_isDigit (Nat.isDigit_of_mem_toDigits (by decide) le_rfl hc)
  have hself : trim white (Nat.toDigits 10 n) = Nat.toDigits 10 n :=
    trim_eq_self (fun c hc => hdigits c (mem_of_mem_head? hc))
      fun c hc => hdigits c (mem_of_getLast? hc)
  rw [trim, dropWhile_cons_of_pos (by decide)]
  exact hself

theorem trim_lengthHeader (n : Nat) : trim white (lengthHeader n ++ ['\n']) =
    "Content-Length: ".toList ++ Nat.toDigits 10 n := by
  have hend : (lengthHeader n ++ ['\n']).reverse.dropWhile white.isWhitespace =
      ("Content-Length: ".toList ++ Nat.toDigits 10 n).reverse := by
    have hrev : (lengthHeader n ++ ['\n']).reverse =
        '\n' :: '\r' :: ("Content-Length: ".toList ++ Nat.toDigits 10 n).reverse := by
      unfold lengthHeader
      simp only [reverse_append, reverse_singleton, cons_append, nil_append]
    rw [hrev, dropWhile_cons_of_pos (by decide), dropWhile_cons_of_pos (by decide)]
    obtain ⟨d, ds, hds⟩ := exists_cons_of_ne_nil
      (reverse_ne_nil_iff.mpr (Nat.toDigits_ne_nil (b := 10) (n := n)))
    have hd : d ∈ Nat.toDigits 10 n := by
      rw [← mem_reverse, hds]
      exact mem_cons_self
    rw [reverse_append, hds, cons_append, dropWhile_cons_of_neg]
    exact Bool.not_eq_true _ ▸
      isWhiteSpace_of_isDigit (Nat.isDigit_of_mem_toDigits (by decide) le_rfl hd)
  have hstart : (lengthHeader n ++ ['\n']).dropWhile white.isWhitespace = lengthHeader n ++ ['\n'] := by
    have hcons : lengthHeader n ++ ['\n'] =
        'C' :: ("ontent-Length: ".toList ++ Nat.toDigits 10 n ++ ['\r'] ++ ['\n']) := rfl
    rw [hcons, dropWhile_cons_of_neg (by decide)]
  rw [trim, hstart, hend, reverse_reverse]

theorem readHeaders_line {len : Option Nat} {saw : Bool} {bytes rest : Bytes} {line : Text}
    (hread : readLine bytes = (utf8 line, rest)) (hne : utf8 line ≠ []) :
    readHeaders len saw bytes =
      if trim white line = [] then .ok (len, rest)
      else
        match stripPrefix "Content-Length:".toList (trim white line) with
        | some value => readHeaders (parseU64 (trim white value)) true rest
        | none => readHeaders len true rest := by
  have hline : (readLine bytes).1 = utf8 line := congrArg Prod.fst hread
  have hrest : (readLine bytes).2 = rest := congrArg Prod.snd hread
  rw [readHeaders, dif_neg (hline ▸ hne)]
  simp only [hline, hrest, fromUtf8_utf8]

theorem readHeaders_write {n : Nat} (hn : n < 2 ^ 64) (rest : Bytes) :
    readHeaders none false (utf8 (lengthHeader n ++ ['\n']) ++ 13 :: 10 :: rest) =
      .ok (some n, rest) := by
  have hread : readLine (utf8 (lengthHeader n ++ ['\n']) ++ 13 :: 10 :: rest) =
      (utf8 (lengthHeader n ++ ['\n']), 13 :: 10 :: rest) := by
    rw [utf8_append, append_assoc]
    exact readLine_line (newline_notMem_lengthHeader n) (13 :: 10 :: rest)
  have hne : utf8 (lengthHeader n ++ ['\n']) ≠ [] := by
    rw [utf8_append]
    exact append_ne_nil_of_right_ne_nil _ (by decide)
  have hblank : readLine (13 :: 10 :: rest) = (utf8 ['\r', '\n'], rest) := rfl
  have hprefix : stripPrefix "Content-Length:".toList
      ("Content-Length: ".toList ++ Nat.toDigits 10 n) = some (' ' :: Nat.toDigits 10 n) := rfl
  rw [readHeaders_line hread hne, trim_lengthHeader,
    if_neg (append_ne_nil_of_right_ne_nil _ Nat.toDigits_ne_nil), hprefix]
  dsimp only
  rw [trim_digits, parseU64_toDigits hn, readHeaders_line hblank (by decide), if_pos (by decide)]

theorem writeLspMessage_eq (body : Bytes) : writeLspMessage body =
    utf8 (lengthHeader body.length ++ ['\n']) ++ 13 :: 10 :: body := by
  have htext : "Content-Length: ".toList ++ Nat.toDigits 10 body.length ++ "\r\n\r\n".toList =
      (lengthHeader body.length ++ ['\n']) ++ ['\r', '\n'] := by
    have hend : "\r\n\r\n".toList = ['\r'] ++ (['\n'] ++ ['\r', '\n']) := rfl
    unfold lengthHeader
    simp only [hend, append_assoc]
  have hblank : utf8 ['\r', '\n'] = [13, 10] := rfl
  rw [writeLspMessage, htext, utf8_append, hblank, append_assoc, cons_append,
    cons_append, nil_append]

theorem readLspMessage_write {body : Bytes} (hbody : body.length < 2 ^ 64) (rest : Bytes) :
    readLspMessage fromSlice (writeLspMessage body ++ rest) = (bodyFrame fromSlice body, rest) := by
  rw [writeLspMessage_eq, append_assoc, cons_append, cons_append, readLspMessage,
    readHeaders_write hbody]
  dsimp only
  rw [if_neg (by rw [length_append]; omega), take_left, drop_left, bodyFrame]
  split <;> rfl

/-- The thread reads one frame after another, whatever the bodies are, up to where the stream
cannot be read on: an output may be taken for a list of frames. -/
theorem readFrames_write {bodies : List Bytes} (hbodies : ∀ body ∈ bodies, body.length < 2 ^ 64)
    {tail : Bytes} (htail : Stops (readLspMessage fromSlice tail).1) :
    readFrames fromSlice (bodies.flatMap writeLspMessage ++ tail) =
      bodies.map (bodyFrame fromSlice) ++ [(readLspMessage fromSlice tail).1] := by
  induction bodies with
  | nil =>
    rw [flatMap_nil, nil_append, readFrames, dif_pos htail]
    rfl
  | cons body bodies ih =>
    rw [forall_mem_cons] at hbodies
    have hread : readLspMessage fromSlice
        (writeLspMessage body ++ (bodies.flatMap writeLspMessage ++ tail)) =
          (bodyFrame fromSlice body, bodies.flatMap writeLspMessage ++ tail) :=
      readLspMessage_write hbodies.1 _
    have hgo : ¬Stops (readLspMessage fromSlice
        (writeLspMessage body ++ (bodies.flatMap writeLspMessage ++ tail))).1 := by
      rw [hread]
      exact not_stops_bodyFrame body
    rw [flatMap_cons, append_assoc, readFrames_cons hgo, hread, ih hbodies.2]
    rfl

end Lsp

end CodeGraph
