import CodeGraph.CfgLex
import Mathlib.Data.List.Forall2

/-!
# String literals

The bodies of string literals as the language has them, escape by escape, and how far the
decoder of the lexer agrees. Both read the same pieces of a text; they differ in what a
piece stands for.
-/

namespace CodeGraph

open Option List

/-! ## Literals of the language -/

/-- An escape and the character it stands for. In braces there are one to six digits,
each with any number of underscores behind it. -/
inductive Escape : Text → Char → Prop
  | simple {c d : Char} (h : simpleEscape c = some d) : Escape ['\\', c] d
  | byte {a b : Char} {n : Nat} (hdigits : hexValue 0 [a, b] = some n) (hascii : n ≤ 0x7F) :
      Escape ['\\', 'x', a, b] (Char.ofNat n)
  | unicode {digits : Text} {n : Nat} (hfirst : digits.head? ≠ some '_')
      (hpos : 0 < (digits.filter (· ≠ '_')).length) (hsix : (digits.filter (· ≠ '_')).length ≤ 6)
      (hdigits : hexValue 0 (digits.filter (· ≠ '_')) = some n) (hscalar : n.isValidChar) :
      Escape ('\\' :: 'u' :: '{' :: (digits ++ ['}'])) (Char.ofNat n)

inductive LiteralBody : Text → Text → Prop
  | nil : LiteralBody [] []
  | char {c : Char} {body value : Text} (hquote : c ≠ '"') (hbackslash : c ≠ '\\')
      (h : LiteralBody body value) : LiteralBody (c :: body) (c :: value)
  | escape {text : Text} {c : Char} {body value : Text} (hescape : Escape text c)
      (h : LiteralBody body value) : LiteralBody (text ++ body) (c :: value)

/-- Behind an opening quote the decoder reads the literals of the language, each as the
string it denotes, and nothing else. -/
def DecodesLiteral (text : Text) : Prop :=
  ∀ value rest, stringLiteral text = some (value, rest) ↔
    ∃ body, text = body ++ '"' :: rest ∧ LiteralBody body value

/-! ## Pieces -/

/-- A character of a literal, or an escape as far as its spelling goes. -/
inductive Piece where
  | char (c : Char)
  | simple (c : Char)
  | byte (a b : Char)
  | unicode (digits : Text)
  deriving DecidableEq

mutual

/-- The pieces of a literal whose opening quote is consumed, and the text behind its
closing quote. -/
def pieces : Text → Option (List Piece × Text)
  | [] => none
  | '"' :: rest => some ([], rest)
  | '\\' :: 'x' :: a :: b :: rest => do
      let (ps, rest) ← pieces rest
      some (.byte a b :: ps, rest)
  | '\\' :: 'u' :: '{' :: rest => unicodePieces [] rest
  | '\\' :: c :: rest => do
      let (ps, rest) ← pieces rest
      some (.simple c :: ps, rest)
  | ['\\'] => none
  | c :: rest => do
      let (ps, rest) ← pieces rest
      some (.char c :: ps, rest)

def unicodePieces (digits : Text) : Text → Option (List Piece × Text)
  | [] => none
  | '}' :: rest => do
      let (ps, rest) ← pieces rest
      some (.unicode digits :: ps, rest)
  | c :: rest => unicodePieces (digits ++ [c]) rest

end

/-- Digits of a character, however many. -/
def areDigits (digits : Text) : Bool :=
  digits ≠ [] && ((hexValue 0 digits).bind charFromU32).isSome

namespace Piece

def text : Piece → Text
  | .char c => [c]
  | .simple c => ['\\', c]
  | .byte a b => ['\\', 'x', a, b]
  | .unicode digits => '\\' :: 'u' :: '{' :: (digits ++ ['}'])

/-- What the decoder takes a piece for. -/
def decoded : Piece → Option Char
  | .char c => some c
  | .simple c => simpleEscape c
  | .byte a b => ((fromStrRadix16 256 [a, b]).filter (· < 0x80)).map Char.ofNat
  | .unicode digits => (fromStrRadix16 (2 ^ 32) digits).bind charFromU32

/-- What a piece stands for in the language. -/
def denoted : Piece → Option Char
  | .char c => some c
  | .simple c => simpleEscape c
  | .byte a b => ((hexValue 0 [a, b]).filter (· ≤ 0x7F)).map Char.ofNat
  | .unicode digits =>
      let hex := digits.filter (· ≠ '_')
      if digits.head? ≠ some '_' ∧ 0 < hex.length ∧ hex.length ≤ 6 then
        (hexValue 0 hex).bind charFromU32
      else none

/-- An escape with a sign, or with digits past the sixth, and otherwise one. -/
def lax : Piece → Bool
  | .byte '+' b => (hexDigitValue b).isSome
  | .unicode ('+' :: digits) => areDigits digits
  | .unicode digits => areDigits digits && 6 < digits.length
  | _ => false

/-- An escape with underscores between its digits or behind them. -/
def spaced : Piece → Bool
  | .unicode digits =>
      '_' ∈ digits && digits.head? ≠ some '_' && areDigits (digits.filter (· ≠ '_')) &&
        (digits.filter (· ≠ '_')).length ≤ 6
  | _ => false

/-- No escape, by any reading of it. -/
def broken : Piece → Bool
  | .char _ => false
  | .simple c => (simpleEscape c).isNone
  | .byte a b => (hexDigitValue b).isNone ||
      (a ≠ '+' && ((hexDigitValue a).isNone || 7 < (hexDigitValue a).getD 0))
  | .unicode ('+' :: digits) => !areDigits digits
  | .unicode digits => !areDigits digits && !spaced (.unicode digits)

end Piece

/-! ## Hexadecimal digits -/

theorem hexValue_isSome : ∀ {digits : Text} {acc n : Nat}, hexValue acc digits = some n →
    ∀ c ∈ digits, (hexDigitValue c).isSome
  | [], _, _, _, _, hmem => absurd hmem not_mem_nil
  | d :: digits, acc, n, h, c, hmem => by
      rw [hexValue] at h
      obtain ⟨k, hk, h⟩ := bind_eq_some_iff.mp h
      rcases mem_cons.mp hmem with rfl | hmem
      · rw [hk]
        rfl
      · exact hexValue_isSome h c hmem

/-! ## What the decoder reads -/

/-- Pieces taken one by one for what they stand for. -/
def readPieces (f : Piece → Option Char) : List Piece × Text → Option (Text × Text) :=
  fun (ps, rest) => (ps.mapM f).map (·, rest)

theorem readPieces_cons (f : Piece → Option Char) (p : Piece) (read : Option (List Piece × Text)) :
    (read.bind fun (ps, rest) => some (p :: ps, rest)).bind (readPieces f) =
      (f p).bind fun c => (read.bind (readPieces f)).bind fun (value, rest) =>
        some (c :: value, rest) := by
  cases read with
  | none => cases f p <;> rfl
  | some found =>
      obtain ⟨ps, rest⟩ := found
      simp only [Option.bind_some, readPieces, mapM_cons, Option.pure_def, Option.bind_eq_bind]
      cases f p with
      | none => rfl
      | some c => cases ps.mapM f <;> rfl

variable {value rest : Text}

theorem readPieces_eq_some {f : Piece → Option Char} {ps : List Piece} {rest' : Text} :
    readPieces f (ps, rest) = some (value, rest') ↔ ps.mapM f = some value ∧ rest = rest' := by
  rw [readPieces, map_eq_some_iff]
  constructor
  · rintro ⟨value', hvalue, heq⟩
    cases heq
    exact ⟨hvalue, rfl⟩
  · rintro ⟨hvalue, rfl⟩
    exact ⟨value, hvalue, rfl⟩

theorem stringLiteral_eq (text : Text) :
    stringLiteral text = (pieces text).bind (readPieces Piece.decoded) := by
  refine stringLiteral.induct
    (fun text => stringLiteral text = (pieces text).bind (readPieces Piece.decoded))
    (fun hex text => unicodeEscape hex text = (unicodePieces hex text).bind (readPieces Piece.decoded))
    ?empty ?quote ?hexByte ?unicode ?simple ?backslash ?plain ?noBrace ?brace ?digit text
  case empty => rw [stringLiteral, pieces]; rfl
  case quote => intro tail; rw [stringLiteral, pieces]; rfl
  case hexByte =>
    intro a b tail ih
    rw [stringLiteral, pieces]
    refine Eq.trans ?_ (readPieces_cons _ _ _).symm
    rw [Piece.decoded, bind_map, ← ih]
    rfl
  case unicode => intro tail ih; rw [stringLiteral, pieces, ih]
  case simple =>
    intro c tail hx hu ih
    rw [stringLiteral.eq_5 c tail hx hu, pieces.eq_5 c tail hx hu]
    refine Eq.trans ?_ (readPieces_cons _ _ _).symm
    rw [← ih]
    rfl
  case backslash => rw [stringLiteral, pieces]; rfl
  case plain =>
    intro c tail h1 h2 h3 h4 h5 ih
    rw [stringLiteral.eq_7 c tail h1 h2 h3 h4 h5, pieces.eq_7 c tail h1 h2 h3 h4 h5]
    refine Eq.trans ?_ (readPieces_cons _ _ _).symm
    rw [← ih]
    rfl
  case noBrace => intro hex; rw [unicodeEscape, unicodePieces]; rfl
  case brace =>
    intro hex tail ih
    rw [unicodeEscape, unicodePieces]
    refine Eq.trans ?_ (readPieces_cons _ _ _).symm
    rw [← ih]
    rfl
  case digit =>
    intro hex c tail hc ih
    rw [unicodeEscape.eq_3 hex c tail hc, unicodePieces.eq_3 hex c tail hc, ih]

example : stringLiteral "a\\n\"b".toList = some (['a', '\n'], ['b']) := by decide +kernel

/-! ## The language reads the same pieces -/

variable {c : Char}

theorem pieces_char (hquote : c ≠ '"') (hbackslash : c ≠ '\\') (text : Text) :
    pieces (c :: text) = (pieces text).bind fun (ps, rest) => some (.char c :: ps, rest) :=
  pieces.eq_7 c text hquote (fun _ _ _ h => absurd h hbackslash) (fun _ h => absurd h hbackslash)
    (fun _ _ h => absurd h hbackslash) fun h => absurd h hbackslash

variable {digits : Text}

theorem unicodePieces_append (h : '}' ∉ digits) (text : Text) : ∀ hex : Text,
    unicodePieces hex (digits ++ '}' :: text) =
      (pieces text).bind fun (ps, rest) => some (.unicode (hex ++ digits) :: ps, rest) := by
  induction digits with
  | nil =>
      intro hex
      rw [nil_append, unicodePieces, append_nil]
      rfl
  | cons c digits ih =>
      intro hex
      rw [mem_cons, not_or] at h
      rw [cons_append, unicodePieces.eq_3 hex c _ (Ne.symm h.1), ih h.2, append_assoc,
        singleton_append]

/-- The spelling of a piece that is read as this piece wherever it stands. -/
def Piece.Apart : Piece → Prop
  | .char c => c ≠ '"' ∧ c ≠ '\\'
  | .simple c => c ≠ 'x' ∧ c ≠ 'u'
  | .byte _ _ => True
  | .unicode digits => '}' ∉ digits

variable {p : Piece}

theorem Piece.Apart.pieces_append (h : p.Apart) (tail : Text) :
    pieces (p.text ++ tail) = (pieces tail).bind fun (ps, rest) => some (p :: ps, rest) := by
  cases p with
  | char c => exact pieces_char h.1 h.2 tail
  | simple c =>
      exact pieces.eq_5 c tail (fun _ _ _ heq => absurd heq h.1) fun _ heq => absurd heq h.2
  | byte a b =>
      rw [show (Piece.byte a b).text ++ tail = '\\' :: 'x' :: a :: b :: tail from rfl, pieces]
      rfl
  | unicode digits =>
      rw [Piece.text, cons_append, cons_append, cons_append, pieces,
        append_assoc, singleton_append, unicodePieces_append h, nil_append]

theorem Piece.Apart.pieces_flatMap : ∀ {ps : List Piece}, (∀ p ∈ ps, p.Apart) →
    pieces (ps.flatMap Piece.text ++ '"' :: rest) = some (ps, rest)
  | [], _ => by rw [flatMap_nil, nil_append, pieces]
  | p :: ps, h => by
      obtain ⟨hhead, htail⟩ := forall_mem_cons.mp h
      rw [flatMap_cons, append_assoc, hhead.pieces_append, pieces_flatMap htail]
      rfl

theorem apart_of_simpleEscape {d : Char} (h : simpleEscape c = some d) : c ≠ 'x' ∧ c ≠ 'u' := by
  constructor <;> (rintro rfl; cases h)

theorem Escape.piece {text : Text} (h : Escape text c) :
    ∃ p : Piece, p.denoted = some c ∧ p.Apart ∧ p.text = text := by
  cases h with
  | @simple a d h => exact ⟨.simple a, h, apart_of_simpleEscape h, rfl⟩
  | @byte a b n hdigits hascii =>
      refine ⟨.byte a b, ?_, trivial, rfl⟩
      rw [Piece.denoted, hdigits, filter_some, if_pos (decide_eq_true hascii)]
      rfl
  | @unicode digits n hfirst hpos hsix hdigits hscalar =>
      refine ⟨.unicode digits, ?_, fun hmem => ?_, rfl⟩
      · rw [Piece.denoted]
        refine (if_pos ⟨hfirst, hpos, hsix⟩).trans ?_
        rw [hdigits]
        exact if_pos hscalar
      · have hhex := hexValue_isSome hdigits '}' (mem_filter.mpr ⟨hmem, by decide⟩)
        exact absurd hhex (by decide)

theorem LiteralBody.pieces {body : Text} (h : LiteralBody body value) (rest : Text) :
    ∃ ps, pieces (body ++ '"' :: rest) = some (ps, rest) ∧ ps.mapM Piece.denoted = some value := by
  induction h with
  | nil => exact ⟨[], by rw [nil_append, CodeGraph.pieces], rfl⟩
  | @char c _ _ hquote hbackslash _ ih =>
      obtain ⟨ps, hpieces, hvalue⟩ := ih
      refine ⟨.char c :: ps, ?_, ?_⟩
      · rw [cons_append, pieces_char hquote hbackslash, hpieces]
        rfl
      · rw [mapM_cons, hvalue]
        rfl
  | escape hescape _ ih =>
      obtain ⟨ps, hpieces, hvalue⟩ := ih
      obtain ⟨p, hp, happ, rfl⟩ := hescape.piece
      refine ⟨p :: ps, ?_, ?_⟩
      · rw [append_assoc, happ.pieces_append, hpieces]
        rfl
      · rw [mapM_cons, hp, hvalue]
        rfl

/-- A plain character is none that ends a literal or starts an escape. -/
def Piece.Spelled : Piece → Prop
  | .char c => c ≠ '"' ∧ c ≠ '\\'
  | _ => True

theorem pieces_text (text : Text) : ∀ (ps : List Piece) (rest : Text),
    pieces text = some (ps, rest) →
      text = ps.flatMap Piece.text ++ '"' :: rest ∧ ∀ p ∈ ps, p.Spelled := by
  have hcons : ∀ {text tail rest : Text} {p : Piece} {ps : List Piece},
      ((pieces tail).bind fun (ps, rest) => some (p :: ps, rest)) = some (ps, rest) →
      text = p.text ++ tail → p.Spelled →
      (∀ (ps : List Piece) (rest : Text), pieces tail = some (ps, rest) →
        tail = ps.flatMap Piece.text ++ '"' :: rest ∧ ∀ p ∈ ps, p.Spelled) →
      text = ps.flatMap Piece.text ++ '"' :: rest ∧ ∀ p ∈ ps, p.Spelled := by
    intro text tail rest p ps h htext hspelled ih
    obtain ⟨⟨ps', rest'⟩, htail, heq⟩ := bind_eq_some_iff.mp h
    cases heq
    obtain ⟨htail, hall⟩ := ih _ _ htail
    refine ⟨?_, forall_mem_cons.mpr ⟨hspelled, hall⟩⟩
    rw [htext, flatMap_cons, append_assoc, ← htail]
  refine pieces.induct
    (fun text => ∀ (ps : List Piece) (rest : Text), pieces text = some (ps, rest) →
      text = ps.flatMap Piece.text ++ '"' :: rest ∧ ∀ p ∈ ps, p.Spelled)
    (fun digits text => ∀ (ps : List Piece) (rest : Text), unicodePieces digits text = some (ps, rest) →
      '\\' :: 'u' :: '{' :: (digits ++ text) = ps.flatMap Piece.text ++ '"' :: rest ∧
        ∀ p ∈ ps, p.Spelled)
    ?empty ?quote ?hexByte ?unicode ?simple ?backslash ?plain ?noBrace ?brace ?digit text
  case empty => intro ps rest h; rw [pieces] at h; cases h
  case quote =>
    intro tail ps rest h
    rw [pieces] at h
    cases h
    exact ⟨rfl, fun _ hp => absurd hp not_mem_nil⟩
  case hexByte =>
    intro a b tail ih ps rest h
    rw [pieces] at h
    exact hcons h rfl trivial ih
  case unicode =>
    intro tail ih ps rest h
    rw [pieces] at h
    exact ih ps rest h
  case simple =>
    intro c tail hx hu ih ps rest h
    rw [pieces.eq_5 c tail hx hu] at h
    exact hcons h rfl trivial ih
  case backslash => intro ps rest h; rw [pieces] at h; cases h
  case plain =>
    intro c tail h1 h2 h3 h4 h5 ih ps rest h
    rw [pieces.eq_7 c tail h1 h2 h3 h4 h5] at h
    refine hcons h rfl ⟨h1, fun heq => ?_⟩ ih
    cases tail with
    | nil => exact h5 heq rfl
    | cons d tail => exact h4 d tail heq rfl
  case noBrace => intro digits ps rest h; rw [unicodePieces] at h; cases h
  case brace =>
    intro digits tail ih ps rest h
    rw [unicodePieces] at h
    refine hcons h ?_ trivial ih
    simp [Piece.text]
  case digit =>
    intro digits c tail hc ih ps rest h
    rw [unicodePieces.eq_3 digits c tail hc] at h
    have := ih ps rest h
    rwa [append_assoc, singleton_append] at this

theorem Piece.literal (hspelled : p.Spelled) (h : p.denoted = some c)
    {body : Text} (hbody : LiteralBody body value) : LiteralBody (p.text ++ body) (c :: value) := by
  cases p with
  | char d =>
      obtain rfl := Option.some.inj h
      exact .char hspelled.1 hspelled.2 hbody
  | simple d => exact .escape (.simple h) hbody
  | byte a b =>
      obtain ⟨n, hn, rfl⟩ := map_eq_some_iff.mp h
      obtain ⟨hdigits, hascii⟩ := filter_eq_some_iff.mp hn
      exact .escape (.byte hdigits (of_decide_eq_true hascii)) hbody
  | unicode digits =>
      rw [Piece.denoted] at h
      split at h
      case isTrue hcount =>
        obtain ⟨hfirst, hpos, hsix⟩ := hcount
        obtain ⟨n, hdigits, hn⟩ := bind_eq_some_iff.mp h
        rw [charFromU32] at hn
        split at hn
        case isTrue hscalar =>
          cases hn
          exact .escape (.unicode hfirst hpos hsix hdigits hscalar) hbody
        case isFalse => cases hn
      case isFalse => cases h

theorem literalBody_of_pieces : ∀ {ps : List Piece} {value : Text}, (∀ p ∈ ps, p.Spelled) →
    ps.mapM Piece.denoted = some value → LiteralBody (ps.flatMap Piece.text) value
  | [], _, _, h => by
      cases h
      exact .nil
  | p :: ps, value, hall, h => by
      rw [mapM_cons] at h
      obtain ⟨c, hc, h⟩ := bind_eq_some_iff.mp h
      obtain ⟨value', hvalue, heq⟩ := bind_eq_some_iff.mp h
      cases heq
      obtain ⟨hspelled, hall⟩ := forall_mem_cons.mp hall
      exact Piece.literal hspelled hc (literalBody_of_pieces hall hvalue)

theorem literal_iff {text : Text} : (∃ body, text = body ++ '"' :: rest ∧ LiteralBody body value) ↔
      (pieces text).bind (readPieces Piece.denoted) = some (value, rest) := by
  constructor
  · rintro ⟨body, rfl, hbody⟩
    obtain ⟨ps, hpieces, hvalue⟩ := hbody.pieces rest
    rw [hpieces]
    exact readPieces_eq_some.mpr ⟨hvalue, rfl⟩
  · intro h
    obtain ⟨⟨ps, rest'⟩, hpieces, hread⟩ := bind_eq_some_iff.mp h
    obtain ⟨hvalue, rfl⟩ := readPieces_eq_some.mp hread
    obtain ⟨htext, hall⟩ := pieces_text text _ _ hpieces
    exact ⟨_, htext, literalBody_of_pieces hall hvalue⟩

/-! ## Where the readings of a piece part -/

theorem hexDigitValue_lt {n : Nat} (h : hexDigitValue c = some n) : n < 16 := by
  rw [hexDigitValue] at h
  split_ifs at h with hdigit hupper hlower
  · cases h
    have : c.toNat ≤ 57 := hdigit.2
    omega
  · cases h
    have : c.toNat ≤ 70 := hupper.2
    omega
  · cases h
    have : c.toNat ≤ 102 := hlower.2
    omega

theorem hexValue_pair (a b : Char) : hexValue 0 [a, b] =
    (hexDigitValue a).bind fun x => (hexDigitValue b).map fun y => x * 16 + y := by
  rw [hexValue]
  cases hexDigitValue a with
  | none => rfl
  | some x =>
      rw [bind_eq_bind, bind_some, bind_some, hexValue, Nat.zero_mul, Nat.zero_add]
      cases hexDigitValue b <;> rfl

example : hexValue 0 ['1', 'F'] = some 31 := by decide +kernel

/-- The text behind a sign. -/
def unsigned : Text → Text
  | '+' :: digits => digits
  | digits => digits

theorem unsigned_of_ne (h : digits.head? ≠ some '+') : unsigned digits = digits := by
  rw [unsigned.eq_def]
  split
  · exact absurd rfl h
  · rfl

theorem charFromU32_lt {n : Nat} (h : charFromU32 n = some c) : n < 2 ^ 32 := by
  rw [charFromU32] at h
  split at h
  case isTrue hvalid =>
    rcases hvalid with hlow | ⟨-, hhigh⟩ <;> omega
  case isFalse => cases h

/-- The decoder reads any number of digits behind a sign or none. -/
theorem Piece.decoded_unicode (digits : Text) : (Piece.unicode digits).decoded =
    if unsigned digits = [] then none else (hexValue 0 (unsigned digits)).bind charFromU32 := by
  show (if unsigned digits = [] then none
    else (hexValue 0 (unsigned digits)).filter (· < 2 ^ 32)).bind charFromU32 = _
  split
  · rfl
  · cases hexValue 0 (unsigned digits) with
    | none => rfl
    | some n =>
        rw [filter_some]
        split
        · rfl
        next hlarge =>
          cases hchar : charFromU32 n with
          | none => exact hchar.symm
          | some c => exact absurd (decide_eq_true (charFromU32_lt hchar)) hlarge

theorem Piece.decoded_unicode_isSome :
    (Piece.unicode digits).decoded.isSome ↔ areDigits (unsigned digits) := by
  rw [decoded_unicode, areDigits, Bool.and_eq_true, decide_eq_true_eq]
  split
  next hnil => exact iff_of_false Bool.false_ne_true fun h => h.1 hnil
  next hnil => exact (and_iff_right hnil).symm

theorem areDigits_isSome (h : areDigits digits) (hmem : c ∈ digits) : (hexDigitValue c).isSome := by
  obtain ⟨-, hvalue⟩ := Bool.and_eq_true_iff.mp h
  obtain ⟨d, hd⟩ := isSome_iff_exists.mp hvalue
  obtain ⟨n, hn, -⟩ := bind_eq_some_iff.mp hd
  exact hexValue_isSome hn c hmem

theorem not_mem_of_areDigits (h : areDigits digits)
    (hc : hexDigitValue c = none) : c ∉ digits := fun hmem => by
  have := areDigits_isSome h hmem
  rw [hc] at this
  cases this

theorem filter_of_areDigits (h : areDigits digits) : digits.filter (· ≠ '_') = digits := by
  refine filter_eq_self.mpr fun c hc => decide_eq_true fun heq => ?_
  exact not_mem_of_areDigits h (by decide) (heq ▸ hc)

theorem Piece.denoted_unicode_isSome : (Piece.unicode digits).denoted.isSome ↔
    digits.head? ≠ some '_' ∧ areDigits (digits.filter (· ≠ '_')) ∧
      (digits.filter (· ≠ '_')).length ≤ 6 := by
  rw [denoted, areDigits, Bool.and_eq_true, decide_eq_true_eq]
  split
  next h => exact ⟨fun hsome => ⟨h.1, ⟨ne_nil_of_length_pos h.2.1, hsome⟩, h.2.2⟩,
    fun hall => hall.2.1.2⟩
  next h =>
    refine iff_of_false Bool.false_ne_true fun hall => h ⟨hall.1, ?_, hall.2.2⟩
    exact length_pos_iff.mpr hall.2.1.1

theorem hexValue_digit (b : Char) : hexValue 0 [b] = hexDigitValue b := by
  rw [hexValue]
  cases hexDigitValue b with
  | none => rfl
  | some n =>
      show some (0 * 16 + n) = some n
      rw [Nat.zero_mul, Nat.zero_add]

namespace Piece

theorem decoded_byte (a b : Char) : (Piece.byte a b).decoded =
    ((hexValue 0 (unsigned [a, b])).filter (· ≤ 0x7F)).map Char.ofNat := by
  have hne : unsigned [a, b] ≠ [] := by
    rw [unsigned.eq_def]
    split
    next heq =>
      cases heq
      exact cons_ne_nil _ _
    next => exact cons_ne_nil _ _
  show ((if unsigned [a, b] = [] then none
    else (hexValue 0 (unsigned [a, b])).filter (· < 256)).filter (· < 0x80)).map Char.ofNat = _
  rw [if_neg hne, Option.filter_filter]
  congr 2
  funext n
  rw [Bool.eq_iff_iff, Bool.and_eq_true, decide_eq_true_eq, decide_eq_true_eq, decide_eq_true_eq]
  omega

variable {a b : Char}

/-- A sign and a digit, or two digits of a character in the first half of the bytes. -/
theorem decoded_byte_isSome : (Piece.byte a b).decoded.isSome ↔ (hexDigitValue b).isSome ∧
      (a = '+' ∨ ∃ n, hexDigitValue a = some n ∧ n ≤ 7) := by
  rw [decoded_byte, isSome_map]
  by_cases ha : a = '+'
  · subst ha
    show ((hexValue 0 [b]).filter (· ≤ 0x7F)).isSome ↔ _
    rw [hexValue_digit]
    cases hb : hexDigitValue b with
    | none => exact iff_of_false Bool.false_ne_true fun h => Bool.false_ne_true h.1
    | some n =>
        have hn := hexDigitValue_lt hb
        rw [filter_some, if_pos (decide_eq_true (by omega))]
        exact iff_of_true rfl ⟨rfl, Or.inl rfl⟩
  · have hhead : [a, b].head? ≠ some '+' := fun h => ha (Option.some.inj h)
    rw [unsigned_of_ne hhead, hexValue_pair]
    cases hexDigitValue a with
    | none =>
        refine iff_of_false Bool.false_ne_true fun h => ?_
        rcases h.2 with h | ⟨n, h, -⟩
        · exact ha h
        · cases h
    | some m =>
        cases hb : hexDigitValue b with
        | none => exact iff_of_false Bool.false_ne_true fun h => Bool.false_ne_true h.1
        | some n =>
            have hn := hexDigitValue_lt hb
            show ((some (m * 16 + n)).filter (· ≤ 0x7F)).isSome ↔ _
            rw [isSome_filter, any_some, decide_eq_true_eq]
            constructor
            · intro h
              exact ⟨rfl, Or.inr ⟨m, rfl, by omega⟩⟩
            · rintro ⟨-, h | ⟨_, h, hm⟩⟩
              · exact absurd h ha
              · cases h
                omega

theorem broken_byte : (Piece.byte a b).broken ↔
    ¬((hexDigitValue b).isSome ∧ (a = '+' ∨ ∃ n, hexDigitValue a = some n ∧ n ≤ 7)) := by
  rw [broken, Bool.or_eq_true, Bool.and_eq_true, Bool.or_eq_true, decide_eq_true_eq,
    decide_eq_true_eq, isNone_iff_eq_none, isNone_iff_eq_none,
    isSome_iff_ne_none, not_and_or, not_not, not_or]
  refine or_congr Iff.rfl (and_congr Iff.rfl ?_)
  cases hexDigitValue a with
  | none => exact iff_of_true (Or.inl rfl) nofun
  | some n => simp

/-- The digits of a character hold neither a sign nor an underscore. -/
theorem areDigits_iff (digits : Text) : areDigits digits ↔
    areDigits (unsigned digits) ∧ digits.head? ≠ some '+' := by
  by_cases hsign : digits.head? = some '+'
  · refine iff_of_false (fun h => ?_) fun h => h.2 hsign
    exact not_mem_of_areDigits h (by decide) (mem_of_mem_head? hsign)
  · rw [unsigned_of_ne hsign]
    exact (and_iff_left hsign).symm

theorem spaced_iff : (Piece.unicode digits).spaced ↔ '_' ∈ digits ∧
    digits.head? ≠ some '_' ∧ areDigits (digits.filter (· ≠ '_')) ∧
      (digits.filter (· ≠ '_')).length ≤ 6 := by
  rw [spaced, Bool.and_eq_true, Bool.and_eq_true, Bool.and_eq_true, decide_eq_true_eq,
    decide_eq_true_eq, decide_eq_true_eq]
  tauto

theorem not_spaced_of_areDigits (digits : Text) (h : areDigits (unsigned digits)) :
    ¬(Piece.unicode digits).spaced := by
  intro hspaced
  obtain ⟨hmem, -, -⟩ := spaced_iff.mp hspaced
  refine not_mem_of_areDigits h (c := '_') (by decide) ?_
  rw [unsigned.eq_def]
  split
  · exact (mem_cons.mp hmem).resolve_left (by decide)
  · exact hmem

theorem broken_unicode : (Piece.unicode digits).broken ↔
    ¬areDigits (unsigned digits) ∧ ¬(Piece.unicode digits).spaced := by
  by_cases hsign : digits.head? = some '+'
  · obtain ⟨digits, rfl⟩ : ∃ rest, digits = '+' :: rest := by
      cases digits with
      | nil => cases hsign
      | cons c rest => exact ⟨rest, by rw [Option.some.inj hsign]⟩
    have hspaced : ¬(Piece.unicode ('+' :: digits)).spaced := fun h => by
      obtain ⟨-, -, hdigits, -⟩ := spaced_iff.mp h
      refine not_mem_of_areDigits hdigits (c := '+') (by decide) ?_
      exact mem_filter.mpr ⟨mem_cons_self, by decide⟩
    rw [broken, Bool.not_eq_true', ← Bool.not_eq_true]
    exact (and_iff_left hspaced).symm
  · rw [unsigned_of_ne hsign, broken.eq_5 _ (by rintro rest rfl; exact hsign rfl),
      Bool.and_eq_true, Bool.not_eq_true', Bool.not_eq_true', ← Bool.not_eq_true, ← Bool.not_eq_true]

/-- The decoder refuses what is no escape, and underscores. -/
theorem decoded_isSome (p : Piece) : p.decoded.isSome ↔ ¬p.broken ∧ ¬p.spaced := by
  cases p with
  | char c => exact iff_of_true rfl ⟨Bool.false_ne_true, Bool.false_ne_true⟩
  | simple c =>
      refine Iff.trans ?_ (and_iff_left Bool.false_ne_true).symm
      rw [decoded, broken]
      cases simpleEscape c <;> simp
  | byte a b =>
      refine Iff.trans ?_ (and_iff_left Bool.false_ne_true).symm
      rw [broken_byte, not_not, decoded_byte_isSome]
  | unicode digits =>
      rw [decoded_unicode_isSome, broken_unicode]
      have := not_spaced_of_areDigits digits
      tauto

theorem lax_byte : (Piece.byte a b).lax ↔ a = '+' ∧ (hexDigitValue b).isSome := by
  by_cases ha : a = '+'
  · subst ha
    exact (and_iff_right rfl).symm
  · rw [lax.eq_4 _ (by rintro b' ⟨⟩; exact ha rfl) (by rintro _ ⟨⟩) (by rintro _ ⟨⟩)]
    exact iff_of_false Bool.false_ne_true fun h => ha h.1

theorem lax_unicode : (Piece.unicode digits).lax ↔
    areDigits (unsigned digits) ∧ (digits.head? = some '+' ∨ 6 < digits.length) := by
  by_cases hsign : digits.head? = some '+'
  · obtain ⟨digits, rfl⟩ : ∃ rest, digits = '+' :: rest := by
      cases digits with
      | nil => cases hsign
      | cons c rest => exact ⟨rest, by rw [Option.some.inj hsign]⟩
    exact (and_iff_left (Or.inl rfl)).symm
  · rw [unsigned_of_ne hsign, lax.eq_3 _ (by rintro rest rfl; exact hsign rfl),
      Bool.and_eq_true, decide_eq_true_eq, or_iff_right hsign]

/-- The language refuses what is no escape, signs, and digits past the sixth. -/
theorem denoted_isSome (p : Piece) : p.denoted.isSome ↔ ¬p.broken ∧ ¬p.lax := by
  cases p with
  | char c => exact iff_of_true rfl ⟨Bool.false_ne_true, Bool.false_ne_true⟩
  | simple c =>
      refine Iff.trans ?_ (and_iff_left Bool.false_ne_true).symm
      rw [denoted, broken]
      cases simpleEscape c <;> simp
  | byte a b =>
      rw [broken_byte, not_not, lax_byte, denoted, isSome_map]
      by_cases ha : a = '+'
      · subst ha
        have hsign : hexValue 0 ['+', b] = none := by rw [hexValue_pair]; rfl
        rw [hsign]
        refine iff_of_false Bool.false_ne_true fun h => h.2 ⟨rfl, h.1.1⟩
      · have hhead : [a, b].head? ≠ some '+' := fun h => ha (Option.some.inj h)
        have hsame := decoded_byte a b
        rw [unsigned_of_ne hhead] at hsame
        rw [← isSome_map, ← hsame, decoded_byte_isSome]
        exact (and_iff_left fun h => ha h.1).symm
  | unicode digits =>
      rw [denoted_unicode_isSome, broken_unicode, lax_unicode]
      by_cases hdigits : areDigits digits
      · have hplain := filter_of_areDigits hdigits
        obtain ⟨hunsigned, hsign⟩ := (areDigits_iff digits).mp hdigits
        have hfirst : digits.head? ≠ some '_' := fun h =>
          not_mem_of_areDigits hdigits (by decide) (mem_of_mem_head? h)
        rw [hplain]
        constructor
        · rintro ⟨-, -, hsix⟩
          refine ⟨fun h => h.1 hunsigned, ?_⟩
          rintro ⟨-, h | h⟩
          · exact hsign h
          · omega
        · rintro ⟨-, hlax⟩
          exact ⟨hfirst, hdigits, Nat.le_of_not_lt fun h => hlax ⟨hunsigned, Or.inr h⟩⟩
      · constructor
        · rintro ⟨hfirst, hhex, hsix⟩
          have hmem : '_' ∈ digits := by
            by_contra hnone
            refine hdigits ?_
            have hplain : digits.filter (· ≠ '_') = digits :=
              filter_eq_self.mpr fun c hc => decide_eq_true fun heq => hnone (heq ▸ hc)
            rwa [hplain] at hhex
          have hspaced := spaced_iff.mpr ⟨hmem, hfirst, hhex, hsix⟩
          exact ⟨fun h => h.2 hspaced, fun h => not_spaced_of_areDigits digits h.1 hspaced⟩
        · rintro ⟨hbroken, hlax⟩
          have hspaced : (Piece.unicode digits).spaced := by
            by_contra hnot
            have hunsigned : areDigits (unsigned digits) := by
              by_contra hnone
              exact hbroken ⟨hnone, hnot⟩
            refine hlax ⟨hunsigned, Or.inl ?_⟩
            by_contra hsign
            exact hdigits ((areDigits_iff digits).mpr ⟨hunsigned, hsign⟩)
          exact (spaced_iff.mp hspaced).2

/-- Where both read a piece, they read the same character. -/
theorem decoded_eq_denoted (h : p.denoted.isSome) (h' : p.decoded.isSome) :
    p.decoded = p.denoted := by
  cases p with
  | char c => rfl
  | simple c => rfl
  | byte a b =>
      have hsign : [a, b].head? ≠ some '+' := fun heq => by
        obtain rfl := Option.some.inj heq
        exact ((denoted_isSome _).mp h).2 (lax_byte.mpr ⟨rfl, (decoded_byte_isSome.mp h').1⟩)
      rw [decoded_byte, unsigned_of_ne hsign]
      rfl
  | unicode digits =>
      have hunsigned := decoded_unicode_isSome.mp h'
      have hsign : digits.head? ≠ some '+' := fun heq =>
        ((denoted_isSome _).mp h).2 (lax_unicode.mpr ⟨hunsigned, Or.inl heq⟩)
      rw [unsigned_of_ne hsign] at hunsigned
      obtain ⟨hfirst, -, hsix⟩ := denoted_unicode_isSome.mp h
      have hne : digits ≠ [] := fun hnil => by
        subst hnil
        cases hunsigned
      rw [decoded_unicode, unsigned_of_ne hsign, if_neg hne, denoted]
      rw [filter_of_areDigits hunsigned] at hsix ⊢
      exact (if_pos ⟨hfirst, length_pos_iff.mpr hne, hsix⟩).symm

end Piece

/-! ## When the decoder agrees with the language -/

/-- Of the escapes of the literal at the front of the text none has a sign, a seventh
digit or an underscore, unless the literal is refused for another of its escapes. -/
def PlainlySpelled (text : Text) : Prop :=
  ∀ ps rest, pieces text = some (ps, rest) → (∃ p ∈ ps, p.broken) ∨
    ((∃ p ∈ ps, p.lax) ↔ ∃ p ∈ ps, p.spaced)

theorem mapM_isSome {α β : Type} {f : α → Option β} : ∀ {l : List α},
    (l.mapM f).isSome ↔ ∀ a ∈ l, (f a).isSome
  | [] => iff_of_true rfl fun _ h => absurd h not_mem_nil
  | a :: l => by
      rw [mapM_cons, forall_mem_cons, ← mapM_isSome]
      cases f a with
      | none => exact iff_of_false Bool.false_ne_true fun h => Bool.false_ne_true h.1
      | some b =>
          refine Iff.trans ?_ (and_iff_right rfl).symm
          cases l.mapM f <;> rfl

theorem mapM_congr_mem {α β : Type} {f g : α → Option β} : ∀ {l : List α},
    (∀ a ∈ l, f a = g a) → l.mapM f = l.mapM g
  | [], _ => rfl
  | a :: l, h => by
      obtain ⟨hhead, htail⟩ := forall_mem_cons.mp h
      rw [mapM_cons, mapM_cons, hhead, mapM_congr_mem htail]

/-- Lists whose items are read alike where both readings take them are read alike just
when both are taken or none is. -/
theorem mapM_agree {α β : Type} {f g : α → Option β} : ∀ {l : List α},
    (∀ a ∈ l, (f a).isSome → (g a).isSome → f a = g a) →
    (l.mapM f = l.mapM g ↔ ((∀ a ∈ l, (f a).isSome) ↔ ∀ a ∈ l, (g a).isSome))
  | l, h => by
      constructor
      · intro heq
        rw [← mapM_isSome, ← mapM_isSome, heq]
      · intro hboth
        by_cases hall : ∀ a ∈ l, (f a).isSome
        · have hall' := hboth.mp hall
          exact mapM_congr_mem fun a ha => h a ha (hall a ha) (hall' a ha)
        · have hf := mapM_isSome.not.mpr hall
          have hg := mapM_isSome.not.mpr fun hall' => hall (hboth.mpr hall')
          rw [not_isSome_iff_eq_none.mp hf, not_isSome_iff_eq_none.mp hg]

/-- The decoder reads the literal at the front of a text as the language does, or refuses
it as the language does, just when the literal is plainly spelled. -/
theorem decodesLiteral_iff (text : Text) : DecodesLiteral text ↔ PlainlySpelled text := by
  have hread : DecodesLiteral text ↔ ∀ ps rest, pieces text = some (ps, rest) →
      ps.mapM Piece.decoded = ps.mapM Piece.denoted := by
    rw [DecodesLiteral]
    simp only [literal_iff, stringLiteral_eq]
    cases hpieces : pieces text with
    | none => exact iff_of_true (fun _ _ => Iff.rfl) nofun
    | some found =>
        obtain ⟨ps, rest⟩ := found
        simp only [bind_some, readPieces_eq_some]
        constructor
        · rintro h ps' rest' ⟨⟩
          refine Option.ext fun value => ?_
          exact (and_iff_left rfl).symm.trans ((h value rest).trans (and_iff_left rfl))
        · intro h value rest'
          rw [h ps rest rfl]
  rw [hread, PlainlySpelled]
  refine forall_congr' fun ps => forall_congr' fun rest => imp_congr_right fun _ => ?_
  rw [mapM_agree fun p _ h h' => Piece.decoded_eq_denoted h' h]
  simp only [Piece.decoded_isSome, Piece.denoted_isSome]
  by_cases hbroken : ∃ p ∈ ps, p.broken
  · obtain ⟨p, hp, hp'⟩ := hbroken
    refine iff_of_true (iff_of_false ?_ ?_) (Or.inl ⟨p, hp, hp'⟩)
    · exact fun h => (h p hp).1 hp'
    · exact fun h => (h p hp).1 hp'
  · rw [or_iff_right hbroken]
    push Not at hbroken
    have hspaced : (∀ p ∈ ps, ¬p.broken ∧ ¬p.spaced) ↔ ¬∃ p ∈ ps, p.spaced := by
      push Not
      exact forall₂_congr fun p hp => and_iff_right (hbroken p hp)
    have hlax : (∀ p ∈ ps, ¬p.broken ∧ ¬p.lax) ↔ ¬∃ p ∈ ps, p.lax := by
      push Not
      exact forall₂_congr fun p hp => and_iff_right (hbroken p hp)
    rw [hspaced, hlax, not_iff_not]
    exact Iff.comm

/-- A sign in the place of a digit: no literal of the language, and read. -/
theorem signed_escape_read : ¬∀ text, DecodesLiteral text := by
  intro h
  have hread : stringLiteral "\\x+5\"".toList = some ([Char.ofNat 5], []) := by decide
  have hnone : (pieces "\\x+5\"".toList).bind (readPieces Piece.denoted) = none := by decide
  have hliteral := literal_iff.mp ((h _ _ _).mp hread)
  rw [hnone] at hliteral
  cases hliteral

example : PlainlySpelled "a\\n\\x41\\u{41}\"".toList := by
  intro ps rest h
  have hpieces : pieces "a\\n\\x41\\u{41}\"".toList =
      some ([.char 'a', .simple 'n', .byte '4' '1', .unicode "41".toList], []) := by decide
  rw [hpieces] at h
  cases h
  exact Or.inr (by decide)

end CodeGraph
