import CodeGraph.CfgExpr
import CodeGraph.CfgString
import Mathlib.Data.List.Chain

/-!
# Comments in the arguments of a `cfg`

A comment between two tokens leaves the predicate as it is. The lexer is run over the
text up to the comment, token by token; whatever it makes of it, what it makes of the text
behind does not depend on the comment. Two kinds of tokens it takes apart, characters in
apostrophes and strings with a prefix; a text that has one is refused as it stands.
-/

namespace CodeGraph

open List

/-! ## The lexical structure of a text -/

/-- What the tables say of white space and of marks. -/
structure CharClass.Standard (cc : CharClass) : Prop where
  space : cc.isWhitespace ' '
  newline : cc.isWhitespace '\n'
  apart : ∀ c, cc.isIdent c → ¬cc.isWhitespace c
  marks : ∀ c ∈ "\"'#/*(),=".toList, ¬cc.isWhitespace c ∧ ¬cc.isIdent c

/-- The text between the quotes of a string literal. -/
inductive Quoted : Text → Prop
  | nil : Quoted []
  | char {c : Char} {body : Text} (hquote : c ≠ '"') (hbackslash : c ≠ '\\') (h : Quoted body) :
      Quoted (c :: body)
  | escaped (c : Char) {body : Text} (h : Quoted body) : Quoted ('\\' :: c :: body)

/-- The rest of a block comment, so many of them being open. -/
inductive BlockRest : (depth : Nat) → Text → Prop
  | last : BlockRest 1 ['*', '/']
  | close {depth : Nat} {text : Text} (h : BlockRest (depth + 1) text) :
      BlockRest (depth + 2) ('*' :: '/' :: text)
  | open {depth : Nat} {text : Text} (h : BlockRest (depth + 2) text) :
      BlockRest (depth + 1) ('/' :: '*' :: text)
  | char {depth : Nat} {c : Char} {text : Text} (hclose : ¬['*', '/'] <+: c :: text)
      (hopen : ¬['/', '*'] <+: c :: text) (h : BlockRest (depth + 1) text) :
      BlockRest (depth + 1) (c :: text)

/-- A comment in front of a text: a block comment, or a line comment up to the end of the
line, with the line break or in front of it. -/
inductive Comment : (comment after : Text) → Prop
  | block {text after : Text} (h : BlockRest 1 text) : Comment ('/' :: '*' :: text) after
  | line {body after : Text} (h : '\n' ∉ body) : Comment ('/' :: '/' :: (body ++ ['\n'])) after
  | lineEnd {body after : Text} (h : '\n' ∉ body) (hend : after = [] ∨ after.head? = some '\n') :
      Comment ('/' :: '/' :: body) after

variable (cc : CharClass)

/-- A text that ends outside of string literals and comments, and not in a `/`. Characters
in apostrophes, raw names and strings with a prefix are not looked into: from where one
starts any text will do. -/
inductive OutsideTokens : Text → Prop
  | nil : OutsideTokens []
  | char {c : Char} {text : Text} (hquote : c ≠ '"') (hslash : c ≠ '/') (h : OutsideTokens text) :
      OutsideTokens (c :: text)
  | slash {c : Char} {text : Text} (hc : c ≠ '/' ∧ c ≠ '*') (h : OutsideTokens (c :: text)) :
      OutsideTokens ('/' :: c :: text)
  | str {body text : Text} (hbody : Quoted body) (h : OutsideTokens text) :
      OutsideTokens ('"' :: (body ++ '"' :: text))
  | line {body text : Text} (hbody : '\n' ∉ body) (h : OutsideTokens text) :
      OutsideTokens ('/' :: '/' :: (body ++ '\n' :: text))
  | block {comment text : Text} (hcomment : BlockRest 1 comment) (h : OutsideTokens text) :
      OutsideTokens ('/' :: '*' :: (comment ++ text))
  | apostrophe (text : Text) : OutsideTokens ('\'' :: text)
  | hash (text : Text) : OutsideTokens ('#' :: text)
  | strPrefix {c : Char} (h : cc.isIdent c) (text : Text) : OutsideTokens (c :: '"' :: text)

/-- The text is cut inside a word. -/
def SplitsWord (before after : Text) : Prop :=
  (∃ c ∈ before.getLast?, cc.isIdent c) ∧ ∃ c ∈ after.head?, cc.isIdent c

/-- The text is cut between two tokens: outside of string literals and comments, and not
inside a word or the mark that opens a comment. -/
def BetweenTokens (before after : Text) : Prop :=
  ¬SplitsWord cc before after ∧
    (OutsideTokens cc before ∨ ∃ before', before = before' ++ ['/'] ∧ OutsideTokens cc before' ∧
      ∀ c ∈ after.head?, c ≠ '/' ∧ c ≠ '*')

variable {cc}

/-! ## Comments taken out -/

variable {c : Char} {text : Text}

theorem withoutComments_char (hquote : c ≠ '"')
    (hline : ¬['/', '/'] <+: c :: text) (hblock : ¬['/', '*'] <+: c :: text) :
    withoutComments (c :: text) = c :: withoutComments text := by
  refine withoutComments.eq_5 c text hquote ?_ ?_
  · rintro rest rfl rfl
    exact hline ⟨rest, rfl⟩
  · rintro rest rfl rfl
    exact hblock ⟨rest, rfl⟩

variable {body : Text}

theorem copyStringRest_quoted (h : Quoted body) (text : Text) :
    copyStringRest false (body ++ '"' :: text) = body ++ '"' :: withoutComments text := by
  induction h with
  | nil => rfl
  | char hquote hbackslash _ ih =>
      rw [cons_append, copyStringRest, if_neg Bool.false_ne_true, if_neg hbackslash,
        if_neg hquote, ih]
      rfl
  | escaped c _ ih =>
      rw [cons_append, cons_append, copyStringRest, if_neg Bool.false_ne_true, if_pos rfl,
        copyStringRest, if_pos rfl, ih]
      rfl

theorem withoutComments_str (h : Quoted body) (text : Text) :
    withoutComments ('"' :: (body ++ '"' :: text)) = '"' :: (body ++ '"' :: withoutComments text) := by
  rw [withoutComments, copyStringRest_quoted h]

theorem skipLineComment_body (h : '\n' ∉ body) (text : Text) :
    skipLineComment (body ++ '\n' :: text) = ' ' :: withoutComments text := by
  induction body with
  | nil => rfl
  | cons c body ih =>
      rw [mem_cons, not_or] at h
      rw [cons_append, skipLineComment.eq_3 _ _ (Ne.symm h.1), ih h.2]

theorem skipLineComment_end (h : '\n' ∉ body) : skipLineComment body = [' '] := by
  induction body with
  | nil => rfl
  | cons c body ih =>
      rw [mem_cons, not_or] at h
      rw [skipLineComment.eq_3 _ _ (Ne.symm h.1), ih h.2]

theorem not_isPrefix_append {pre : Text} (rest : Text)
    (hpre : pre.length ≤ 2) (htext : text ≠ []) (h : ¬pre <+: c :: text) :
    ¬pre <+: c :: (text ++ rest) := by
  intro hlong
  refine h (prefix_of_prefix_length_le hlong (prefix_append (c :: text) rest) ?_)
  have := length_pos_of_ne_nil htext
  rw [length_cons]
  omega

theorem BlockRest.ne_nil {depth : Nat} (h : BlockRest depth text) : text ≠ [] := by
  cases h <;> exact cons_ne_nil _ _

theorem skipBlockComment_rest {depth : Nat} (h : BlockRest depth text)
    (rest : Text) : skipBlockComment depth (text ++ rest) = ' ' :: withoutComments rest := by
  induction h with
  | last => rfl
  | close _ ih =>
      rw [cons_append, cons_append, skipBlockComment, if_neg (by omega)]
      exact ih
  | «open» _ ih =>
      rw [cons_append, cons_append, skipBlockComment]
      exact ih
  | char hclose hopen h ih =>
      have hclose := not_isPrefix_append rest (by decide) h.ne_nil hclose
      have hopen := not_isPrefix_append rest (by decide) h.ne_nil hopen
      rw [cons_append, skipBlockComment.eq_4 _ _ _ ?_ ?_, ih]
      · rintro tail rfl heq
        exact hopen ⟨tail, by rw [heq]; rfl⟩
      · rintro tail rfl heq
        exact hclose ⟨tail, by rw [heq]; rfl⟩

/-! ## The lexer, a character at a time -/

/-- A word that is longer by its first character. -/
def extendWord (c : Char) : List Token → List Token
  | .ident name :: tokens => .ident (c :: name) :: tokens
  | tokens => tokens

def startsWord (cc : CharClass) (text : Text) : Bool := text.head?.any cc.isIdent

def markToken (c : Char) : Option Token :=
  if c = '(' then some .open
  else if c = ')' then some .close
  else if c = ',' then some .comma
  else if c = '=' then some .eq
  else none

/-- What a character in front of a text does to its tokens; `inWord` when a word goes on
behind it. -/
def lexChar (cc : CharClass) (c : Char) (inWord : Bool) (tokens : Option (List Token)) :
    Option (List Token) :=
  if cc.isWhitespace c then tokens
  else
    match markToken c with
    | some token => tokens.map (token :: ·)
    | none =>
        if cc.isIdent c then
          if inWord then tokens.map (extendWord c) else tokens.map (.ident [c] :: ·)
        else none

theorem tokenize_cons (cc : CharClass) (c : Char) (text : Text) : tokenize cc (c :: text) =
    if cc.isWhitespace c then tokenize cc text
    else if c = '(' then (tokenize cc text).map (.open :: ·)
    else if c = ')' then (tokenize cc text).map (.close :: ·)
    else if c = ',' then (tokenize cc text).map (.comma :: ·)
    else if c = '=' then (tokenize cc text).map (.eq :: ·)
    else if c = '"' then
      (stringLiteral text).bind fun (literal, rest) => (tokenize cc rest).map (.str literal :: ·)
    else if cc.isIdent c then
      (tokenize cc ((c :: text).dropWhile cc.isIdent)).map
        (.ident ((c :: text).takeWhile cc.isIdent) :: ·)
    else none := by
  have hstr : ((stringLiteral text).bind fun (literal, rest) =>
        (tokenizeFrom cc text.length rest).map (.str literal :: ·)) =
      (stringLiteral text).bind fun (literal, rest) =>
        (tokenize cc rest).map (.str literal :: ·) := by
    cases hlit : stringLiteral text with
    | none => rfl
    | some found =>
        obtain ⟨literal, rest⟩ := found
        show (tokenizeFrom cc text.length rest).map (.str literal :: ·) =
          (tokenize cc rest).map (.str literal :: ·)
        rw [tokenize_eq (stringLiteral_rest_lt hlit).le]
  rw [tokenize, length_cons, tokenizeFrom, ← hstr]
  by_cases hc : cc.isIdent c
  · have hle : ((c :: text).dropWhile cc.isIdent).length ≤ text.length := by
      rw [dropWhile_cons, if_pos hc]
      exact length_dropWhile_le _ text
    rw [tokenize_eq hle]
    rfl
  · rw [if_neg hc, if_neg hc]
    rfl

theorem CharClass.Standard.word_ne (h : cc.Standard) (hc : cc.isIdent c) :
    ∀ d ∈ "\"'#/*(),=".toList, c ≠ d := fun d hd heq => (h.marks d hd).2 (heq ▸ hc)

theorem CharClass.Standard.markToken_word (h : cc.Standard) (hc : cc.isIdent c) :
    markToken c = none := by
  have hne := h.word_ne hc
  rw [markToken, if_neg (hne '(' (by decide)), if_neg (hne ')' (by decide)),
    if_neg (hne ',' (by decide)), if_neg (hne '=' (by decide))]

theorem tokenize_word (h : cc.Standard) (hc : cc.isIdent c) (text : Text) :
    tokenize cc (c :: text) = (tokenize cc (text.dropWhile cc.isIdent)).map
      (.ident (c :: text.takeWhile cc.isIdent) :: ·) := by
  have hne := h.word_ne hc
  rw [tokenize_cons, if_neg (h.apart c hc), if_neg (hne '(' (by decide)),
    if_neg (hne ')' (by decide)), if_neg (hne ',' (by decide)), if_neg (hne '=' (by decide)),
    if_neg (hne '"' (by decide)), if_pos hc, dropWhile_cons_of_pos hc,
    takeWhile_cons_of_pos hc]

theorem tokenize_char (h : cc.Standard) (hquote : c ≠ '"') (text : Text) :
    tokenize cc (c :: text) = lexChar cc c (startsWord cc text) (tokenize cc text) := by
  by_cases hc : cc.isIdent c
  · rw [tokenize_word h hc, lexChar, if_neg (h.apart c hc), h.markToken_word hc]
    refine Eq.trans ?_ (if_pos hc).symm
    cases text with
    | nil => rfl
    | cons d text =>
        by_cases hd : cc.isIdent d
        · rw [startsWord, head?_cons, Option.any_some, if_pos hd, tokenize_word h hd,
            dropWhile_cons_of_pos hd, takeWhile_cons_of_pos hd, Option.map_map]
          rfl
        · rw [startsWord, head?_cons, Option.any_some, if_neg hd,
            dropWhile_cons_of_neg hd, takeWhile_cons_of_neg hd]
  · rw [tokenize_cons, lexChar]
    refine if_congr Iff.rfl rfl ?_
    rw [if_neg hquote, if_neg hc, markToken]
    split_ifs <;> rfl

theorem tokenize_space (hc : cc.isWhitespace c) (text : Text) :
    tokenize cc (c :: text) = tokenize cc text := by
  rw [tokenize_cons, if_pos hc]

/-! ## A string with a prefix is refused -/

def parseTokens : List Token → Option CfgPredicate
  | .open :: tokens => do
      let (predicate, rest) ← CfgPredicate.parsePredicate (CfgPredicate.parseFuel tokens) tokens
      match rest with
      | [.comma, .close] => some predicate
      | [.close] => some predicate
      | _ => none
  | _ => none

theorem parseCfgArguments_eq (text : Text) : CfgPredicate.parseCfgArguments cc text =
    (tokenize cc (withoutComments text)).bind parseTokens := rfl

example : CfgPredicate.parseCfgArguments .ascii "(a)".toList = some (.option ['a'] none) := by
  decide +kernel

/-- The second of two tokens is no string with the first as its prefix. -/
def NoPrefix (first second : Token) : Prop :=
  ∀ name value, first = .ident name → second ≠ .str value

theorem isChain_read : ∀ (fuel : Nat) {tokens rest : List Token},
    (∀ {p : CfgPredicate}, CfgPredicate.parsePredicate fuel tokens = some (p, rest) →
      ∃ used, tokens = used ++ rest ∧ used.IsChain NoPrefix) ∧
    (∀ {items : List CfgPredicate}, CfgPredicate.parseList fuel tokens = some (items, rest) →
      ∃ used, tokens = used ++ rest ∧ used.IsChain NoPrefix)
  | 0, _, _ => ⟨nofun, nofun⟩
  | fuel + 1, tokens, rest => by
      have hclose : [Token.close].IsChain NoPrefix := .singleton _
      have hvalue : ∀ name value, [Token.ident name, .eq, .str value].IsChain NoPrefix :=
        fun name value => .cons_cons nofun (.cons_cons nofun (.singleton _))
      refine ⟨fun h => ?_, fun h => ?_⟩
      · obtain ⟨value, rfl, -⟩ | ⟨name, value, rfl, -⟩ | ⟨name, tail, _, rfl, hlist, -⟩ |
          ⟨name, rfl, -⟩ := CfgPredicate.parsePredicate_cases h
        · exact ⟨[.ident kwFeature, .eq, .str value], rfl, hvalue _ _⟩
        · exact ⟨[.ident name, .eq, .str value], rfl, hvalue _ _⟩
        · obtain ⟨used, rfl, hused⟩ := (isChain_read fuel).2 hlist
          refine ⟨.ident name :: .open :: used, rfl, .cons_cons nofun ?_⟩
          exact isChain_cons.mpr ⟨nofun, hused⟩
        · exact ⟨[.ident name], rfl, .singleton _⟩
      · obtain ⟨rfl, -⟩ | ⟨_, _, tail, hitem, -, htail⟩ := CfgPredicate.parseList_cases h
        · exact ⟨[.close], rfl, hclose⟩
        · obtain ⟨used, rfl, hused⟩ := (isChain_read fuel).1 hitem
          obtain ⟨rfl, -⟩ | ⟨tail', rfl, hlist⟩ := htail
          · refine ⟨used ++ [.close], by rw [append_assoc]; rfl, ?_⟩
            exact isChain_append.mpr ⟨hused, hclose, by rintro _ _ _ ⟨⟩ _ _ _ ⟨⟩⟩
          · obtain ⟨used', rfl, hused'⟩ := (isChain_read fuel).2 hlist
            refine ⟨used ++ .comma :: used', by rw [append_assoc]; rfl, ?_⟩
            refine isChain_append.mpr ⟨hused, isChain_cons.mpr ⟨nofun, hused'⟩, ?_⟩
            rintro _ _ _ ⟨⟩ _ _ _ ⟨⟩

theorem isChain_of_parsed {tokens : List Token} {p : CfgPredicate} (h : parseTokens tokens = some p) :
    tokens.IsChain NoPrefix := by
  rw [parseTokens.eq_def] at h
  split at h
  case h_1 tokens =>
    obtain ⟨⟨predicate, rest⟩, hread, hrest⟩ := Option.bind_eq_some_iff.mp h
    obtain ⟨used, rfl, hused⟩ := (isChain_read _).1 hread
    refine isChain_cons.mpr ⟨nofun, isChain_append.mpr ⟨hused, ?_, ?_⟩⟩
    · dsimp only at hrest
      split at hrest
      · exact .cons_cons nofun (.singleton _)
      · exact .singleton _
      · cases hrest
    · dsimp only at hrest
      split at hrest
      · rintro _ _ _ ⟨⟩ _ _ _ ⟨⟩
      · rintro _ _ _ ⟨⟩ _ _ _ ⟨⟩
      · cases hrest
  case h_2 => cases h

/-- The lexer fails on a text, or its tokens have a string behind a word. -/
def Refused (tokens : Option (List Token)) : Prop :=
  ∀ ts, tokens = some ts → ¬ts.IsChain NoPrefix

variable {tokens : Option (List Token)}

theorem Refused.parse (h : Refused tokens) : tokens.bind parseTokens = none := by
  cases tokens with
  | none => rfl
  | some ts =>
      rw [Option.bind_some, Option.eq_none_iff_forall_ne_some]
      exact fun p hp => h ts rfl (isChain_of_parsed hp)

def SameTokens (first second : Option (List Token)) : Prop :=
  first = second ∨ Refused first ∧ Refused second

variable {first second : Option (List Token)}

theorem SameTokens.parse (h : SameTokens first second) :
    first.bind parseTokens = second.bind parseTokens := by
  rcases h with rfl | ⟨hfirst, hsecond⟩
  · rfl
  · rw [hfirst.parse, hsecond.parse]

theorem Refused.map (h : Refused tokens)
    {f : List Token → List Token} (hf : ∀ ts, (f ts).IsChain NoPrefix → ts.IsChain NoPrefix) :
    Refused (tokens.map f) := by
  intro ts hts
  obtain ⟨ts', hts', rfl⟩ := Option.map_eq_some_iff.mp hts
  exact fun hchain => h ts' hts' (hf ts' hchain)

theorem Refused.lexChar (h : Refused tokens) (c : Char)
    (inWord : Bool) : Refused (CodeGraph.lexChar cc c inWord tokens) := by
  have hcons : ∀ token : Token, Refused (tokens.map (token :: ·)) := fun token =>
    h.map fun ts hts => (isChain_cons.mp hts).2
  have hextend : Refused (tokens.map (extendWord c)) := by
    refine h.map fun ts hts => ?_
    rw [extendWord.eq_def] at hts
    split at hts
    next name ts =>
      obtain ⟨hhead, htail⟩ := isChain_cons.mp hts
      refine isChain_cons.mpr ⟨fun next hnext _ value heq => ?_, htail⟩
      exact hhead next hnext (c :: name) value rfl
    next => exact hts
  rw [CodeGraph.lexChar]
  split
  · exact h
  · split
    · exact hcons _
    · split
      · split
        · exact hextend
        · exact hcons _
      · exact nofun

theorem SameTokens.lexChar (h : SameTokens first second) (c : Char) (inWord : Bool) :
    SameTokens (CodeGraph.lexChar cc c inWord first) (CodeGraph.lexChar cc c inWord second) := by
  rcases h with rfl | ⟨hfirst, hsecond⟩
  · exact Or.inl rfl
  · exact Or.inr ⟨hfirst.lexChar c inWord, hsecond.lexChar c inWord⟩

/-! ## String literals behind a comment -/

theorem Quoted.append {first second : Text} (h : Quoted first) (h' : Quoted second) :
    Quoted (first ++ second) := by
  induction h with
  | nil => exact h'
  | char hquote hbackslash _ ih => exact .char hquote hbackslash ih
  | escaped c _ ih => exact .escaped c ih

theorem quoted_of_forall (h : ∀ c ∈ text, c ≠ '"' ∧ c ≠ '\\') : Quoted text := by
  induction text with
  | nil => exact .nil
  | cons c text ih =>
      obtain ⟨hhead, htail⟩ := forall_mem_cons.mp h
      exact .char hhead.1 hhead.2 (ih htail)

/-- The quote that ends a literal is where it is. -/
theorem Quoted.unique {first second rest rest' : Text} (h : Quoted first) (h' : Quoted second)
    (heq : first ++ '"' :: rest = second ++ '"' :: rest') : first = second ∧ rest = rest' := by
  induction h generalizing second with
  | nil =>
      cases h' with
      | nil => exact ⟨rfl, (List.cons.inj heq).2⟩
      | char hquote => exact absurd (List.cons.inj heq).1.symm hquote
      | escaped c => exact absurd (List.cons.inj heq).1 (by decide)
  | char hquote hbackslash _ ih =>
      cases h' with
      | nil => exact absurd (List.cons.inj heq).1 hquote
      | char hquote' hbackslash' h' =>
          obtain ⟨rfl, htail⟩ := List.cons.inj heq
          obtain ⟨rfl, hrest⟩ := ih h' htail
          exact ⟨rfl, hrest⟩
      | escaped c => exact absurd (List.cons.inj heq).1 hbackslash
  | escaped c _ ih =>
      cases h' with
      | nil => exact absurd (List.cons.inj heq).1 (by decide)
      | char hquote' hbackslash' => exact absurd (List.cons.inj heq).1.symm hbackslash'
      | escaped d h' =>
          obtain ⟨rfl, htail⟩ := List.cons.inj (List.cons.inj heq).2
          obtain ⟨rfl, hrest⟩ := ih h' htail
          exact ⟨rfl, hrest⟩

theorem ne_of_hexDigit {d : Char} (h : (hexDigitValue c).isSome) (hd : hexDigitValue d = none) :
    c ≠ d := by
  rintro rfl
  rw [hd] at h
  cases h

theorem mem_unsigned {digits : Text} (h : c ∈ digits) : c = '+' ∨ c ∈ unsigned digits := by
  rw [unsigned.eq_def]
  split
  · exact mem_cons.mp h
  · exact Or.inr h

theorem Piece.quoted {p : Piece} (hspelled : p.Spelled) (h : p.decoded.isSome) :
    Quoted p.text ∧ p.Apart := by
  cases p with
  | char c => exact ⟨.char hspelled.1 hspelled.2 .nil, hspelled⟩
  | simple c =>
      obtain ⟨d, hd⟩ := Option.isSome_iff_exists.mp h
      exact ⟨.escaped c .nil, apart_of_simpleEscape hd⟩
  | byte a b =>
      obtain ⟨hb, ha⟩ := decoded_byte_isSome.mp h
      have hplain : ∀ d, d ≠ '+' → hexDigitValue d = none → a ≠ d := fun d hd hnone => by
        rcases ha with rfl | ⟨n, hn, -⟩
        · exact hd.symm
        · exact ne_of_hexDigit (by rw [hn]; rfl) hnone
      refine ⟨.escaped 'x' (.char (hplain _ (by decide) (by decide))
        (hplain _ (by decide) (by decide)) (.char ?_ ?_ .nil)), trivial⟩
      · exact ne_of_hexDigit hb (by decide)
      · exact ne_of_hexDigit hb (by decide)
  | unicode digits =>
      have hdigits := decoded_unicode_isSome.mp h
      have hplain : ∀ c ∈ digits, ∀ d, d ≠ '+' → hexDigitValue d = none → c ≠ d := by
        intro c hc d hd hnone
        rcases mem_unsigned hc with rfl | hmem
        · exact hd.symm
        · exact ne_of_hexDigit (areDigits_isSome hdigits hmem) hnone
      refine ⟨.escaped 'u' (.char (by decide) (by decide) (Quoted.append ?_ ?_)), fun hmem => ?_⟩
      · exact quoted_of_forall fun c hc => ⟨hplain c hc _ (by decide) (by decide),
          hplain c hc _ (by decide) (by decide)⟩
      · exact .char (by decide) (by decide) .nil
      · exact hplain _ hmem '}' (by decide) (by decide) rfl

theorem stringLiteral_quoted {literal rest rest' : Text} (hbody : Quoted body)
    (h : stringLiteral (body ++ '"' :: rest) = some (literal, rest')) (other : Text) :
    stringLiteral (body ++ '"' :: other) = some (literal, other) := by
  rw [stringLiteral_eq] at h
  obtain ⟨⟨ps, rest''⟩, hpieces, hread⟩ := Option.bind_eq_some_iff.mp h
  obtain ⟨hvalue, rfl⟩ := readPieces_eq_some.mp hread
  obtain ⟨htext, hspelled⟩ := pieces_text _ _ _ hpieces
  have hdecoded : ∀ p ∈ ps, p.decoded.isSome := mapM_isSome.mp (by rw [hvalue]; rfl)
  have hquoted : Quoted (ps.flatMap Piece.text) := by
    clear hpieces hread hvalue htext h
    induction ps with
    | nil => exact .nil
    | cons p ps ih =>
        rw [forall_mem_cons] at hspelled hdecoded
        exact ((Piece.quoted hspelled.1 hdecoded.1).1).append (ih hspelled.2 hdecoded.2)
  obtain ⟨rfl, -⟩ := hbody.unique hquoted htext
  have hapart : ∀ p ∈ ps, p.Apart := fun p hp => (Piece.quoted (hspelled p hp) (hdecoded p hp)).2
  rw [stringLiteral_eq, Piece.Apart.pieces_flatMap hapart]
  exact readPieces_eq_some.mpr ⟨hvalue, rfl⟩

/-- A literal in front of two texts: refused in front of both, or one token in front of
the tokens of each. -/
theorem tokenize_str (h : cc.Standard) (hbody : Quoted body) :
    (∀ text, tokenize cc ('"' :: (body ++ '"' :: text)) = none) ∨
      ∃ literal, ∀ text, tokenize cc ('"' :: (body ++ '"' :: text)) =
        (tokenize cc text).map (.str literal :: ·) := by
  have hquote : ∀ text, tokenize cc ('"' :: text) = (stringLiteral text).bind fun (literal, rest) =>
      (tokenize cc rest).map (.str literal :: ·) := fun text => by
    rw [tokenize_cons, if_neg (h.marks '"' (by decide)).1, if_neg (by decide), if_neg (by decide),
      if_neg (by decide), if_neg (by decide), if_pos rfl]
  cases hlit : stringLiteral (body ++ ['"']) with
  | none =>
      refine Or.inl fun text => ?_
      rw [hquote]
      cases hother : stringLiteral (body ++ '"' :: text) with
      | none => rfl
      | some found =>
          have := stringLiteral_quoted hbody hother []
          rw [hlit] at this
          cases this
  | some found =>
      refine Or.inr ⟨found.1, fun text => ?_⟩
      rw [hquote, stringLiteral_quoted hbody hlit text]
      rfl

/-! ## What is in front of a comment -/

/-- Two texts that can follow a third alike: their tokens are the same, and where the
third ends in a word, both go on with it or neither does. -/
structure AgreeBehind (cc : CharClass) (before first second : Text) : Prop where
  tokens : tokenize cc (withoutComments first) = tokenize cc (withoutComments second)
  word : (∃ c ∈ before.getLast?, cc.isIdent c) →
    startsWord cc (withoutComments first) = startsWord cc (withoutComments second)

theorem AgreeBehind.behind (pre : Text) {first second : Text} (h : AgreeBehind cc (pre ++ text) first second) :
    AgreeBehind cc text first second := by
  refine ⟨h.tokens, fun ⟨c, hc, hword⟩ => h.word ⟨c, ?_, hword⟩⟩
  rw [getLast?_append, Option.mem_def.mp hc]
  exact rfl

@[simp] theorem startsWord_cons (c : Char) (text : Text) :
    startsWord cc (c :: text) = cc.isIdent c := rfl

theorem withoutComments_plain (hquote : c ≠ '"') (hslash : c ≠ '/') (text : Text) :
    withoutComments (c :: text) = c :: withoutComments text := by
  refine withoutComments_char hquote ?_ ?_ <;> rintro ⟨rest, heq⟩ <;>
    exact hslash (List.cons.inj heq).1.symm

theorem withoutComments_slash (hc : c ≠ '/' ∧ c ≠ '*') (text : Text) :
    withoutComments ('/' :: c :: text) = '/' :: withoutComments (c :: text) := by
  refine withoutComments_char (by decide) ?_ ?_ <;> rintro ⟨rest, heq⟩
  · exact hc.1 (List.cons.inj (List.cons.inj heq).2).1.symm
  · exact hc.2 (List.cons.inj (List.cons.inj heq).2).1.symm

theorem withoutComments_line (h : '\n' ∉ body) (text : Text) :
    withoutComments ('/' :: '/' :: (body ++ '\n' :: text)) = ' ' :: withoutComments text := by
  rw [withoutComments, skipLineComment_body h]

theorem withoutComments_block {comment : Text} (h : BlockRest 1 comment) (text : Text) :
    withoutComments ('/' :: '*' :: (comment ++ text)) = ' ' :: withoutComments text := by
  rw [withoutComments, skipBlockComment_rest h]

theorem startsWord_withoutComments (hcc : cc.Standard) (h : OutsideTokens cc text)
    (hne : text ≠ []) : ∃ c, ∀ rest, ∃ tail, withoutComments (text ++ rest) = c :: tail := by
  cases h with
  | nil => exact absurd rfl hne
  | @char c text hquote hslash => exact ⟨c, fun rest => ⟨_, withoutComments_plain hquote hslash _⟩⟩
  | slash hc => exact ⟨'/', fun rest => ⟨_, withoutComments_slash hc _⟩⟩
  | str => exact ⟨'"', fun rest => ⟨_, by rw [cons_append, withoutComments]⟩⟩
  | @line body text hbody =>
      refine ⟨' ', fun rest => ⟨withoutComments (text ++ rest), ?_⟩⟩
      rw [cons_append, cons_append, append_assoc, cons_append]
      exact withoutComments_line hbody _
  | @block comment text hcomment =>
      refine ⟨' ', fun rest => ⟨withoutComments (text ++ rest), ?_⟩⟩
      rw [cons_append, cons_append, append_assoc]
      exact withoutComments_block hcomment _
  | apostrophe => exact ⟨'\'', fun rest => ⟨_, withoutComments_plain (by decide) (by decide) _⟩⟩
  | hash => exact ⟨'#', fun rest => ⟨_, withoutComments_plain (by decide) (by decide) _⟩⟩
  | @strPrefix c hc =>
      have hne := hcc.word_ne hc
      exact ⟨c, fun rest => ⟨_, withoutComments_plain (hne _ (by decide)) (hne _ (by decide)) _⟩⟩

theorem lexChar_of_not_word (hc : ¬cc.isIdent c) (inWord inWord' : Bool)
    (tokens : Option (List Token)) : lexChar cc c inWord tokens = lexChar cc c inWord' tokens := by
  rw [lexChar, lexChar, if_neg hc, if_neg hc]

theorem lexChar_stop (hspace : ¬cc.isWhitespace c) (hmark : markToken c = none)
    (hword : ¬cc.isIdent c) (inWord : Bool) (tokens : Option (List Token)) :
    lexChar cc c inWord tokens = none := by
  rw [lexChar, if_neg hspace, hmark]
  exact if_neg hword

theorem SameTokens.cons (h : SameTokens first second)
    (token : Token) : SameTokens (first.map (token :: ·)) (second.map (token :: ·)) := by
  rcases h with rfl | ⟨hfirst, hsecond⟩
  · exact Or.inl rfl
  · have htail : ∀ ts : List Token, (token :: ts).IsChain NoPrefix → ts.IsChain NoPrefix :=
      fun ts hts => (isChain_cons.mp hts).2
    exact Or.inr ⟨hfirst.map htail, hsecond.map htail⟩

theorem refused_strPrefix (hcc : cc.Standard) (hc : cc.isIdent c) (text : Text) :
    Refused (tokenize cc (withoutComments (c :: '"' :: text))) := by
  have hne := hcc.word_ne hc
  obtain ⟨hspace, hword⟩ := hcc.marks '"' (by decide)
  rw [withoutComments_plain (hne _ (by decide)) (hne _ (by decide)), withoutComments,
    tokenize_char hcc (hne _ (by decide)), startsWord_cons, lexChar, if_neg (hcc.apart c hc),
    hcc.markToken_word hc]
  show Refused (if cc.isIdent c then _ else none)
  rw [if_pos hc, if_neg hword, tokenize_cons, if_neg hspace, if_neg (by decide), if_neg (by decide),
    if_neg (by decide), if_neg (by decide), if_pos rfl]
  intro ts hts hchain
  obtain ⟨ts', hts', rfl⟩ := Option.map_eq_some_iff.mp hts
  obtain ⟨⟨literal, rest⟩, -, htail⟩ := Option.bind_eq_some_iff.mp hts'
  obtain ⟨ts'', -, rfl⟩ := Option.map_eq_some_iff.mp htail
  exact (isChain_cons.mp hchain).1 _ rfl [c] literal rfl rfl

/-- Whatever comes behind a text that ends between two tokens, the tokens of the whole are
the same when those of what comes behind are. -/
theorem sameTokens_outside (hcc : cc.Standard) {before : Text} (h : OutsideTokens cc before) :
    ∀ {first second : Text}, AgreeBehind cc before first second →
      SameTokens (tokenize cc (withoutComments (before ++ first)))
        (tokenize cc (withoutComments (before ++ second))) := by
  induction h with
  | nil => exact fun halike => Or.inl halike.tokens
  | @char c text hquote hslash h ih =>
      intro first second halike
      have htail := ih (AgreeBehind.behind [c] halike)
      rw [cons_append, cons_append, withoutComments_plain hquote hslash,
        withoutComments_plain hquote hslash, tokenize_char hcc hquote, tokenize_char hcc hquote]
      by_cases hc : cc.isIdent c
      · -- a word goes on behind `c` in both texts or in neither
        have hword : startsWord cc (withoutComments (text ++ first)) =
            startsWord cc (withoutComments (text ++ second)) := by
          by_cases hne : text = []
          · subst hne
            exact halike.word ⟨c, rfl, hc⟩
          · obtain ⟨d, hd⟩ := startsWord_withoutComments hcc h hne
            obtain ⟨_, hfirst⟩ := hd first
            obtain ⟨_, hsecond⟩ := hd second
            rw [hfirst, hsecond, startsWord_cons, startsWord_cons]
        rw [hword]
        exact htail.lexChar c _
      · rw [lexChar_of_not_word hc _ (startsWord cc (withoutComments (text ++ second)))]
        exact htail.lexChar c _
  | @slash c text hc h ih =>
      intro first second halike
      obtain ⟨hspace, hword⟩ := hcc.marks '/' (by decide)
      refine Or.inl ?_
      rw [cons_append, cons_append, cons_append, cons_append,
        withoutComments_slash hc, withoutComments_slash hc, tokenize_char hcc (by decide),
        tokenize_char hcc (by decide), lexChar_stop hspace rfl hword, lexChar_stop hspace rfl hword]
  | @str body text hbody h ih =>
      intro first second halike
      have htail := ih (AgreeBehind.behind ('"' :: (body ++ ['"'])) (by simpa using halike))
      rw [cons_append, cons_append, append_assoc, append_assoc,
        cons_append, cons_append, withoutComments_str hbody, withoutComments_str hbody]
      rcases tokenize_str hcc hbody with hnone | ⟨literal, hliteral⟩
      · rw [hnone, hnone]
        exact Or.inl rfl
      · rw [hliteral, hliteral]
        exact htail.cons (.str literal)
  | @line body text hbody h ih =>
      intro first second halike
      have htail := ih (AgreeBehind.behind ('/' :: '/' :: (body ++ ['\n'])) (by simpa using halike))
      rw [cons_append, cons_append, cons_append, cons_append, append_assoc,
        append_assoc, cons_append, cons_append, withoutComments_line hbody,
        withoutComments_line hbody, tokenize_space hcc.space, tokenize_space hcc.space]
      exact htail
  | @block comment text hcomment h ih =>
      intro first second halike
      have htail := ih (AgreeBehind.behind ('/' :: '*' :: comment) (by simpa using halike))
      rw [cons_append, cons_append, cons_append, cons_append, append_assoc,
        append_assoc, withoutComments_block hcomment, withoutComments_block hcomment,
        tokenize_space hcc.space, tokenize_space hcc.space]
      exact htail
  | apostrophe text =>
      intro first second halike
      obtain ⟨hspace, hword⟩ := hcc.marks '\'' (by decide)
      refine Or.inl ?_
      rw [cons_append, cons_append, withoutComments_plain (by decide) (by decide),
        withoutComments_plain (by decide) (by decide), tokenize_char hcc (by decide),
        tokenize_char hcc (by decide), lexChar_stop hspace rfl hword, lexChar_stop hspace rfl hword]
  | hash text =>
      intro first second halike
      obtain ⟨hspace, hword⟩ := hcc.marks '#' (by decide)
      refine Or.inl ?_
      rw [cons_append, cons_append, withoutComments_plain (by decide) (by decide),
        withoutComments_plain (by decide) (by decide), tokenize_char hcc (by decide),
        tokenize_char hcc (by decide), lexChar_stop hspace rfl hword, lexChar_stop hspace rfl hword]
  | strPrefix h text =>
      intro first second halike
      exact Or.inr ⟨refused_strPrefix hcc h _, refused_strPrefix hcc h _⟩

/-! ## Comments between tokens -/

theorem tokenize_comment (hcc : cc.Standard) {comment after : Text} (h : Comment comment after) :
    tokenize cc (withoutComments (comment ++ after)) = tokenize cc (withoutComments after) ∧
      startsWord cc (withoutComments (comment ++ after)) = false := by
  have hspace : startsWord cc (' ' :: withoutComments after) = false :=
    Bool.eq_false_of_not_eq_true fun hword => hcc.apart ' ' hword hcc.space
  cases h with
  | block h =>
      rw [cons_append, cons_append, withoutComments_block h, tokenize_space hcc.space]
      exact ⟨rfl, hspace⟩
  | line h =>
      rw [cons_append, cons_append, append_assoc, singleton_append,
        withoutComments_line h, tokenize_space hcc.space]
      exact ⟨rfl, hspace⟩
  | @lineEnd body _ h hend =>
      cases after with
      | nil =>
          have hend : withoutComments ('/' :: '/' :: body) = [' '] :=
            (withoutComments.eq_3 body).trans (skipLineComment_end h)
          rw [append_nil, hend, tokenize_space hcc.space]
          exact ⟨rfl, hspace⟩
      | cons c after =>
          obtain rfl : c = '\n' := Option.some.inj (hend.resolve_left (cons_ne_nil _ _))
          rw [cons_append, cons_append, withoutComments_line h,
            withoutComments_plain (by decide) (by decide), tokenize_space hcc.space,
            tokenize_space hcc.newline]
          exact ⟨rfl, Bool.eq_false_of_not_eq_true fun hword => hcc.apart ' ' hword hcc.space⟩

theorem skipLineComment_head : ∀ text : Text, ∃ tail, skipLineComment text = ' ' :: tail
  | [] => ⟨[], rfl⟩
  | c :: text => by
      by_cases hc : c = '\n'
      · subst hc
        exact ⟨withoutComments text, by rw [skipLineComment]⟩
      · rw [skipLineComment.eq_3 c text hc]
        exact skipLineComment_head text

theorem skipBlockComment_head (depth : Nat) (text : Text) :
    ∃ tail, skipBlockComment depth text = ' ' :: tail := by
  rw [skipBlockComment.eq_def]
  split
  · exact ⟨[], rfl⟩
  · exact skipBlockComment_head _ _
  · split
    · exact ⟨_, rfl⟩
    · exact skipBlockComment_head _ _
  · exact skipBlockComment_head _ _
termination_by text.length

theorem startsWord_of_withoutComments (hcc : cc.Standard)
    (h : startsWord cc (withoutComments text)) : ∃ c ∈ text.head?, cc.isIdent c := by
  have hspace : ¬cc.isIdent ' ' := fun hword => hcc.apart ' ' hword hcc.space
  rw [withoutComments.eq_def] at h
  split at h
  · cases h
  · exact absurd h (hcc.marks '"' (by decide)).2
  next rest =>
    obtain ⟨tail, hhead⟩ := skipLineComment_head rest
    rw [hhead] at h
    exact absurd h hspace
  next rest =>
    obtain ⟨tail, hhead⟩ := skipBlockComment_head 1 rest
    rw [hhead] at h
    exact absurd h hspace
  next c rest _ _ _ => exact ⟨c, rfl, h⟩

/-- A comment between two tokens that does not come right behind a `/` leaves the
predicate, or the refusal, as it is. -/
theorem parse_comment (hcc : cc.Standard) {before comment after : Text}
    (hbefore : OutsideTokens cc before) (hword : ¬SplitsWord cc before after)
    (hcomment : Comment comment after) :
    CfgPredicate.parseCfgArguments cc (before ++ comment ++ after) =
      CfgPredicate.parseCfgArguments cc (before ++ after) := by
  obtain ⟨htokens, hstart⟩ := tokenize_comment hcc hcomment
  rw [parseCfgArguments_eq, parseCfgArguments_eq, append_assoc]
  refine (sameTokens_outside hcc hbefore ⟨htokens, fun hlast => ?_⟩).parse
  rw [hstart, eq_comm]
  refine Bool.eq_false_of_not_eq_true fun hafter => hword ⟨hlast, ?_⟩
  exact startsWord_of_withoutComments hcc hafter

theorem standard_ascii : CharClass.ascii.Standard where
  space := by decide
  newline := by decide
  apart c hword hspace := by
    have hcases : c = ' ' ∨ c = '\t' ∨ c = '\r' ∨ c = '\n' := by
      have hspace : Char.isWhitespace c = true := hspace
      simpa only [Char.isWhitespace, Bool.or_eq_true, decide_eq_true_eq, or_assoc] using hspace
    rcases hcases with rfl | rfl | rfl | rfl <;> exact absurd hword (by decide)
  marks := by
    simp only [show "\"'#/*(),=".toList = ['"', '\'', '#', '/', '*', '(', ')', ',', '='] from rfl,
      forall_mem_cons]
    refine ⟨?_, ?_, ?_, ?_, ?_, ?_, ?_, ?_, ?_, nofun⟩ <;> decide

/-- `(all(unix,/*a "*/kani))`: the quote in the comment opens no string. -/
theorem parse_comment_quote : CfgPredicate.parseCfgArguments .ascii
    ("(all(unix,".toList ++ "/*a \"*/".toList ++ "kani))".toList) =
      some (.all [.option "unix".toList none, .option "kani".toList none]) := by
  have hbefore : OutsideTokens .ascii "(all(unix,".toList := by
    repeat' first | exact .nil | refine .char (by decide) (by decide) ?_
  have hword : ¬SplitsWord .ascii "(all(unix,".toList "kani))".toList := by
    rintro ⟨⟨c, hc, hident⟩, -⟩
    cases hc
    exact absurd hident (by decide)
  have hcomment : Comment "/*a \"*/".toList "kani))".toList :=
    .block (.char (by decide) (by decide) (.char (by decide) (by decide)
      (.char (by decide) (by decide) .last)))
  rw [parse_comment standard_ascii hbefore hword hcomment]
  decide +kernel

/-- A block comment right behind a `/` is none: with the `/` it opens a line comment. -/
theorem comment_behind_slash : ¬∀ (cc : CharClass), cc.Standard →
    ∀ before comment after, BetweenTokens cc before after → Comment comment after →
      CfgPredicate.parseCfgArguments cc (before ++ comment ++ after) =
        CfgPredicate.parseCfgArguments cc (before ++ after) := by
  intro h
  have hbefore : OutsideTokens .ascii "(unix ".toList := by
    repeat' first | exact .nil | refine .char (by decide) (by decide) ?_
  have hbetween : BetweenTokens .ascii "(unix /".toList "\n)".toList := by
    refine ⟨?_, Or.inr ⟨"(unix ".toList, rfl, hbefore, ?_⟩⟩
    · rintro ⟨⟨c, hc, hident⟩, -⟩
      cases hc
      exact absurd hident (by decide)
    · rintro c ⟨⟩
      decide
  have hcomment : Comment "/**/".toList "\n)".toList := .block .last
  have heq := h .ascii standard_ascii _ _ _ hbetween hcomment
  have hwith : CfgPredicate.parseCfgArguments .ascii ("(unix /".toList ++ "/**/".toList ++ "\n)".toList) =
      some (.option "unix".toList none) := by decide +kernel
  have hwithout : CfgPredicate.parseCfgArguments .ascii ("(unix /".toList ++ "\n)".toList) = none := by
    decide +kernel
  rw [hwith, hwithout] at heq
  cases heq

end CodeGraph
