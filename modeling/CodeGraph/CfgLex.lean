import CodeGraph.Text

/-!
# The lexer of a `#[cfg(...)]` argument list

Comment removal, string literals with their escapes, and the token stream the
predicate parser reads. A lexer that loops over a character iterator becomes
a recursion over the text that is left.
-/

namespace CodeGraph

open Option

/-! ## Comments -/

mutual

/-- `text` with every `//` and `/* */` comment replaced by one space. A comment
marker inside a string literal is text, not a comment. -/
def withoutComments : Text → Text
  | [] => []
  | '"' :: rest => '"' :: copyStringRest false rest
  | '/' :: '/' :: rest => skipLineComment rest
  | '/' :: '*' :: rest => skipBlockComment 1 rest
  | c :: rest => c :: withoutComments rest

/-- Copies the rest of a string literal up to and including its closing quote;
an escaped quote does not close it. -/
def copyStringRest (escaped : Bool) : Text → Text
  | [] => []
  | c :: rest =>
      c :: (if escaped then copyStringRest false rest
        else if c = '\\' then copyStringRest true rest
        else if c = '"' then withoutComments rest
        else copyStringRest false rest)

def skipLineComment : Text → Text
  | [] => [' ']
  | '\n' :: rest => ' ' :: withoutComments rest
  | _ :: rest => skipLineComment rest

/-- Skips a block comment whose `/*` is already consumed, nested ones too. -/
def skipBlockComment (depth : Nat) : Text → Text
  | [] => [' ']
  | '/' :: '*' :: rest => skipBlockComment (depth + 1) rest
  | '*' :: '/' :: rest =>
      if depth - 1 = 0 then ' ' :: withoutComments rest else skipBlockComment (depth - 1) rest
  | _ :: rest => skipBlockComment depth rest

end

example : withoutComments "a/*x/*y*/*/b \"/*\" //z".toList = "a b \"/*\"  ".toList := by decide

/-! ## Tokens -/

inductive Token where
  | ident (name : Text)
  | str (value : Text)
  | eq
  | open
  | close
  | comma
  deriving DecidableEq

/-- The character a one-letter escape stands for. -/
def simpleEscape : Char → Option Char
  | '"' => some '"'
  | '\\' => some '\\'
  | '\'' => some '\''
  | 'n' => some '\n'
  | 'r' => some '\r'
  | 't' => some '\t'
  | '0' => some (Char.ofNat 0)
  | _ => none

/-- `char::from_u32`: no surrogates, nothing past the last code point. -/
def charFromU32 (n : Nat) : Option Char :=
  if n.isValidChar then some (Char.ofNat n) else none

mutual

/-- The body of a string literal whose opening quote is already consumed, and
the text after its closing quote. `none` for an unterminated string or an
escape the language does not have. -/
def stringLiteral : Text → Option (Text × Text)
  | [] => none
  | '"' :: rest => some ([], rest)
  | '\\' :: 'x' :: a :: b :: rest => do
      let c ← (fromStrRadix16 256 [a, b]).filter (· < 0x80)
      let (literal, rest) ← stringLiteral rest
      some (Char.ofNat c :: literal, rest)
  | '\\' :: 'u' :: '{' :: rest => unicodeEscape [] rest
  | '\\' :: c :: rest => do
      let c ← simpleEscape c
      let (literal, rest) ← stringLiteral rest
      some (c :: literal, rest)
  | ['\\'] => none
  | c :: rest => do
      let (literal, rest) ← stringLiteral rest
      some (c :: literal, rest)

/-- The digits of a `\u{..}` escape, up to the brace that closes them. -/
def unicodeEscape (hex : Text) : Text → Option (Text × Text)
  | [] => none
  | '}' :: rest => do
      let c ← (fromStrRadix16 (2 ^ 32) hex).bind charFromU32
      let (literal, rest) ← stringLiteral rest
      some (c :: literal, rest)
  | c :: rest => unicodeEscape (hex ++ [c]) rest

end

/-- A character an identifier is made of. -/
def CharClass.isIdent (cc : CharClass) (c : Char) : Bool := cc.isAlphanumeric c || c = '_'

/-- The loop of `tokenize`. Every turn consumes at least one character, so the
length of the text is fuel enough (`tokenizeFrom_stable`). -/
def tokenizeFrom (cc : CharClass) : Nat → Text → Option (List Token)
  | _, [] => some []
  | 0, _ :: _ => none
  | fuel + 1, c :: rest =>
      if cc.isWhitespace c then tokenizeFrom cc fuel rest
      else if c = '(' then (tokenizeFrom cc fuel rest).map (.open :: ·)
      else if c = ')' then (tokenizeFrom cc fuel rest).map (.close :: ·)
      else if c = ',' then (tokenizeFrom cc fuel rest).map (.comma :: ·)
      else if c = '=' then (tokenizeFrom cc fuel rest).map (.eq :: ·)
      else if c = '"' then do
        let (literal, rest) ← stringLiteral rest
        (tokenizeFrom cc fuel rest).map (.str literal :: ·)
      else if cc.isIdent c then
        (tokenizeFrom cc fuel ((c :: rest).dropWhile cc.isIdent)).map
          (.ident ((c :: rest).takeWhile cc.isIdent) :: ·)
      else none

def tokenize (cc : CharClass) (text : Text) : Option (List Token) :=
  tokenizeFrom cc text.length text

/-! ## The fuel suffices -/

/-- A string literal ends strictly before the end of the text it was read from.
The induction is the one of the two mutual readers, so the digits of a `\u`
escape carry the same statement. -/
theorem stringLiteral_rest_lt {text : Text} : ∀ {literal rest : Text},
    stringLiteral text = some (literal, rest) → rest.length < text.length := by
  refine stringLiteral.induct
    (fun text => ∀ {literal rest : Text},
      stringLiteral text = some (literal, rest) → rest.length < text.length)
    (fun hex text => ∀ {literal rest : Text},
      unicodeEscape hex text = some (literal, rest) → rest.length < text.length)
    ?empty ?quote ?hexByte ?unicode ?simple ?backslash ?plain ?noBrace ?brace ?digit text
  case empty => intro _ _ h; simp [stringLiteral] at h
  case quote =>
    intro tail _ _ h
    simp only [stringLiteral, Option.some.injEq, Prod.mk.injEq] at h
    simp [← h.2]
  case hexByte =>
    intro a b tail ih _ _ h
    simp only [stringLiteral, bind_eq_bind, bind_eq_some_iff,
      Option.some.injEq, Prod.mk.injEq] at h
    obtain ⟨-, -, ⟨_, _⟩, hlit, -, rfl⟩ := h
    have := ih hlit
    simp only [List.length_cons]
    omega
  case unicode =>
    intro tail ih _ _ h
    rw [stringLiteral] at h
    have := ih h
    simp only [List.length_cons]
    omega
  case simple =>
    intro c tail hx hu ih _ _ h
    simp only [stringLiteral.eq_5 c tail hx hu, bind_eq_bind, bind_eq_some_iff,
      Option.some.injEq, Prod.mk.injEq] at h
    obtain ⟨-, -, ⟨_, _⟩, hlit, -, rfl⟩ := h
    have := ih hlit
    simp only [List.length_cons]
    omega
  case backslash => intro _ _ h; simp [stringLiteral] at h
  case plain =>
    intro c tail h1 h2 h3 h4 h5 ih _ _ h
    simp only [stringLiteral.eq_7 c tail h1 h2 h3 h4 h5, bind_eq_bind,
      bind_eq_some_iff, Option.some.injEq, Prod.mk.injEq] at h
    obtain ⟨⟨_, _⟩, hlit, -, rfl⟩ := h
    have := ih hlit
    simp only [List.length_cons]
    omega
  case noBrace => intro _ _ _ h; simp [unicodeEscape] at h
  case brace =>
    intro hex tail ih _ _ h
    simp only [unicodeEscape, bind_eq_bind, bind_eq_some_iff,
      Option.some.injEq, Prod.mk.injEq] at h
    obtain ⟨-, -, ⟨_, _⟩, hlit, -, rfl⟩ := h
    have := ih hlit
    simp only [List.length_cons]
    omega
  case digit =>
    intro hex c tail hc ih _ _ h
    rw [unicodeEscape.eq_3 hex c tail hc] at h
    have := ih h
    simp only [List.length_cons]
    omega

theorem length_dropWhile_le (p : Char → Bool) (text : Text) :
    (text.dropWhile p).length ≤ text.length :=
  (List.dropWhile_sublist p).length_le

theorem tokenizeFrom_stable (cc : CharClass) : ∀ (n m : Nat) (text : Text),
    text.length ≤ n → text.length ≤ m → tokenizeFrom cc n text = tokenizeFrom cc m text
  | n, m, [], _, _ => by cases n <;> cases m <;> rfl
  | 0, _, _ :: _, hn, _ => by simp at hn
  | _, 0, _ :: _, _, hm => by simp at hm
  | n + 1, m + 1, c :: rest, hn, hm => by
      have hn : rest.length ≤ n := by simpa using hn
      have hm : rest.length ≤ m := by simpa using hm
      have hrest := tokenizeFrom_stable cc n m rest hn hm
      have hstr : (stringLiteral rest).bind (fun (literal, rest) =>
            (tokenizeFrom cc n rest).map (.str literal :: ·)) =
          (stringLiteral rest).bind (fun (literal, rest) =>
            (tokenizeFrom cc m rest).map (.str literal :: ·)) := by
        cases hlit : stringLiteral rest with
        | none => rfl
        | some found =>
            have hlt : found.2.length < rest.length := stringLiteral_rest_lt hlit
            simp only [bind_some]
            rw [tokenizeFrom_stable cc n m found.2 (by omega) (by omega)]
      have hident : cc.isIdent c → tokenizeFrom cc n ((c :: rest).dropWhile cc.isIdent) =
          tokenizeFrom cc m ((c :: rest).dropWhile cc.isIdent) := fun hc => by
        have hle : ((c :: rest).dropWhile cc.isIdent).length ≤ rest.length := by
          rw [List.dropWhile_cons, if_pos hc]
          exact length_dropWhile_le _ rest
        exact tokenizeFrom_stable cc n m _ (hle.trans hn) (hle.trans hm)
      simp only [tokenizeFrom, hrest, bind_eq_bind, hstr]
      by_cases hc : cc.isIdent c
      · rw [hident hc]
      · simp only [if_neg hc]

theorem tokenize_eq {cc : CharClass} {fuel : Nat} {text : Text} (h : text.length ≤ fuel) :
    tokenize cc text = tokenizeFrom cc fuel text :=
  tokenizeFrom_stable cc _ _ text le_rfl h

/-! ## What the tokens are -/

/-- An identifier token is never empty: it starts with the character that made
the lexer read one. -/
theorem tokenizeFrom_ident_ne_nil {cc : CharClass} : ∀ {fuel : Nat} {text : Text}
    {tokens : List Token}, tokenizeFrom cc fuel text = some tokens →
    ∀ {name : Text}, .ident name ∈ tokens → name ≠ []
  | fuel, [], tokens, h, name, hmem => by
      cases fuel <;> simp_all [tokenizeFrom]
  | 0, _ :: _, _, h, _, _ => by simp [tokenizeFrom] at h
  | fuel + 1, c :: rest, tokens, h, name, hmem => by
      -- every branch puts one token before the tokens of a shorter run
      have hcons : ∀ {token : Token} {rest : Text},
          (tokenizeFrom cc fuel rest).map (token :: ·) = some tokens →
          (.ident name = token → name ≠ []) → name ≠ [] := by
        intro token rest hmap hhead
        obtain ⟨tail, htail, rfl⟩ := map_eq_some_iff.mp hmap
        rcases List.mem_cons.mp hmem with heq | hin
        · exact hhead heq
        · exact tokenizeFrom_ident_ne_nil htail hin
      rw [tokenizeFrom] at h
      split_ifs at h with _ _ _ _ _ _ hc
      · exact tokenizeFrom_ident_ne_nil h hmem
      · exact hcons h (by simp)
      · exact hcons h (by simp)
      · exact hcons h (by simp)
      · exact hcons h (by simp)
      · obtain ⟨⟨literal, after⟩, -, h⟩ := bind_eq_some_iff.mp h
        exact hcons h (by simp)
      · refine hcons h ?_
        intro heq
        rw [Token.ident.inj heq, List.takeWhile_cons, if_pos hc]
        exact List.cons_ne_nil _ _

theorem tokenize_ident_ne_nil {cc : CharClass} {text : Text} {tokens : List Token}
    (h : tokenize cc text = some tokens) {name : Text} (hmem : .ident name ∈ tokens) :
    name ≠ [] :=
  tokenizeFrom_ident_ne_nil h hmem

end CodeGraph
