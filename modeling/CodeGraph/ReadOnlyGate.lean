import CodeGraph.Text
import CodeGraph.Lib.Percent

/-!
# The read-only gate

The lexical layer that decides whether a caller's Cypher may reach the engine.
It works on the UTF-8 bytes of the query. `maskNonExecutable` blanks comments
and stands in for literals; every scan for a keyword reads the masked text.
-/

namespace CodeGraph

namespace Cypher

open Percent (utf8 fromUtf8)

def isIdentChar (b : UInt8) : Bool :=
  ('a'.toUInt8 ≤ b && b ≤ 'z'.toUInt8) || ('A'.toUInt8 ≤ b && b ≤ 'Z'.toUInt8) ||
    ('0'.toUInt8 ≤ b && b ≤ '9'.toUInt8) || b == '_'.toUInt8

/-- `is_ascii_whitespace`: a vertical tab is none. -/
def isSeparator (b : UInt8) : Bool :=
  b == ' '.toUInt8 || b == '\t'.toUInt8 || b == '\n'.toUInt8 || b == 12 || b == '\r'.toUInt8

def toAsciiUppercase (text : Text) : Text :=
  text.map fun c => if 'a' ≤ c ∧ c ≤ 'z' then Char.ofNat (c.toNat - 32) else c

def toAsciiLowercase (text : Text) : Text :=
  text.map fun c => if 'A' ≤ c ∧ c ≤ 'Z' then Char.ofNat (c.toNat + 32) else c

/-! ## Masking -/

/-- The byte that stands for a masked literal or backticked identifier: no
separator and no identifier character. -/
def maskedToken : UInt8 := 1

/-- The number of bytes up to and including the quote that closes a run opened
by `q`, counted from just past the opening quote. A backslash escapes the next
byte, but not between backticks. -/
def skipQuoted (q : UInt8) : List UInt8 → Option ℕ
  | [] => none
  | [c] => if c = q then some 1 else none
  | c :: d :: rest =>
      if c = '\\'.toUInt8 ∧ q ≠ '`'.toUInt8 then (skipQuoted q rest).map (· + 2)
      else if c = q then some 1
      else (skipQuoted q (d :: rest)).map (· + 1)

/-- The number of bytes up to and including the `*/` that closes a comment,
counted from just past its `/*`. -/
def skipBlock : List UInt8 → Option ℕ
  | c :: d :: rest =>
      if c = '*'.toUInt8 ∧ d = '/'.toUInt8 then some 2 else (skipBlock (d :: rest)).map (· + 1)
  | _ => none

def isQuote (b : UInt8) : Bool :=
  b == '\''.toUInt8 || b == '"'.toUInt8 || b == '`'.toUInt8

/-- The loop of `mask_non_executable` over the bytes that are left. Every round
consumes a byte, so as many rounds as there are bytes are enough. -/
def maskFrom : ℕ → List UInt8 → Option (List UInt8)
  | 0, _ => some []
  | _ + 1, [] => some []
  | fuel + 1, c :: rest =>
      if isQuote c then do
        let n ← skipQuoted c rest
        (maskFrom fuel (rest.drop n)).map (List.replicate (n + 1) maskedToken ++ ·)
      else if c = '/'.toUInt8 ∧ rest.head? = some '/'.toUInt8 then
        let n := (rest.takeWhile (· ≠ '\n'.toUInt8)).length
        (maskFrom fuel (rest.drop n)).map (List.replicate (n + 1) ' '.toUInt8 ++ ·)
      else if c = '/'.toUInt8 ∧ rest.head? = some '*'.toUInt8 then do
        let n ← skipBlock rest.tail
        (maskFrom fuel (rest.tail.drop n)).map (List.replicate (n + 2) ' '.toUInt8 ++ ·)
      else (maskFrom fuel rest).map (c :: ·)

def maskBytes (bytes : List UInt8) : Option (List UInt8) := maskFrom bytes.length bytes

/-- `query` with every comment blanked and every literal replaced by
`maskedToken`; `none` when a literal or a block comment is left open. -/
def maskNonExecutable (query : Text) : Option Text := maskBytes (utf8 query) >>= fromUtf8

/-! ## Keywords -/

/-- Which positions a keyword scan takes for an identifier: after `.` or `:`
only, or after `AS` too. -/
inductive IdentifierExemption where
  | sigilOnly
  | sigilOrAlias
deriving DecidableEq

/-- The token at `start` names something: separators apart, a `.`, a `:` or,
for a clause detector, the word `AS` stands before it. -/
def inIdentifierPosition (bytes : List UInt8) (start : ℕ) (exemption : IdentifierExemption) :
    Bool :=
  match (bytes.take start).reverse.dropWhile isSeparator with
  | [] => false
  | s :: before =>
      if s = '.'.toUInt8 ∨ s = ':'.toUInt8 then true
      else if exemption = .sigilOnly then false
      else match before with
        | [] => false
        | a :: before =>
            (a == 'a'.toUInt8 || a == 'A'.toUInt8) && (s == 's'.toUInt8 || s == 'S'.toUInt8) &&
              !before.head?.any isIdentChar

/-- The positions at which `needle` stands as a word of its own and as no
identifier. -/
def keywordTokenPositions (haystack needle : Text) (exemption : IdentifierExemption) : List ℕ :=
  let bytes := utf8 haystack
  let nbytes := utf8 needle
  if nbytes = [] ∨ bytes.length < nbytes.length then []
  else (List.range (bytes.length + 1 - nbytes.length)).filter fun i =>
    (bytes.drop i).take nbytes.length == nbytes &&
      !((bytes.take i).getLast?.any isIdentChar) &&
      !((bytes.drop (i + nbytes.length)).head?.any isIdentChar) &&
      !inIdentifierPosition bytes i exemption

def containsKeywordToken (haystack needle : Text) : Bool :=
  !(keywordTokenPositions haystack needle .sigilOnly).isEmpty

def forbiddenCypherKeywords : List String :=
  ["CREATE", "DELETE", "MERGE", "SET", "REMOVE", "DROP", "ALTER", "LOAD", "COPY", "EXPORT",
    "IMPORT", "ATTACH", "DETACH", "USE"]

def readOnlyProcedures : List String := ["TABLE_INFO", "SHOW_TABLES"]

/-- The identifier that follows a `CALL` whose text ends at `j`. -/
def procedureNameAt (bytes : List UInt8) (j : ℕ) : List UInt8 :=
  ((bytes.drop j).dropWhile isSeparator).takeWhile isIdentChar

/-- A `CALL` names something outside `readOnlyProcedures`. -/
def carriesUnlistedProcedure (executableUpper : Text) : Bool :=
  (keywordTokenPositions executableUpper "CALL".toList .sigilOnly).any fun start =>
    !(readOnlyProcedures.map fun name => utf8 name.toList).contains
      (procedureNameAt (utf8 executableUpper) (start + 4))

/-- The first forbidden keyword of the query. A literal left open could hide
one and is reported as a keyword of its own. -/
def forbiddenCypherKeyword (query : Text) : Option String :=
  match maskNonExecutable query with
  | none => some "UNTERMINATED_LITERAL"
  | some executable =>
      let upper := toAsciiUppercase executable
      match forbiddenCypherKeywords.find? fun kw => containsKeywordToken upper kw.toList with
      | some kw => some kw
      | none => if carriesUnlistedProcedure upper then some "CALL" else none

/-- The query has executable text after a `;`. -/
def isMultiStatement (cls : CharClass) (query : Text) : Bool :=
  match maskNonExecutable query with
  | none => true
  | some executable =>
      match breakOn [';'] executable with
      | some (_, rest) => !rest.all cls.isWhitespace
      | none => false

/-! ## Clauses -/

def hasLimitClause (query : Text) : Bool :=
  let executable := (maskNonExecutable query).getD []
  !(keywordTokenPositions (toAsciiLowercase executable) "limit".toList .sigilOrAlias).isEmpty

/-- `ORDER` followed by whitespace and the word `BY`. -/
def hasOrderByClause (query : Text) : Bool :=
  let lower := toAsciiLowercase ((maskNonExecutable query).getD [])
  let bytes := utf8 lower
  (keywordTokenPositions lower "order".toList .sigilOrAlias).any fun start =>
    let rest := bytes.drop (start + 5)
    let by' := rest.dropWhile isSeparator
    rest.head?.any isSeparator && (utf8 "by".toList).isPrefixOf by' &&
      !((by'.drop 2).head?.any isIdentChar)

/-- `query` up to its last executable byte, one statement terminator left
off. The cut is found in the mask; a cut inside a character would keep the
whole query. -/
def executablePrefix (query : Text) : Text :=
  match maskNonExecutable query with
  | none => query
  | some masked =>
      let kept := (utf8 masked).reverse.dropWhile isSeparator
      let kept := if kept.head? = some ';'.toUInt8 then kept.tail else kept
      (fromUtf8 ((utf8 query).take kept.length)).getD query

/-- The clause the gate appends, on a line of its own. -/
def limitClause (limit : ℕ) : Text := "\nLIMIT ".toList ++ Nat.toDigits 10 limit

/-- The query with a `LIMIT` when it declares none, and whether one was
added. -/
def injectLimitIfAbsent (query : Text) (limit : ℕ) : Text × Bool :=
  if hasLimitClause query then (query, false)
  else (executablePrefix query ++ limitClause limit, true)

end Cypher

end CodeGraph
