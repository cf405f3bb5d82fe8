import CodeGraph.Lib.CharBoundary

/-!
# The lexer behind the macro mask

Tokens of C++ source as byte ranges. Comments, literals and preprocessor lines are
skipped or taken whole, so a token that is read as text is an identifier or a
preprocessor line, and both lie between character boundaries (`GoodTok`); a byte of any
other character is a token of its own.
-/

namespace CodeGraph

open List

namespace CppMacroMask

open Percent CharBoundary

def byte (c : Char) : UInt8 := c.toUInt8

inductive Tok
  | ident
  | punct (c : UInt8)
  | scope
  | arrow
  | directive
  | other
  deriving DecidableEq

structure Lexed where
  tok : Tok
  start : ℕ
  stop : ℕ
  deriving DecidableEq

/-! ## Runs of bytes -/

def runEndFrom (keep : UInt8 → Bool) : List UInt8 → ℕ → ℕ
  | [], i => i
  | c :: rest, i => if keep c then runEndFrom keep rest (i + 1) else i

/-- The end of the run of bytes from `i` on that satisfy `keep`. -/
def runEnd (b : List UInt8) (i : ℕ) (keep : UInt8 → Bool) : ℕ := runEndFrom keep (b.drop i) i

def blockCommentEndFrom : List UInt8 → ℕ → ℕ
  | [], i => i
  | c :: rest, i =>
      if c = byte '*' ∧ rest.head? = some (byte '/') then i else blockCommentEndFrom rest (i + 1)

/-- The end of the block comment that opens at `i`. -/
def blockCommentEnd (b : List UInt8) (i : ℕ) : ℕ :=
  min (blockCommentEndFrom (b.drop (i + 2)) (i + 2) + 2) b.length

def directiveEndFrom : List UInt8 → ℕ → ℕ
  | [], i => i
  | [c], i => if c = byte '\n' then i else i + 1
  | c :: d :: rest, i =>
      if c = byte '\n' then i
      -- a backslash before the end of the line continues it
      else if c = byte '\\' ∧ d = byte '\n' then directiveEndFrom rest (i + 2)
      else directiveEndFrom (d :: rest) (i + 1)

/-- The end of the preprocessor line that starts at `i`. -/
def directiveEnd (b : List UInt8) (i : ℕ) : ℕ := directiveEndFrom (b.drop i) i

def quotedEndFrom (quote : UInt8) : List UInt8 → ℕ → ℕ
  | [], i => i
  | [c], i =>
      if c = quote ∨ c = byte '\n' then i else if c = byte '\\' then i + 2 else i + 1
  | c :: d :: rest, i =>
      if c = quote ∨ c = byte '\n' then i
      else if c = byte '\\' then quotedEndFrom quote rest (i + 2)
      else quotedEndFrom quote (d :: rest) (i + 1)

/-- The end of the literal that opens at `i`. -/
def quotedEnd (b : List UInt8) (i : ℕ) : Option ℕ := do
  let quote ← b[i]?
  some (min (quotedEndFrom quote (b.drop (i + 1)) (i + 1) + 1) b.length)

/-! ## The lexer -/

def isAsciiUppercase (c : UInt8) : Bool := byte 'A' ≤ c && c ≤ byte 'Z'

def isAsciiAlphabetic (c : UInt8) : Bool := isAsciiUppercase c || byte 'a' ≤ c && c ≤ byte 'z'

def isAsciiDigit (c : UInt8) : Bool := byte '0' ≤ c && c ≤ byte '9'

/-- Letters, digits and `_`. -/
def isWordByte (c : UInt8) : Bool := isAsciiAlphabetic c || isAsciiDigit c || c = byte '_'

/-- One turn of the loop: where it goes on, whether only blanks precede on the line, and
the token it takes. -/
structure Turn where
  next : ℕ
  lineStart : Bool
  token : Option Lexed

def skipTo (next : ℕ) (lineStart : Bool) : Turn := ⟨next, lineStart, none⟩

def take (tok : Tok) (i stop : ℕ) : Turn := ⟨stop, false, some ⟨tok, i, stop⟩⟩

/-- `none` where an index is out of range. -/
def turn (b : List UInt8) (i : ℕ) (lineStart : Bool) : Option Turn := do
  let c ← b[i]?
  if c = byte '\n' then some (skipTo (i + 1) true)
  else if c = byte ' ' ∨ c = byte '\t' ∨ c = byte '\r' then some (skipTo (i + 1) lineStart)
  else if c = byte '/' ∧ b[i + 1]? = some (byte '/') then
    some (skipTo (runEnd b i (· ≠ byte '\n')) lineStart)
  else if c = byte '/' ∧ b[i + 1]? = some (byte '*') then
    some (skipTo (blockCommentEnd b i) lineStart)
  else if c = byte '#' ∧ lineStart then some (take .directive i (directiveEnd b i))
  else if c = byte '"' ∨ c = byte '\'' then (quotedEnd b i).map (take .other i)
  else if isAsciiAlphabetic c ∨ c = byte '_' then some (take .ident i (runEnd b i isWordByte))
  else if isAsciiDigit c then
    some (take .other i (runEnd b i fun x => isWordByte x || x = byte '.'))
  else if c = byte ':' ∧ b[i + 1]? = some (byte ':') then some (take .scope i (i + 2))
  else if c = byte '-' ∧ b[i + 1]? = some (byte '>') then some (take .arrow i (i + 2))
  else some (take (.punct c) i (i + 1))

/-- The loop; `none` for an index out of range or when it does not end in time. -/
def lexFrom (b : List UInt8) : (fuel : ℕ) → (i : ℕ) → (lineStart : Bool) → Option (List Lexed)
  | fuel, i, lineStart =>
      if b.length ≤ i then some []
      else
        match fuel with
        | 0 => none
        | fuel + 1 => do
            let t ← turn b i lineStart
            let rest ← lexFrom b fuel t.next t.lineStart
            some (t.token.toList ++ rest)

/-- Each turn takes a byte or more. -/
def lex (b : List UInt8) : Option (List Lexed) := lexFrom b b.length 0 true

/-! ## Where the runs end -/

theorem runEndFrom_spec (keep : UInt8 → Bool) (rest : List UInt8) (i : ℕ) :
    i ≤ runEndFrom keep rest i ∧ runEndFrom keep rest i ≤ i + rest.length ∧
      ∀ k, i + k < runEndFrom keep rest i → ∃ c, rest[k]? = some c ∧ keep c = true := by
  induction rest generalizing i with
  | nil => exact ⟨le_rfl, le_rfl, fun k hk => absurd hk (by rw [runEndFrom]; omega)⟩
  | cons c rest ih =>
      rw [runEndFrom, length_cons]
      split
      next hkeep =>
        obtain ⟨hle, hlen, hkeeps⟩ := ih (i + 1)
        refine ⟨by omega, by omega, fun k hk => ?_⟩
        cases k with
        | zero => exact ⟨c, rfl, hkeep⟩
        | succ k => exact hkeeps k (by omega)
      next => exact ⟨le_rfl, by omega, fun k hk => absurd hk (by omega)⟩

theorem runEnd_le (b : List UInt8) {i : ℕ} (hi : i ≤ b.length) (keep : UInt8 → Bool) :
    runEnd b i keep ≤ b.length := by
  have hle := (runEndFrom_spec keep (b.drop i) i).2.1
  rw [length_drop] at hle
  rw [runEnd]
  omega

theorem runEnd_keeps (b : List UInt8) {i j : ℕ} {keep : UInt8 → Bool} (hij : i ≤ j)
    (hj : j < runEnd b i keep) : ∃ c, b[j]? = some c ∧ keep c = true := by
  obtain ⟨k, rfl⟩ := Nat.exists_eq_add_of_le hij
  obtain ⟨c, hc, hkeep⟩ := (runEndFrom_spec keep (b.drop i) i).2.2 k hj
  rw [getElem?_drop] at hc
  exact ⟨c, hc, hkeep⟩

theorem lt_runEnd {b : List UInt8} {i : ℕ} {c : UInt8} {keep : UInt8 → Bool}
    (hc : b[i]? = some c) (hkeep : keep c = true) : i < runEnd b i keep := by
  obtain ⟨hi, rfl⟩ := List.getElem?_eq_some_iff.mp hc
  rw [runEnd, List.drop_eq_getElem_cons hi, runEndFrom, if_pos hkeep]
  exact (runEndFrom_spec keep _ (i + 1)).1

theorem le_blockCommentEndFrom (rest : List UInt8) (i : ℕ) : i ≤ blockCommentEndFrom rest i := by
  induction rest generalizing i with
  | nil => exact le_rfl
  | cons c rest ih =>
      rw [blockCommentEndFrom]
      split
      · exact le_rfl
      · exact Nat.le_trans (Nat.le_succ i) (ih (i + 1))

/-- The index counted from further on. -/
theorem getElem?_sub_add {b : List UInt8} {i k stop : ℕ} {c : UInt8} (hle : i + k ≤ stop)
    (h : b[stop - (i + k)]? = some c) (front : List UInt8) (hfront : front.length = k) :
    (front ++ b)[stop - i]? = some c := by
  rw [getElem?_append_right (by omega), hfront, ← h]
  congr 1
  omega

theorem directiveEndFrom_spec : ∀ (rest : List UInt8) (i : ℕ),
    i ≤ directiveEndFrom rest i ∧ (directiveEndFrom rest i = i + rest.length ∨
      rest[directiveEndFrom rest i - i]? = some (byte '\n'))
  | [], i => ⟨le_rfl, .inl rfl⟩
  | [c], i => by
      rw [directiveEndFrom]
      split
      next h => exact ⟨le_rfl, .inr (by rw [Nat.sub_self, h]; rfl)⟩
      next => exact ⟨Nat.le_succ i, .inl rfl⟩
  | c :: d :: rest, i => by
      rw [directiveEndFrom]
      split
      next h => exact ⟨le_rfl, .inr (by rw [Nat.sub_self, h]; rfl)⟩
      next =>
        split
        next =>
          obtain ⟨hle, hend⟩ := directiveEndFrom_spec rest (i + 2)
          refine ⟨by omega, hend.imp (fun h => ?_) fun h => ?_⟩
          · rw [h, length_cons, length_cons]
            omega
          · exact getElem?_sub_add hle h [c, d] rfl
        next =>
          obtain ⟨hle, hend⟩ := directiveEndFrom_spec (d :: rest) (i + 1)
          refine ⟨by omega, hend.imp (fun h => ?_) fun h => ?_⟩
          · rw [h, length_cons, length_cons, length_cons]
            omega
          · exact getElem?_sub_add hle h [c] rfl

theorem quotedEndFrom_spec (quote : UInt8) : ∀ (rest : List UInt8) (i : ℕ),
    i ≤ quotedEndFrom quote rest i ∧ (i + rest.length ≤ quotedEndFrom quote rest i ∨
      ∃ c, rest[quotedEndFrom quote rest i - i]? = some c ∧ (c = quote ∨ c = byte '\n'))
  | [], i => ⟨le_rfl, .inl le_rfl⟩
  | [c], i => by
      rw [quotedEndFrom]
      split
      next h => exact ⟨le_rfl, .inr ⟨c, by rw [Nat.sub_self]; rfl, h⟩⟩
      next =>
        rw [length_singleton]
        split
        · exact ⟨by omega, .inl (by omega)⟩
        · exact ⟨by omega, .inl le_rfl⟩
  | c :: d :: rest, i => by
      rw [quotedEndFrom]
      split
      next h => exact ⟨le_rfl, .inr ⟨c, by rw [Nat.sub_self]; rfl, h⟩⟩
      next =>
        split
        next =>
          obtain ⟨hle, hend⟩ := quotedEndFrom_spec quote rest (i + 2)
          refine ⟨by omega, hend.imp (fun h => ?_) fun ⟨e, he, hstop⟩ => ?_⟩
          · rw [length_cons, length_cons]
            omega
          · exact ⟨e, getElem?_sub_add hle he [c, d] rfl, hstop⟩
        next =>
          obtain ⟨hle, hend⟩ := quotedEndFrom_spec quote (d :: rest) (i + 1)
          refine ⟨by omega, hend.imp (fun h => ?_) fun ⟨e, he, hstop⟩ => ?_⟩
          · rw [length_cons]
            omega
          · exact ⟨e, getElem?_sub_add hle he [c] rfl, hstop⟩

/-! ## One turn -/

/-- What is read as text lies between character boundaries, a byte of a non-ASCII
character is a token of its own, and an identifier holds no end of a line. -/
structure GoodTok (b : List UInt8) (t : Lexed) : Prop where
  lt : t.start < t.stop
  le : t.stop ≤ b.length
  aligned : (IsBoundary b t.start ∧ IsBoundary b t.stop) ∨
    ∃ c, 0x80 ≤ c ∧ t.tok = .punct c ∧ t.stop = t.start + 1
  word : t.tok = .ident → ∀ j, t.start ≤ j → j < t.stop → b[j]? ≠ some (byte '\n')
  hash : t.tok = .directive → IsBoundary b (t.start + 1)

/-- A turn goes on further right, and its token is what it passed. -/
structure GoodTurn (b : List UInt8) (i : ℕ) (t : Turn) : Prop where
  lt : i < t.next
  le : t.next ≤ b.length
  token : ∀ x ∈ t.token, x.start = i ∧ x.stop = t.next ∧ GoodTok b x

theorem isWordByte_ascii {c : UInt8} (h : isWordByte c = true) : c < 0x80 ∧ c ≠ byte '\n' := by
  have hc : c.toNat < 256 := c.toNat_lt
  have hall : ∀ n < 256, isWordByte (UInt8.ofNat n) = true →
      UInt8.ofNat n < 0x80 ∧ UInt8.ofNat n ≠ byte '\n' := by decide +kernel
  rw [← UInt8.ofNat_toNat (x := c)] at h ⊢
  exact hall _ hc h

section Turns

variable {text : List Char} {i : ℕ}

theorem goodTurn_skip {next : ℕ} (lineStart : Bool) (hlt : i < next)
    (hle : next ≤ (utf8 text).length) : GoodTurn (utf8 text) i (skipTo next lineStart) :=
  ⟨hlt, hle, nofun⟩

/-- A token of ASCII bytes at both ends. -/
theorem goodTurn_take {tok : Tok} {c : UInt8} {stop : ℕ} (hc : (utf8 text)[i]? = some c)
    (hascii : c < 0x80) (hlt : i < stop) (hstop : IsBoundary (utf8 text) stop)
    (hword : tok = .ident → ∀ j, i ≤ j → j < stop → (utf8 text)[j]? ≠ some (byte '\n')) :
    GoodTurn (utf8 text) i (take tok i stop) := by
  obtain ⟨hstart, hnext⟩ := isBoundary_ascii hc hascii
  refine ⟨hlt, hstop.le, fun x hx => ?_⟩
  obtain rfl := Option.some.inj hx
  exact ⟨rfl, rfl, hlt, hstop.le, .inl ⟨hstart, hstop⟩, hword, fun _ => hnext⟩

theorem isBoundary_runEnd {c : UInt8} {keep : UInt8 → Bool} (hc : (utf8 text)[i]? = some c)
    (hkeep : keep c = true) (hascii : ∀ d, keep d = true → d < 0x80) :
    IsBoundary (utf8 text) (runEnd (utf8 text) i keep) := by
  have hlt := lt_runEnd hc hkeep
  have hlast : runEnd (utf8 text) i keep - 1 < runEnd (utf8 text) i keep := by omega
  obtain ⟨d, hd, hkeepd⟩ := runEnd_keeps (utf8 text) (Nat.le_sub_one_of_lt hlt) hlast
  have hstop := (isBoundary_ascii hd (hascii d hkeepd)).2
  rwa [Nat.sub_add_cancel (by omega)] at hstop

theorem isBoundary_directiveEnd (h : i ≤ (utf8 text).length) :
    IsBoundary (utf8 text) (directiveEnd (utf8 text) i) := by
  obtain ⟨hle, hend⟩ := directiveEndFrom_spec ((utf8 text).drop i) i
  rcases hend with hend | hend
  · rw [directiveEnd, hend, length_drop, Nat.add_sub_cancel' h]
    exact isBoundary_length _
  · rw [getElem?_drop, Nat.add_sub_cancel' hle] at hend
    exact (isBoundary_ascii hend (by decide)).1

theorem lt_directiveEnd (hc : (utf8 text)[i]? = some (byte '#')) :
    i < directiveEnd (utf8 text) i := by
  obtain ⟨hi, hget⟩ := List.getElem?_eq_some_iff.mp hc
  rw [directiveEnd, List.drop_eq_getElem_cons hi, hget]
  have hne : byte '#' ≠ byte '\n' := by decide
  cases hrest : (utf8 text).drop (i + 1) with
  | nil =>
      rw [directiveEndFrom, if_neg hne]
      exact Nat.lt_succ_self i
  | cons d rest =>
      rw [directiveEndFrom, if_neg hne]
      split
      · exact Nat.lt_of_lt_of_le (by omega) (directiveEndFrom_spec rest (i + 2)).1
      · exact (directiveEndFrom_spec (d :: rest) (i + 1)).1

theorem quotedEnd_spec {quote : UInt8} (hquote : (utf8 text)[i]? = some quote)
    (hascii : quote < 0x80) : ∃ stop, quotedEnd (utf8 text) i = some stop ∧ i < stop ∧
      IsBoundary (utf8 text) stop := by
  have hi := (List.getElem?_eq_some_iff.mp hquote).1
  obtain ⟨hle, hend⟩ := quotedEndFrom_spec quote ((utf8 text).drop (i + 1)) (i + 1)
  refine ⟨_, by rw [quotedEnd, hquote]; rfl, by omega, ?_⟩
  rcases hend with hend | ⟨c, hc, hstop⟩
  · rw [length_drop] at hend
    rw [Nat.min_eq_right (by omega)]
    exact isBoundary_length _
  · rw [List.getElem?_drop, Nat.add_sub_cancel' hle] at hc
    have hlt := (List.getElem?_eq_some_iff.mp hc).1
    rw [Nat.min_eq_left (by omega)]
    refine (isBoundary_ascii hc ?_).2
    rcases hstop with rfl | rfl
    · exact hascii
    · decide

theorem goodTurn_pair {tok : Tok} {c d : UInt8} (hc : (utf8 text)[i]? = some c)
    (hd : (utf8 text)[i + 1]? = some d) (hascii : c < 0x80) (hascii' : d < 0x80)
    (htok : tok ≠ .ident) : GoodTurn (utf8 text) i (take tok i (i + 2)) :=
  goodTurn_take hc hascii (by omega) (isBoundary_ascii hd hascii').2 fun h => absurd h htok

theorem goodTurn_punct {c : UInt8} (hc : (utf8 text)[i]? = some c) :
    GoodTurn (utf8 text) i (take (.punct c) i (i + 1)) := by
  have hi := (List.getElem?_eq_some_iff.mp hc).1
  by_cases hascii : c < 0x80
  · exact goodTurn_take hc hascii (Nat.lt_succ_self i) (isBoundary_ascii hc hascii).2 nofun
  · refine ⟨Nat.lt_succ_self i, hi, fun x hx => ?_⟩
    obtain rfl := Option.some.inj hx
    exact ⟨rfl, rfl, Nat.lt_succ_self i, hi, .inr ⟨c, UInt8.not_lt.mp hascii, rfl, rfl⟩, nofun, nofun⟩

theorem turn_spec (hi : i < (utf8 text).length) (lineStart : Bool) :
    ∃ t, turn (utf8 text) i lineStart = some t ∧ GoodTurn (utf8 text) i t := by
  have hc : (utf8 text)[i]? = some (utf8 text)[i] := getElem?_eq_getElem hi
  generalize (utf8 text)[i] = c at hc
  simp only [turn, hc, Option.bind_eq_bind, Option.bind_some]
  by_cases hnewline : c = byte '\n'
  · rw [if_pos hnewline]
    exact ⟨_, rfl, goodTurn_skip _ (Nat.lt_succ_self i) hi⟩
  rw [if_neg hnewline]
  by_cases hblank : c = byte ' ' ∨ c = byte '\t' ∨ c = byte '\r'
  · rw [if_pos hblank]
    exact ⟨_, rfl, goodTurn_skip _ (Nat.lt_succ_self i) hi⟩
  rw [if_neg hblank]
  by_cases hline : c = byte '/' ∧ (utf8 text)[i + 1]? = some (byte '/')
  · rw [if_pos hline]
    refine ⟨_, rfl, goodTurn_skip _ (lt_runEnd hc ?_) (runEnd_le _ (Nat.le_of_lt hi) _)⟩
    exact decide_eq_true hnewline
  rw [if_neg hline]
  by_cases hblock : c = byte '/' ∧ (utf8 text)[i + 1]? = some (byte '*')
  · rw [if_pos hblock]
    have hle := le_blockCommentEndFrom ((utf8 text).drop (i + 2)) (i + 2)
    refine ⟨_, rfl, goodTurn_skip _ ?_ (Nat.min_le_right _ _)⟩
    rw [blockCommentEnd]
    omega
  rw [if_neg hblock]
  by_cases hhash : c = byte '#' ∧ lineStart = true
  · rw [if_pos hhash]
    obtain rfl := hhash.1
    exact ⟨_, rfl, goodTurn_take hc (by decide) (lt_directiveEnd hc)
      (isBoundary_directiveEnd (Nat.le_of_lt hi)) nofun⟩
  rw [if_neg hhash]
  by_cases hquote : c = byte '"' ∨ c = byte '\''
  · rw [if_pos hquote]
    have hascii : c < 0x80 := by rcases hquote with rfl | rfl <;> decide
    obtain ⟨stop, hstop, hlt, hbound⟩ := quotedEnd_spec hc hascii
    exact ⟨take .other i stop, by rw [hstop]; rfl, goodTurn_take hc hascii hlt hbound nofun⟩
  rw [if_neg hquote]
  by_cases hword : isAsciiAlphabetic c ∨ c = byte '_'
  · rw [if_pos hword]
    have hkeep : isWordByte c = true := by
      rw [isWordByte, Bool.or_eq_true, Bool.or_eq_true, decide_eq_true_iff]
      exact hword.imp_left .inl
    refine ⟨_, rfl, goodTurn_take hc (isWordByte_ascii hkeep).1 (lt_runEnd hc hkeep)
      (isBoundary_runEnd hc hkeep fun d hd => (isWordByte_ascii hd).1) fun _ j hij hj => ?_⟩
    obtain ⟨d, hd, hkeepd⟩ := runEnd_keeps _ hij hj
    rw [hd]
    exact fun h => (isWordByte_ascii hkeepd).2 (Option.some.inj h)
  rw [if_neg hword]
  by_cases hdigit : isAsciiDigit c = true
  · rw [if_pos hdigit]
    have hascii : ∀ d, (isWordByte d || decide (d = byte '.')) = true → d < 0x80 := by
      intro d hd
      rcases Bool.or_eq_true _ _ ▸ hd with hd | hd
      · exact (isWordByte_ascii hd).1
      · rw [of_decide_eq_true hd]
        decide
    have hkeep : (isWordByte c || decide (c = byte '.')) = true := by
      rw [isWordByte, hdigit, Bool.or_true, Bool.true_or, Bool.true_or]
    exact ⟨_, rfl, goodTurn_take hc (hascii c hkeep) (lt_runEnd hc hkeep)
      (isBoundary_runEnd hc hkeep hascii) nofun⟩
  rw [if_neg hdigit]
  by_cases hscope : c = byte ':' ∧ (utf8 text)[i + 1]? = some (byte ':')
  · rw [if_pos hscope]
    obtain ⟨rfl, hnext⟩ := hscope
    exact ⟨_, rfl, goodTurn_pair hc hnext (by decide) (by decide) nofun⟩
  rw [if_neg hscope]
  by_cases harrow : c = byte '-' ∧ (utf8 text)[i + 1]? = some (byte '>')
  · rw [if_pos harrow]
    obtain ⟨rfl, hnext⟩ := harrow
    exact ⟨_, rfl, goodTurn_pair hc hnext (by decide) (by decide) nofun⟩
  rw [if_neg harrow]
  exact ⟨_, rfl, goodTurn_punct hc⟩

end Turns

/-! ## The run -/

/-- The tokens of a text, from left to right. -/
structure Tokens (b : List UInt8) (toks : List Lexed) : Prop where
  good : ∀ t ∈ toks, GoodTok b t
  ordered : toks.Pairwise fun s t => s.stop ≤ t.start

theorem lexFrom_spec (text : List Char) : ∀ (fuel i : ℕ) (lineStart : Bool),
    (utf8 text).length ≤ i + fuel → ∃ toks, lexFrom (utf8 text) fuel i lineStart = some toks ∧
      Tokens (utf8 text) toks ∧ ∀ t ∈ toks, i ≤ t.start := by
  intro fuel
  induction fuel with
  | zero =>
      intro i lineStart hfuel
      refine ⟨[], ?_, ⟨nofun, .nil⟩, nofun⟩
      rw [lexFrom, if_pos (by omega)]
  | succ fuel ih =>
      intro i lineStart hfuel
      rw [lexFrom]
      split
      next => exact ⟨[], rfl, ⟨nofun, .nil⟩, nofun⟩
      next hi =>
        obtain ⟨t, ht, hgood⟩ := turn_spec (Nat.not_le.mp hi) lineStart
        obtain ⟨rest, hrest, htokens, hright⟩ := ih t.next t.lineStart (by have := hgood.lt; omega)
        refine ⟨t.token.toList ++ rest, ?_, ?_⟩
        · simp only [ht, hrest, Option.bind_eq_bind, Option.bind_some]
        cases htoken : t.token with
        | none =>
            refine ⟨htokens, fun x hx => ?_⟩
            have := hright x hx
            have := hgood.lt
            omega
        | some x =>
            obtain ⟨hstart, hstop, hx⟩ := hgood.token x htoken
            refine ⟨⟨?_, ?_⟩, ?_⟩
            · exact forall_mem_cons.mpr ⟨hx, htokens.good⟩
            · refine pairwise_cons.mpr ⟨fun y hy => ?_, htokens.ordered⟩
              exact hstop ▸ hright y hy
            · refine forall_mem_cons.mpr ⟨Nat.le_of_eq hstart.symm, fun y hy => ?_⟩
              have := hright y hy
              have := hgood.lt
              omega

/-- The lexer ends on every text, with its tokens in range. -/
theorem lex_spec (text : List Char) :
    ∃ toks, lex (utf8 text) = some toks ∧ Tokens (utf8 text) toks := by
  obtain ⟨toks, hlex, htokens, -⟩ :=
    lexFrom_spec text (utf8 text).length 0 true (by omega)
  exact ⟨toks, hlex, htokens⟩

end CppMacroMask

end CodeGraph
