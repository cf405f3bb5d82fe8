import CodeGraph.CppLexer
import CodeGraph.Text
import Mathlib.Data.List.Forall2

/-!
# Masking the macros of C++

The rewrites of a C++ text that are worth a second parse: specifier macros blanked,
macro statements at declaration level blanked, conditionals that cut a declaration
collapsed. Each names byte ranges and overwrites them with blanks, so a rewrite has the
length and the lines of the text it was made from (`Masks`).
-/

namespace CodeGraph

open Option List

namespace CppMacroMask

open Percent CharBoundary

abbrev Range := ℕ × ℕ

/-- The text of a token, `none` where the slice panics. -/
def wordOf (b : List UInt8) (t : Lexed) : Option (List UInt8) := slice b t.start t.stop

def ascii (s : String) : List UInt8 := utf8 s.toList

def isWordAmong (b : List UInt8) (words : List (List UInt8)) (t : Lexed) : Option Bool :=
  if t.tok = .ident then (wordOf b t).map (· ∈ words) else some false

/-- Upper case, digits and `_`, at least one `_`. -/
def macroStyle (word : List UInt8) : Bool :=
  3 ≤ word.length && word.contains (byte '_') && word.head?.any isAsciiUppercase &&
    word.all fun c => isAsciiUppercase c || isAsciiDigit c || c = byte '_'

def isMacro (b : List UInt8) (t : Lexed) : Option Bool :=
  if t.tok = .ident then (wordOf b t).map macroStyle else some false

/-! ## Specifier macros -/

def specifiers : List (List UInt8) :=
  ["static", "inline", "constexpr", "virtual", "explicit", "friend", "extern", "const"].map ascii

def statementKeywords : List (List UInt8) :=
  ["return", "throw", "goto", "break", "continue", "if", "for", "while", "do", "switch",
    "co_return", "co_yield"].map ascii

def puncts (cs : List Char) : List Tok := cs.map fun c => .punct (byte c)

/-- A token behind `prev` starts or continues the head of a declaration. -/
def opensDeclaration (b : List UInt8) : Option Lexed → Option Bool
  | none => some true
  | some prev =>
      if prev.tok = .directive ∨ prev.tok ∈ puncts [';', '{', '}', '>', ':'] then some true
      else isWordAmong b specifiers prev

/-- Whether the token is a specifier to mask, between `prev` and `rest`. -/
def isSpecifier (b : List UInt8) (prev : Option Lexed) (lastWasMasked : Bool) (t : Lexed)
    (rest : List Lexed) : Option Bool := do
  let next := rest.head?.map Lexed.tok
  if !(← isMacro b t) then some false
  else
    let afterIf ← prev.elim (some false) (isWordAmong b [ascii "if"])
    if next = some (.punct (byte '(')) ∧ !afterIf then some false
    else
      let trailing : Bool :=
        prev.map Lexed.tok = some (.punct (byte ')')) || lastWasMasked || afterIf
      let leading ←
        if (← opensDeclaration b prev) ∧ next = some .ident then do
          let statement ← rest.head?.elim (some false) (isWordAmong b statementKeywords)
          some (!statement && (rest[1]?.map Lexed.tok).any
            (· ∈ [.ident, .scope] ++ puncts ['(', '<', '&', '*']))
        else some false
      some (trailing || leading)

def specifierRangesFrom (b : List UInt8) : (prev : Option Lexed) → (lastWasMasked : Bool) →
    List Lexed → Option (List Range)
  | _, _, [] => some []
  | prev, lastWasMasked, t :: rest => do
      let masked ← isSpecifier b prev lastWasMasked t rest
      let more ← specifierRangesFrom b (some t) masked rest
      some (if masked then (t.start, t.stop) :: more else more)

def specifierRanges (b : List UInt8) : Option (List Range) := do
  specifierRangesFrom b none false (← lex b)

/-! ## Overwriting ranges -/

def overwriteAll (f : UInt8 → UInt8) (b : List UInt8) (ranges : List Range) : Option (List UInt8) :=
  ranges.foldlM (fun b r => overwrite f b r.1 r.2) b

/-- No rewrite without a range; otherwise the bytes, when they are text. -/
def rewriteRanges (f : UInt8 → UInt8) (source : Text) (ranges : List Range) :
    Option (Option Text) :=
  if ranges = [] then some none
  else (overwriteAll f (utf8 source) ranges).map fromUtf8

def fillByte (_ : UInt8) : UInt8 := byte ' '

def blankByte (c : UInt8) : UInt8 := if c ≠ byte '\n' then byte ' ' else c

/-- The text with the macro specifiers blanked; the inner `none` when there is none. -/
def maskSpecifierMacros (source : Text) : Option (Option Text) := do
  rewriteRanges fillByte source (← specifierRanges (utf8 source))

def blankOut (source : Text) (ranges : List Range) : Option (Option Text) :=
  rewriteRanges blankByte source ranges

/-! ## Conditionals -/

/-- One open `#if`: where its branch began, and what is known so far. -/
structure Conditional where
  tokensAtBranchStart : ℕ
  split : Bool
  elseFrom : Option ℕ
  directives : List Range

/-- A branch that ends on `last` ends a whole declaration. -/
def endsADeclaration (last : Option Tok) : Bool :=
  last.all (· ∈ puncts [';', '{', '}', ':'])

/-- The word after the `#`. -/
def directiveWord (cc : CharClass) (b : List UInt8) (t : Lexed) : Option Text :=
  (slice b (t.start + 1) t.stop).map fun line =>
    ((lossy line).dropWhile cc.isWhitespace).takeWhile Char.isAlpha

/-- An `#elif`, `#else` or `#endif` closes the branch of the innermost conditional. -/
def onBranchDirective (stack : List Conditional) (blank : List Range) (word : Text) (t : Lexed)
    (tokens : ℕ) (last : Option Tok) : List Conditional × List Range :=
  match stack with
  | [] => ([], blank)
  | top :: stack =>
      let top : Conditional := {
        tokensAtBranchStart := tokens
        split := top.split || (top.tokensAtBranchStart < tokens && !endsADeclaration last)
        elseFrom := top.elseFrom
        directives := top.directives ++ [(t.start, t.stop)] }
      if word ≠ "endif".toList then
        ({ top with elseFrom := some (top.elseFrom.getD t.start) } :: stack, blank)
      else if top.split then
        (stack, blank ++ top.directives ++ (top.elseFrom.map (·, t.stop)).toList)
      else (stack, blank)

/-- The state of the pass over the tokens. -/
structure Collapse where
  blank : List Range := []
  stack : List Conditional := []
  tokens : ℕ := 0
  last : Option Tok := none

def collapseToken (cc : CharClass) (b : List UInt8) (st : Collapse) (t : Lexed) :
    Option Collapse :=
  if t.tok ≠ .directive then some { st with tokens := st.tokens + 1, last := some t.tok }
  else do
    let word ← directiveWord cc b t
    if word ∈ ["if", "ifdef", "ifndef"].map String.toList then
      some { st with stack := ⟨st.tokens, false, none, [(t.start, t.stop)]⟩ :: st.stack }
    else if word ∈ ["elif", "else", "endif"].map String.toList then
      let (stack, blank) := onBranchDirective st.stack st.blank word t st.tokens st.last
      some { st with stack := stack, blank := blank }
    else some st

def collapseRanges (cc : CharClass) (b : List UInt8) : Option (List Range) := do
  let st ← (← lex b).foldlM (collapseToken cc b) {}
  some st.blank

/-- The first branch of every conditional that cuts a declaration. -/
def collapseConditionals (cc : CharClass) (source : Text) : Option (Option Text) := do
  blankOut source (← collapseRanges cc (utf8 source))

/-! ## Macro statements at declaration level -/

def anyWordAmong (b : List UInt8) (words : List (List UInt8)) : List Lexed → Option Bool
  | [] => some false
  | t :: toks => do if ← isWordAmong b words t then some true else anyWordAmong b words toks

/-- A `{` behind `intro` opens the body of a class, struct, union or namespace. -/
def opensScope (b : List UInt8) (intro : List Lexed) : Option Bool := do
  if intro.any (·.tok = .punct (byte '(')) then some false
  else if ← anyWordAmong b [ascii "enum"] intro then some false
  else anyWordAmong b (["class", "struct", "union", "namespace"].map ascii) intro

def parenClosesFrom : List Lexed → (j : ℕ) → (opened : List ℕ) → (closes : List (Option ℕ)) →
    Option (List (Option ℕ))
  | [], _, _, closes => some closes
  | t :: toks, j, opened, closes =>
      if t.tok = .punct (byte '(') then parenClosesFrom toks (j + 1) (j :: opened) closes
      else if t.tok = .punct (byte ')') then
        match opened with
        | [] => parenClosesFrom toks (j + 1) [] closes
        | o :: opened =>
            if o < closes.length then
              parenClosesFrom toks (j + 1) opened (closes.set o (some j))
            else none
      else parenClosesFrom toks (j + 1) opened closes

/-- For every `(` the index of its `)`; `none` for a `(` never closed and for every other
token. -/
def parenCloses (toks : List Lexed) : Option (List (Option ℕ)) :=
  parenClosesFrom toks 0 [] (List.replicate toks.length none)

/-- `next` ends a macro statement that has no `;`. -/
def endsABareStatement (b : List UInt8) : Option Lexed → Option Bool
  | none => some false
  | some next => if next.tok = .punct (byte '}') then some true else isMacro b next

/-- The index of the last token of the macro statement that starts at `name`. -/
def macroStatementEnd (b : List UInt8) (toks : List Lexed) (closes : List (Option ℕ)) (name : ℕ) :
    Option (Option ℕ) :=
  let next := toks[name + 1]?.map Lexed.tok
  if next ≠ some (.punct (byte '(')) then
    some (if next = some (.punct (byte '}')) then some name else none)
  else
    match closes[name + 1]?.join with
    | none => some none
    | some close => do
        let after := toks[close + 1]?
        if after.map Lexed.tok = some (.punct (byte ';')) then some (some close)
        else some (if ← endsABareStatement b after then some close else none)

/-- The state of the pass: whether each open scope is one of declarations, where the
statement and its head began. -/
structure Scopes where
  scopes : List Bool := []
  statement : ℕ := 0
  head : ℕ := 0
  blank : List Range := []

/-- What the token itself ends and opens. -/
def enterToken (b : List UInt8) (toks : List Lexed) (st : Scopes) (i : ℕ) (tok : Tok) :
    Option Scopes :=
  let restarted : Scopes := { st with statement := i + 1, head := i + 1 }
  if tok = .punct (byte ';') ∨ tok = .directive then some restarted
  else if tok = .punct (byte '}') then some { restarted with scopes := st.scopes.tail }
  else if tok = .punct (byte ':') then some { st with head := i + 1 }
  else if tok = .punct (byte '{') then do
    let opens ← opensScope b ((toks.take i).drop (min st.statement i))
    some { restarted with scopes := opens :: st.scopes }
  else some st

/-- One turn: the state, and the token that the loop goes on with. -/
def scopeTurn (b : List UInt8) (toks : List Lexed) (closes : List (Option ℕ)) (st : Scopes)
    (i : ℕ) : Option (Scopes × ℕ) := do
  let t ← toks[i]?
  let st ← enterToken b toks st i t.tok
  if t.tok = .ident ∧ st.scopes.head?.getD true ∧ st.head = i then
    if ← isMacro b t then
      match ← macroStatementEnd b toks closes i with
      | none => some (st, i + 1)
      | some j => do
          let last ← toks[j]?
          some ({ st with
            blank := st.blank ++ [(t.start, last.stop)]
            statement := j + 1
            head := j + 1 }, j + 1)
    else some (st, i + 1)
  else some (st, i + 1)

/-- The loop; `none` for a panic or when it does not end in time. -/
def scopeRangesFrom (b : List UInt8) (toks : List Lexed) (closes : List (Option ℕ)) :
    (fuel : ℕ) → Scopes → (i : ℕ) → Option (List Range)
  | fuel, st, i =>
      if toks.length ≤ i then some st.blank
      else
        match fuel with
        | 0 => none
        | fuel + 1 => do
            let (st, next) ← scopeTurn b toks closes st i
            scopeRangesFrom b toks closes fuel st next

def scopeRanges (b : List UInt8) : Option (List Range) := do
  let toks ← lex b
  let closes ← parenCloses toks
  scopeRangesFrom b toks closes toks.length {} 0

def blankScopeMacroCalls (source : Text) : Option (Option Text) := do
  blankOut source (← scopeRanges (utf8 source))

/-! ## The rewrites -/

def variantsFrom : List (Text → Option (Option Text)) → (current : Text) → Option (List Text)
  | [], _ => some []
  | step :: steps, current => do
      match ← step current with
      | some next =>
          let more ← variantsFrom steps next
          some (next :: more)
      | none => variantsFrom steps current

/-- The rewrites of a text, least invasive first. -/
def variants (cc : CharClass) (source : Text) : Option (List Text) :=
  variantsFrom [maskSpecifierMacros, blankScopeMacroCalls, collapseConditionals cc] source

/-! ## Only identifiers are read -/

section Reads

variable {b : List UInt8} {t : Lexed}

theorem GoodTok.boundaries (h : GoodTok b t) (htok : ∀ c, 0x80 ≤ c → t.tok ≠ .punct c) :
    IsBoundary b t.start ∧ IsBoundary b t.stop := by
  rcases h.aligned with haligned | ⟨c, hc, hpunct, -⟩
  · exact haligned
  · exact absurd hpunct (htok c hc)

theorem GoodTok.ident (h : GoodTok b t) (htok : t.tok = .ident) :
    IsBoundary b t.start ∧ IsBoundary b t.stop :=
  h.boundaries fun _ _ hpunct => nomatch htok.symm.trans hpunct

theorem GoodTok.wordOf (h : GoodTok b t) (htok : t.tok = .ident) : ∃ w, CppMacroMask.wordOf b t = some w :=
  ⟨_, slice_eq_some (Nat.le_of_lt h.lt) (h.ident htok).1 (h.ident htok).2⟩

theorem isWordAmong_isSome (words : List (List UInt8)) (h : GoodTok b t) :
    ∃ r, isWordAmong b words t = some r := by
  rw [isWordAmong]
  split
  next htok =>
    obtain ⟨w, hw⟩ := h.wordOf htok
    exact ⟨_, by rw [hw]; rfl⟩
  next => exact ⟨false, rfl⟩

theorem isMacro_isSome (h : GoodTok b t) :
    ∃ r, isMacro b t = some r ∧ (r = true → t.tok = .ident) := by
  rw [isMacro]
  split
  next htok =>
    obtain ⟨w, hw⟩ := h.wordOf htok
    exact ⟨_, by rw [hw]; rfl, fun _ => htok⟩
  next => exact ⟨false, rfl, nofun⟩

theorem anyWordAmong_isSome (words : List (List UInt8)) {toks : List Lexed}
    (h : ∀ t ∈ toks, GoodTok b t) : ∃ r, anyWordAmong b words toks = some r := by
  induction toks with
  | nil => exact ⟨false, rfl⟩
  | cons t toks ih =>
      obtain ⟨hit, hhit⟩ := isWordAmong_isSome words (h t mem_cons_self)
      obtain ⟨r, hr⟩ := ih fun x hx => h x (mem_cons_of_mem t hx)
      simp only [anyWordAmong, hhit, bind_eq_bind, bind_some]
      split
      · exact ⟨true, rfl⟩
      · exact ⟨r, hr⟩

end Reads

/-! ## The ranges of the specifiers -/

section Specifiers

variable {b : List UInt8}

theorem opensDeclaration_isSome {prev : Option Lexed} (h : ∀ p ∈ prev, GoodTok b p) :
    ∃ r, opensDeclaration b prev = some r := by
  cases prev with
  | none => exact ⟨true, rfl⟩
  | some p =>
      rw [opensDeclaration]
      split
      · exact ⟨true, rfl⟩
      · exact isWordAmong_isSome _ (h p rfl)

theorem elimWord_isSome (words : List (List UInt8)) {o : Option Lexed} (h : ∀ p ∈ o, GoodTok b p) :
    ∃ r, o.elim (some false) (isWordAmong b words) = some r := by
  cases o with
  | none => exact ⟨false, rfl⟩
  | some p => exact isWordAmong_isSome words (h p rfl)

theorem isSpecifier_isSome {prev : Option Lexed} (lastWasMasked : Bool) {t : Lexed}
    {rest : List Lexed} (hprev : ∀ p ∈ prev, GoodTok b p) (ht : GoodTok b t)
    (hrest : ∀ x ∈ rest, GoodTok b x) :
    ∃ r, isSpecifier b prev lastWasMasked t rest = some r ∧ (r = true → t.tok = .ident) := by
  obtain ⟨style, hstyle, hident⟩ := isMacro_isSome ht
  obtain ⟨afterIf, hafterIf⟩ := elimWord_isSome [ascii "if"] hprev
  obtain ⟨opens, hopens⟩ := opensDeclaration_isSome hprev
  obtain ⟨statement, hstatement⟩ := elimWord_isSome statementKeywords
    fun x (hx : x ∈ rest.head?) => hrest x (mem_of_mem_head? hx)
  simp only [isSpecifier, hstyle, hafterIf, hopens, hstatement, bind_eq_bind,
    bind_some]
  cases style with
  | false => exact ⟨false, rfl, nofun⟩
  | true =>
      rw [if_neg (by decide)]
      split
      · exact ⟨false, rfl, nofun⟩
      · split
        · exact ⟨_, rfl, fun _ => hident rfl⟩
        · exact ⟨_, rfl, fun _ => hident rfl⟩

theorem specifierRangesFrom_spec {toks : List Lexed} : ∀ (prev : Option Lexed)
    (lastWasMasked : Bool), (∀ p ∈ prev, GoodTok b p) → (∀ t ∈ toks, GoodTok b t) →
    ∃ ranges, specifierRangesFrom b prev lastWasMasked toks = some ranges ∧
      ∀ r ∈ ranges, ∃ t ∈ toks, t.tok = .ident ∧ r = (t.start, t.stop) := by
  induction toks with
  | nil => exact fun _ _ _ _ => ⟨[], rfl, nofun⟩
  | cons t toks ih =>
      intro prev lastWasMasked hprev htoks
      have ht := htoks t mem_cons_self
      have hrest : ∀ x ∈ toks, GoodTok b x := fun x hx => htoks x (mem_cons_of_mem t hx)
      obtain ⟨masked, hmasked, hident⟩ := isSpecifier_isSome lastWasMasked hprev ht hrest
      obtain ⟨more, hmore, hranges⟩ := ih (some t) masked
        (fun p hp => Option.some.inj hp ▸ ht) hrest
      refine ⟨if masked then (t.start, t.stop) :: more else more, ?_, ?_⟩
      · simp only [specifierRangesFrom, hmasked, hmore, bind_eq_bind, bind_some]
      have hlater : ∀ r ∈ more, ∃ x ∈ t :: toks, x.tok = .ident ∧ r = (x.start, x.stop) := by
        intro r hr
        obtain ⟨x, hx, hident, rfl⟩ := hranges r hr
        exact ⟨x, mem_cons_of_mem t hx, hident, rfl⟩
      cases masked with
      | false => exact hlater
      | true =>
          exact forall_mem_cons.mpr ⟨⟨t, mem_cons_self, hident rfl, rfl⟩, hlater⟩

end Specifiers

/-! ## What overwriting leaves -/

/-- Bytes that became blanks, none of them the end of a line. -/
def Blanked (b b' : List UInt8) : Prop :=
  List.Forall₂ (fun c d => d = c ∨ d = byte ' ' ∧ c ≠ byte '\n') b b'

/-- A range of whole characters. -/
structure GoodRange (b : List UInt8) (r : Range) : Prop where
  le : r.1 ≤ r.2
  start : IsBoundary b r.1
  stop : IsBoundary b r.2

/-- On the range `f` blanks bytes or leaves them, and leaves the end of a line. -/
def Blanks (f : UInt8 → UInt8) (b : List UInt8) (r : Range) : Prop :=
  ∀ j c, r.1 ≤ j → j < r.2 → b[j]? = some c → f c = c ∨ f c = byte ' ' ∧ c ≠ byte '\n'

theorem Blanked.refl (b : List UInt8) : Blanked b b :=
  List.forall₂_same.mpr fun _ _ => .inl rfl

variable {b' : List UInt8}

theorem Blanked.trans {b b'' : List UInt8} (h : Blanked b b') (h' : Blanked b' b'') :
    Blanked b b'' := by
  have hlength := h.length_eq.trans h'.length_eq
  refine List.forall₂_iff_get.mpr ⟨hlength, fun i hi hi'' => ?_⟩
  have hi' : i < b'.length := h.length_eq ▸ hi
  have hcd := (List.forall₂_iff_get.mp h).2 i hi hi'
  rcases (List.forall₂_iff_get.mp h').2 i hi' hi'' with heq | ⟨heq, hd⟩
  · rw [heq]
    exact hcd
  · rcases hcd with hsame | ⟨-, hc⟩
    · exact .inr ⟨heq, hsame ▸ hd⟩
    · exact .inr ⟨heq, hc⟩

theorem Blanked.getElem? {b : List UInt8} (h : Blanked b b') (i : ℕ) :
    (b[i]? = none ∧ b'[i]? = none) ∨ ∃ c d, b[i]? = some c ∧ b'[i]? = some d ∧
      (d = c ∨ d = byte ' ' ∧ c ≠ byte '\n') := by
  rcases Nat.lt_or_ge i b.length with hi | hi
  · have hi' : i < b'.length := h.length_eq ▸ hi
    refine .inr ⟨b[i], b'[i], getElem?_eq_getElem hi, getElem?_eq_getElem hi', ?_⟩
    exact (List.forall₂_iff_get.mp h).2 i hi hi'
  · exact .inl ⟨getElem?_eq_none hi, getElem?_eq_none (h.length_eq ▸ hi)⟩

theorem Blanked.isBoundary {b : List UInt8} (h : Blanked b b') {i : ℕ}
    (hi : IsBoundary b i) : IsBoundary b' i := by
  rcases h.getElem? i with ⟨hnone, hnone'⟩ | ⟨c, d, hc, hd, hcd⟩
  · rw [IsBoundary, hnone] at hi
    rw [IsBoundary, hnone', ← h.length_eq]
    exact hi
  · rw [IsBoundary, hc] at hi
    refine isBoundary_of_getElem? hd ?_
    rcases hcd with rfl | ⟨rfl, -⟩
    · exact hi
    · decide

variable {r : Range}

theorem Blanked.goodRange {b : List UInt8} (h : Blanked b b')
    (hr : GoodRange b r) : GoodRange b' r :=
  ⟨hr.le, h.isBoundary hr.start, h.isBoundary hr.stop⟩

variable {f : UInt8 → UInt8}

theorem Blanked.blanks {b : List UInt8} (h : Blanked b b')
    (hspace : f (byte ' ') = byte ' ') (hr : Blanks f b r) : Blanks f b' r := by
  intro j d hstart hstop hd
  rcases h.getElem? j with ⟨-, hnone⟩ | ⟨c, d', hc, hd', hcd⟩
  · cases hnone.symm.trans hd
  · obtain rfl := Option.some.inj (hd'.symm.trans hd)
    rcases hcd with rfl | ⟨rfl, -⟩
    · exact hr j _ hstart hstop hc
    · exact .inl hspace

theorem blanked_map {l : List UInt8}
    (h : ∀ c ∈ l, f c = c ∨ f c = byte ' ' ∧ c ≠ byte '\n') : Blanked l (l.map f) := by
  rw [Blanked, List.forall₂_map_right_iff, List.forall₂_same]
  exact h

theorem overwrite_spec {b : List UInt8} (hr : GoodRange b r)
    (hf : Blanks f b r) : ∃ b', overwrite f b r.1 r.2 = some b' ∧ Blanked b b' := by
  refine ⟨_, overwrite_eq_some f hr.le hr.stop.le, ?_⟩
  have hsplit : b = b.take r.1 ++ (b.take r.2).drop r.1 ++ b.drop r.2 := by
    conv_lhs => rw [← take_append_drop r.2 b, ← take_append_drop r.1 (b.take r.2)]
    rw [take_take, Nat.min_eq_left hr.le]
  conv =>
    arg 1
    rw [hsplit]
  refine rel_append (rel_append (Blanked.refl _) (blanked_map ?_)) (Blanked.refl _)
  intro c hc
  obtain ⟨k, hk, rfl⟩ := getElem_of_mem hc
  rw [length_drop, length_take] at hk
  refine hf (r.1 + k) _ (Nat.le_add_right _ _) (by omega) ?_
  rw [getElem_drop, getElem_take, getElem?_eq_getElem]

variable {ranges : List Range}

/-- Ranges of whole characters are overwritten one after the other, and what is left is
text again. -/
theorem overwriteAll_spec (hspace : f (byte ' ') = byte ' ')
    (hascii : ∀ c, f c < 0x80) : ∀ {text : List Char},
    (∀ r ∈ ranges, GoodRange (utf8 text) r ∧ Blanks f (utf8 text) r) →
    ∃ text', overwriteAll f (utf8 text) ranges = some (utf8 text') ∧
      Blanked (utf8 text) (utf8 text') := by
  induction ranges with
  | nil => exact fun _ => ⟨_, rfl, Blanked.refl _⟩
  | cons r ranges ih =>
      intro text h
      obtain ⟨hr, hf⟩ := h r mem_cons_self
      obtain ⟨b', hb', hblanked⟩ := overwrite_spec hr hf
      obtain ⟨text', rfl⟩ := overwrite_utf8 hascii hr.start hr.stop hb'
      have hlater : ∀ x ∈ ranges, GoodRange (utf8 text') x ∧ Blanks f (utf8 text') x :=
        fun x hx =>
          have hx := h x (mem_cons_of_mem r hx)
          ⟨hblanked.goodRange hx.1, hblanked.blanks hspace hx.2⟩
      obtain ⟨text'', hrest, hblanked'⟩ := ih hlater
      refine ⟨text'', ?_, hblanked.trans hblanked'⟩
      rw [overwriteAll, foldlM_cons, hb']
      exact hrest

theorem rewriteRanges_spec (hspace : f (byte ' ') = byte ' ')
    (hascii : ∀ c, f c < 0x80) {source : Text}
    (h : ∀ r ∈ ranges, GoodRange (utf8 source) r ∧ Blanks f (utf8 source) r) :
    ∃ out, rewriteRanges f source ranges = some out ∧
      ∀ next ∈ out, Blanked (utf8 source) (utf8 next) := by
  rw [rewriteRanges]
  split
  · exact ⟨none, rfl, nofun⟩
  · obtain ⟨text', hall, hblanked⟩ := overwriteAll_spec hspace hascii h
    refine ⟨some text', ?_, fun next hnext => Option.some.inj hnext ▸ hblanked⟩
    rw [hall, map_some, fromUtf8_utf8]

theorem blanks_blankByte (b : List UInt8) (r : Range) : Blanks blankByte b r := by
  intro j c _ _ _
  rw [blankByte]
  split
  next h => exact .inr ⟨rfl, h⟩
  next => exact .inl rfl

theorem blankOut_spec {source : Text} (h : ∀ r ∈ ranges, GoodRange (utf8 source) r) :
    ∃ out, blankOut source ranges = some out ∧ ∀ next ∈ out, Blanked (utf8 source) (utf8 next) := by
  refine rewriteRanges_spec (by decide) (fun c => ?_) fun r hr =>
    ⟨h r hr, blanks_blankByte _ r⟩
  rw [blankByte]
  split
  next => decide
  next h =>
    rw [not_not.mp h]
    decide

/-! ## The ranges of the conditionals -/

section Collapse

variable {cc : CharClass} {b : List UInt8}

/-- A conditional whose directives lie before `p`. -/
structure GoodConditional (b : List UInt8) (p : ℕ) (c : Conditional) : Prop where
  directives : ∀ r ∈ c.directives, GoodRange b r
  elseFrom : ∀ e ∈ c.elseFrom, IsBoundary b e ∧ e ≤ p

/-- What holds of the pass before the tokens from `p` on. -/
structure GoodCollapse (b : List UInt8) (p : ℕ) (st : Collapse) : Prop where
  blank : ∀ r ∈ st.blank, GoodRange b r
  stack : ∀ c ∈ st.stack, GoodConditional b p c

theorem GoodConditional.later {p q : ℕ} {c : Conditional} (h : GoodConditional b p c)
    (hpq : p ≤ q) : GoodConditional b q c :=
  ⟨h.directives, fun e he => ⟨(h.elseFrom e he).1, Nat.le_trans (h.elseFrom e he).2 hpq⟩⟩

variable (cc) in
theorem directiveWord_isSome {t : Lexed} (h : GoodTok b t) (htok : t.tok = .directive) :
    ∃ word, directiveWord cc b t = some word := by
  obtain ⟨-, hstop⟩ := h.boundaries fun c _ hpunct => nomatch htok.symm.trans hpunct
  exact ⟨_, by rw [directiveWord, slice_eq_some h.lt (h.hash htok) hstop]; rfl⟩

theorem GoodTok.range {t : Lexed} (h : GoodTok b t) (htok : ∀ c, 0x80 ≤ c → t.tok ≠ .punct c) :
    GoodRange b (t.start, t.stop) :=
  ⟨Nat.le_of_lt h.lt, (h.boundaries htok).1, (h.boundaries htok).2⟩

theorem onBranchDirective_spec {stack : List Conditional} {blank : List Range} {t : Lexed}
    (word : Text) (tokens : ℕ) (last : Option Tok) (hstack : ∀ c ∈ stack, GoodConditional b t.start c)
    (hblank : ∀ r ∈ blank, GoodRange b r) (ht : GoodRange b (t.start, t.stop)) :
    (∀ c ∈ (onBranchDirective stack blank word t tokens last).1, GoodConditional b t.stop c) ∧
      ∀ r ∈ (onBranchDirective stack blank word t tokens last).2, GoodRange b r := by
  cases stack with
  | nil => exact ⟨nofun, hblank⟩
  | cons top stack =>
      obtain ⟨htop, hrest⟩ := forall_mem_cons.mp hstack
      have hlater : ∀ c ∈ stack, GoodConditional b t.stop c := fun c hc => (hrest c hc).later ht.le
      have hdirectives : ∀ r ∈ top.directives ++ [(t.start, t.stop)], GoodRange b r := by
        intro r hr
        rcases mem_append.mp hr with hr | hr
        · exact htop.directives r hr
        · exact mem_singleton.mp hr ▸ ht
      rw [onBranchDirective]
      split
      next =>
        refine ⟨forall_mem_cons.mpr ⟨⟨hdirectives, fun e he => ?_⟩, hlater⟩, hblank⟩
        obtain rfl := Option.some.inj he
        cases hfrom : top.elseFrom with
        | none => exact ⟨ht.start, ht.le⟩
        | some e =>
            obtain ⟨hboundary, hle⟩ := htop.elseFrom e hfrom
            exact ⟨hboundary, Nat.le_trans hle ht.le⟩
      next =>
        split
        next =>
          refine ⟨hlater, fun r hr => ?_⟩
          rcases mem_append.mp hr with hr | hr
          · rcases mem_append.mp hr with hr | hr
            · exact hblank r hr
            · exact hdirectives r hr
          · obtain ⟨e, he, rfl⟩ := map_eq_some_iff.mp (mem_toList.mp hr)
            obtain ⟨hboundary, hle⟩ := htop.elseFrom e he
            exact ⟨Nat.le_trans hle ht.le, hboundary, ht.stop⟩
        next => exact ⟨hlater, hblank⟩

variable (cc) in
theorem collapseToken_spec {st : Collapse} {t : Lexed} {p : ℕ} (hst : GoodCollapse b p st)
    (ht : GoodTok b t) (hp : p ≤ t.start) :
    ∃ st', collapseToken cc b st t = some st' ∧ GoodCollapse b t.stop st' := by
  have hlater : ∀ q, t.start ≤ q → ∀ c ∈ st.stack, GoodConditional b q c := fun q hq c hc =>
    (hst.stack c hc).later (Nat.le_trans hp hq)
  have hstop := hlater t.stop (Nat.le_of_lt ht.lt)
  rw [collapseToken]
  split
  next => exact ⟨_, rfl, hst.blank, hstop⟩
  next htok =>
    have htok := not_not.mp htok
    obtain ⟨word, hword⟩ := directiveWord_isSome cc ht htok
    have hrange : GoodRange b (t.start, t.stop) :=
      ht.range fun c _ hpunct => nomatch htok.symm.trans hpunct
    simp only [hword, bind_eq_bind, bind_some]
    split
    next =>
      refine ⟨_, rfl, hst.blank, forall_mem_cons.mpr ⟨⟨?_, nofun⟩, hstop⟩⟩
      exact fun r hr => mem_singleton.mp hr ▸ hrange
    next =>
      split
      next =>
        obtain ⟨hstack, hblank⟩ := onBranchDirective_spec word st.tokens st.last
          (hlater t.start le_rfl) hst.blank hrange
        exact ⟨_, rfl, hblank, hstack⟩
      next => exact ⟨st, rfl, hst.blank, hstop⟩

variable (cc) in
theorem collapseTokens_spec {toks : List Lexed} : ∀ (st : Collapse) (p : ℕ),
    GoodCollapse b p st → Tokens b toks → (∀ t ∈ toks, p ≤ t.start) →
    ∃ st', toks.foldlM (collapseToken cc b) st = some st' ∧ ∀ r ∈ st'.blank, GoodRange b r := by
  induction toks with
  | nil => exact fun _ _ hst _ _ => ⟨_, rfl, hst.blank⟩
  | cons t toks ih =>
      intro st p hst htoks hp
      obtain ⟨hfirst, hordered⟩ := pairwise_cons.mp htoks.ordered
      obtain ⟨st', hstep, hst'⟩ := collapseToken_spec cc hst
        (htoks.good t mem_cons_self) (hp t mem_cons_self)
      obtain ⟨out, hrest, hblank⟩ := ih st' t.stop hst'
        ⟨fun x hx => htoks.good x (mem_cons_of_mem t hx), hordered⟩ hfirst
      refine ⟨out, ?_, hblank⟩
      rw [foldlM_cons, hstep]
      exact hrest

end Collapse

/-! ## The ranges of the macro statements -/

section Scopes

variable {b : List UInt8} {toks : List Lexed}

theorem opensScope_isSome {intro : List Lexed} (h : ∀ t ∈ intro, GoodTok b t) :
    ∃ r, opensScope b intro = some r := by
  obtain ⟨isEnum, henum⟩ := anyWordAmong_isSome [ascii "enum"] h
  obtain ⟨isScope, hscope⟩ :=
    anyWordAmong_isSome (["class", "struct", "union", "namespace"].map ascii) h
  simp only [opensScope, henum, bind_eq_bind, bind_some]
  split
  · exact ⟨false, rfl⟩
  · split
    · exact ⟨false, rfl⟩
    · exact ⟨isScope, hscope⟩

/-- The entries written so far close a `(` of an earlier token. -/
structure GoodCloses (toks : List Lexed) (closes : List (Option ℕ)) : Prop where
  length : closes.length = toks.length
  entry : ∀ o j : ℕ, closes[o]? = some (some j) → o < j ∧
    toks[j]?.map Lexed.tok = some (.punct (byte ')'))

theorem parenClosesFrom_spec (toks : List Lexed) : ∀ (rest : List Lexed) (j : ℕ)
    (opened : List ℕ) (closes : List (Option ℕ)), toks.drop j = rest →
    (∀ o ∈ opened, o < j ∧ o < toks.length) → GoodCloses toks closes →
    ∃ out, parenClosesFrom rest j opened closes = some out ∧ GoodCloses toks out := by
  intro rest
  induction rest with
  | nil => exact fun _ _ closes _ _ hcloses => ⟨closes, rfl, hcloses⟩
  | cons t rest ih =>
      intro j opened closes hdrop hopened hcloses
      have hj : j < toks.length := by
        by_contra hge
        rw [drop_eq_nil_of_le (Nat.not_lt.mp hge)] at hdrop
        cases hdrop
      have hcons := drop_eq_getElem_cons hj
      rw [hdrop] at hcons
      obtain ⟨hhead, htail⟩ := List.cons.inj hcons
      have hlater : ∀ o ∈ opened, o < j + 1 ∧ o < toks.length := fun o ho =>
        ⟨Nat.lt_succ_of_lt (hopened o ho).1, (hopened o ho).2⟩
      rw [parenClosesFrom.eq_def]
      dsimp only
      split
      next =>
        exact ih (j + 1) _ closes htail.symm
          (forall_mem_cons.mpr ⟨⟨Nat.lt_succ_self j, hj⟩, hlater⟩) hcloses
      next =>
        split
        next hclose =>
          cases opened with
          | nil => exact ih (j + 1) [] closes htail.symm nofun hcloses
          | cons o opened =>
              obtain ⟨⟨hoj, ho⟩, hrest⟩ := forall_mem_cons.mp hopened
              dsimp only
              rw [if_pos (hcloses.length ▸ ho)]
              refine ih (j + 1) opened _ htail.symm (forall_mem_cons.mp hlater).2
                ⟨by rw [length_set, hcloses.length], fun p q hpq => ?_⟩
              rw [getElem?_set] at hpq
              split at hpq
              next hop =>
                rw [if_pos (hcloses.length ▸ hop ▸ ho)] at hpq
                obtain rfl := Option.some.inj (Option.some.inj hpq)
                refine ⟨hop ▸ hoj, ?_⟩
                rw [getElem?_eq_getElem hj, ← hhead, map_some, hclose]
              next => exact hcloses.entry p q hpq
        next => exact ih (j + 1) opened closes htail.symm hlater hcloses

theorem parenCloses_spec (toks : List Lexed) :
    ∃ closes, parenCloses toks = some closes ∧ GoodCloses toks closes := by
  refine parenClosesFrom_spec toks toks 0 [] _ rfl nofun ⟨length_replicate, ?_⟩
  intro o j h
  rw [getElem?_replicate] at h
  split at h
  · cases h
  · cases h

variable {closes : List (Option ℕ)}

theorem macroStatementEnd_spec (hcloses : GoodCloses toks closes)
    (htoks : ∀ t ∈ toks, GoodTok b t) {name : ℕ} {t : Lexed} (ht : toks[name]? = some t)
    (hident : t.tok = .ident) : ∃ r, macroStatementEnd b toks closes name = some r ∧
      ∀ j ∈ r, name ≤ j ∧ ∃ last, toks[j]? = some last ∧ ∀ c, 0x80 ≤ c → last.tok ≠ .punct c := by
  have hself : ∀ c, 0x80 ≤ c → t.tok ≠ .punct c := fun c _ hpunct =>
    nomatch hident.symm.trans hpunct
  rw [macroStatementEnd]
  dsimp only
  split
  next =>
    refine ⟨_, rfl, fun j hj => ?_⟩
    split at hj
    · obtain rfl := Option.some.inj hj
      exact ⟨le_rfl, t, ht, hself⟩
    · cases hj
  next =>
    cases hclose : closes[name + 1]?.join with
    | none => exact ⟨none, rfl, nofun⟩
    | some close =>
        have hentry : closes[name + 1]? = some (some close) := join_eq_some_iff.mp hclose
        obtain ⟨hlt, hlast⟩ := hcloses.entry _ _ hentry
        obtain ⟨last, hlast, hpunct⟩ := map_eq_some_iff.mp hlast
        have hgood : name ≤ close ∧ ∃ last, toks[close]? = some last ∧
            ∀ c, 0x80 ≤ c → last.tok ≠ .punct c := by
          refine ⟨by omega, last, hlast, fun c hc hother => ?_⟩
          rw [hpunct] at hother
          obtain rfl := Tok.punct.inj hother
          exact absurd hc (by decide)
        have hafter : ∃ r, endsABareStatement b toks[close + 1]? = some r := by
          cases hnext : toks[close + 1]? with
          | none => exact ⟨false, rfl⟩
          | some next =>
              rw [endsABareStatement]
              split
              · exact ⟨true, rfl⟩
              · obtain ⟨r, hr, -⟩ := isMacro_isSome (htoks next (mem_of_getElem? hnext))
                exact ⟨r, hr⟩
        obtain ⟨bare, hbare⟩ := hafter
        simp only [hbare, bind_eq_bind, bind_some]
        split
        · exact ⟨_, rfl, fun j hj => Option.some.inj hj ▸ hgood⟩
        · refine ⟨_, rfl, fun j hj => ?_⟩
          split at hj
          · exact Option.some.inj hj ▸ hgood
          · cases hj

theorem enterToken_spec (htoks : ∀ t ∈ toks, GoodTok b t) (st : Scopes) (i : ℕ) (tok : Tok) :
    ∃ st', enterToken b toks st i tok = some st' ∧ st'.blank = st.blank := by
  have hintro : ∀ t ∈ (toks.take i).drop (min st.statement i), GoodTok b t := fun t ht =>
    htoks t (mem_of_mem_take (mem_of_mem_drop ht))
  obtain ⟨opens, hopens⟩ := opensScope_isSome hintro
  simp only [enterToken, hopens, bind_eq_bind, bind_some]
  split
  · exact ⟨_, rfl, rfl⟩
  split
  · exact ⟨_, rfl, rfl⟩
  split
  · exact ⟨_, rfl, rfl⟩
  split
  · exact ⟨_, rfl, rfl⟩
  · exact ⟨_, rfl, rfl⟩

/-- A turn goes on further right and adds ranges of whole characters. -/
theorem scopeTurn_spec (hcloses : GoodCloses toks closes)
    (htoks : Tokens b toks) {st : Scopes} (hst : ∀ r ∈ st.blank, GoodRange b r) {i : ℕ}
    (hi : i < toks.length) : ∃ out, scopeTurn b toks closes st i = some out ∧ i < out.2 ∧
      ∀ r ∈ out.1.blank, GoodRange b r := by
  have ht : toks[i]? = some toks[i] := getElem?_eq_getElem hi
  have hgood : GoodTok b toks[i] := htoks.good _ (getElem_mem hi)
  obtain ⟨st', hst', hblank⟩ := enterToken_spec htoks.good st i toks[i].tok
  have hsame : ∀ r ∈ st'.blank, GoodRange b r := hblank ▸ hst
  obtain ⟨style, hstyle, hident⟩ := isMacro_isSome hgood
  simp only [scopeTurn, ht, hst', hstyle, bind_eq_bind, bind_some]
  split
  swap
  · exact ⟨_, rfl, Nat.lt_succ_self i, hsame⟩
  split
  swap
  · exact ⟨_, rfl, Nat.lt_succ_self i, hsame⟩
  next hmacro =>
    obtain ⟨stop, hstop, hend⟩ :=
      macroStatementEnd_spec hcloses htoks.good ht (hident hmacro)
    rw [hstop, bind_some]
    cases stop with
    | none => exact ⟨_, rfl, Nat.lt_succ_self i, hsame⟩
    | some j =>
        obtain ⟨hij, last, hlast, hpunct⟩ := hend j rfl
        simp only [hlast, bind_some]
        refine ⟨_, rfl, Nat.lt_succ_of_le hij, fun r hr => ?_⟩
        rcases mem_append.mp hr with hr | hr
        · exact hsame r hr
        obtain rfl := mem_singleton.mp hr
        have hgoodLast := htoks.good last (mem_of_getElem? hlast)
        refine ⟨?_, (hgood.ident (hident hmacro)).1, (hgoodLast.boundaries hpunct).2⟩
        obtain ⟨hj, rfl⟩ := List.getElem?_eq_some_iff.mp hlast
        rcases Nat.eq_or_lt_of_le hij with rfl | hlt
        · exact Nat.le_of_lt hgood.lt
        · have := pairwise_iff_getElem.mp htoks.ordered i j hi hj hlt
          have := hgood.lt
          have := hgoodLast.lt
          dsimp only
          omega

theorem scopeRangesFrom_spec (hcloses : GoodCloses toks closes)
    (htoks : Tokens b toks) : ∀ (fuel : ℕ) (st : Scopes) (i : ℕ),
    (∀ r ∈ st.blank, GoodRange b r) → toks.length ≤ i + fuel →
    ∃ ranges, scopeRangesFrom b toks closes fuel st i = some ranges ∧
      ∀ r ∈ ranges, GoodRange b r := by
  intro fuel
  induction fuel with
  | zero =>
      intro st i hst hfuel
      exact ⟨st.blank, by rw [scopeRangesFrom, if_pos (by omega)], hst⟩
  | succ fuel ih =>
      intro st i hst hfuel
      rw [scopeRangesFrom]
      split
      next => exact ⟨st.blank, rfl, hst⟩
      next hi =>
        obtain ⟨⟨st', next⟩, hturn, hlt, hst'⟩ :=
          scopeTurn_spec hcloses htoks hst (Nat.not_le.mp hi)
        simp only [hturn, bind_eq_bind, bind_some]
        dsimp only at hlt
        exact ih st' next hst' (by omega)

end Scopes

/-! ## Every range is one of whole characters -/

theorem specifierRanges_spec (source : Text) :
    ∃ ranges, specifierRanges (utf8 source) = some ranges ∧
      ∀ r ∈ ranges, GoodRange (utf8 source) r ∧ Blanks fillByte (utf8 source) r := by
  obtain ⟨toks, hlex, htoks⟩ := lex_spec source
  obtain ⟨ranges, hranges, hident⟩ :=
    specifierRangesFrom_spec none false nofun htoks.good
  refine ⟨ranges, by rw [specifierRanges, hlex]; exact hranges, fun r hr => ?_⟩
  obtain ⟨t, ht, htok, rfl⟩ := hident r hr
  have hgood := htoks.good t ht
  refine ⟨hgood.range (fun c _ hpunct => nomatch htok.symm.trans hpunct), ?_⟩
  -- an identifier holds no end of a line
  intro j c hstart hstop hc
  refine .inr ⟨rfl, ?_⟩
  rintro rfl
  exact hgood.word htok j hstart hstop hc

theorem scopeRanges_spec (source : Text) :
    ∃ ranges, scopeRanges (utf8 source) = some ranges ∧
      ∀ r ∈ ranges, GoodRange (utf8 source) r := by
  obtain ⟨toks, hlex, htoks⟩ := lex_spec source
  obtain ⟨closes, hparen, hcloses⟩ := parenCloses_spec toks
  obtain ⟨ranges, hranges, hgood⟩ :=
    scopeRangesFrom_spec hcloses htoks toks.length {} 0 nofun (Nat.le_add_left _ _)
  refine ⟨ranges, ?_, hgood⟩
  rw [scopeRanges, hlex, bind_eq_bind, bind_some, hparen]
  exact hranges

theorem collapseRanges_spec (cc : CharClass) (source : Text) :
    ∃ ranges, collapseRanges cc (utf8 source) = some ranges ∧
      ∀ r ∈ ranges, GoodRange (utf8 source) r := by
  obtain ⟨toks, hlex, htoks⟩ := lex_spec source
  obtain ⟨st, hst, hblank⟩ := collapseTokens_spec cc {} 0 ⟨nofun, nofun⟩
    htoks fun _ _ => Nat.zero_le _
  refine ⟨st.blank, ?_, hblank⟩
  rw [collapseRanges, hlex, bind_eq_bind, bind_some, hst]
  rfl

/-! ## The rewrites -/

/-- A step that never fails and blanks what it changes. -/
def StepOk (step : Text → Option (Option Text)) : Prop :=
  ∀ source, ∃ out, step source = some out ∧ ∀ next ∈ out, Blanked (utf8 source) (utf8 next)

theorem stepOk_maskSpecifierMacros : StepOk maskSpecifierMacros := by
  intro source
  obtain ⟨ranges, hranges, hgood⟩ := specifierRanges_spec source
  rw [maskSpecifierMacros, hranges]
  exact rewriteRanges_spec rfl (fun _ => (by decide : byte ' ' < 0x80)) hgood

theorem stepOk_blankScopeMacroCalls : StepOk blankScopeMacroCalls := by
  intro source
  obtain ⟨ranges, hranges, hgood⟩ := scopeRanges_spec source
  rw [blankScopeMacroCalls, hranges]
  exact blankOut_spec hgood

theorem stepOk_collapseConditionals (cc : CharClass) : StepOk (collapseConditionals cc) := by
  intro source
  obtain ⟨ranges, hranges, hgood⟩ := collapseRanges_spec cc source
  rw [collapseConditionals, hranges]
  exact blankOut_spec hgood

theorem variantsFrom_spec {steps : List (Text → Option (Option Text))}
    (h : ∀ step ∈ steps, StepOk step) (current : Text) :
    ∃ out, variantsFrom steps current = some out ∧
      ∀ v ∈ out, Blanked (utf8 current) (utf8 v) := by
  induction steps generalizing current with
  | nil => exact ⟨[], rfl, nofun⟩
  | cons step steps ih =>
      obtain ⟨hstep, hsteps⟩ := forall_mem_cons.mp h
      obtain ⟨result, hresult, hblanked⟩ := hstep current
      simp only [variantsFrom, hresult, bind_eq_bind, bind_some]
      cases result with
      | none => exact ih hsteps current
      | some next =>
          obtain ⟨more, hmore, hlater⟩ := ih hsteps next
          have hnext := hblanked next rfl
          refine ⟨next :: more, by dsimp only; rw [hmore]; rfl, ?_⟩
          exact forall_mem_cons.mpr ⟨hnext, fun v hv => hnext.trans (hlater v hv)⟩

/-- The same length, the ends of the lines at the same offsets, and otherwise only bytes that
became blanks. -/
structure Masks (source masked : List UInt8) : Prop where
  length : masked.length = source.length
  newlines : ∀ i : ℕ, masked[i]? = some (byte '\n') ↔ source[i]? = some (byte '\n')
  blanks : ∀ i : ℕ, masked[i]? = source[i]? ∨ masked[i]? = some (byte ' ')

theorem Blanked.masks {b : List UInt8} (h : Blanked b b') : Masks b b' := by
  refine ⟨h.length_eq.symm, fun i => ?_, fun i => ?_⟩
  · rcases h.getElem? i with ⟨hb, hb'⟩ | ⟨c, d, hb, hb', rfl | ⟨rfl, hc⟩⟩
    · rw [hb, hb']
    · rw [hb, hb']
    · rw [hb, hb', Option.some.injEq, Option.some.injEq]
      exact iff_of_false (by decide) hc
  · rcases h.getElem? i with ⟨hb, hb'⟩ | ⟨c, d, hb, hb', rfl | ⟨rfl, -⟩⟩
    · exact .inl (hb'.trans hb.symm)
    · exact .inl (hb'.trans hb.symm)
    · exact .inr hb'

/-- The ranges are found, and each is one of whole characters within the text. -/
def Aligned (b : List UInt8) (found : Option (List Range)) : Prop :=
  ∃ ranges, found = some ranges ∧ ∀ r ∈ ranges, GoodRange b r

/-- No index is out of range, no slice or overwritten range splits a character, every loop
ends, and every rewrite keeps the offsets. -/
theorem masking_exact (cc : CharClass) (source : Text) :
    (∃ toks, lex (utf8 source) = some toks ∧ Tokens (utf8 source) toks) ∧
      (Aligned (utf8 source) (specifierRanges (utf8 source)) ∧
        Aligned (utf8 source) (scopeRanges (utf8 source)) ∧
        Aligned (utf8 source) (collapseRanges cc (utf8 source))) ∧
      ∃ out, variants cc source = some out ∧ ∀ v ∈ out, Masks (utf8 source) (utf8 v) := by
  refine ⟨lex_spec source, ⟨?_, scopeRanges_spec source, collapseRanges_spec cc source⟩, ?_⟩
  · obtain ⟨ranges, hranges, hgood⟩ := specifierRanges_spec source
    exact ⟨ranges, hranges, fun r hr => (hgood r hr).1⟩
  · have hsteps : ∀ step ∈ [maskSpecifierMacros, blankScopeMacroCalls, collapseConditionals cc],
        StepOk step := by
      simp only [forall_mem_cons]
      exact ⟨stepOk_maskSpecifierMacros, stepOk_blankScopeMacroCalls,
        stepOk_collapseConditionals cc, nofun⟩
    obtain ⟨out, hout, hblanked⟩ := variantsFrom_spec hsteps source
    exact ⟨out, hout, fun v hv => (hblanked v hv).masks⟩

theorem masking_exact_noexcept :
    ∃ out, variants .ascii "void f() ETL_NOEXCEPT;".toList = some out ∧
      ∀ v ∈ out, Masks (utf8 "void f() ETL_NOEXCEPT;".toList) (utf8 v) :=
  (masking_exact .ascii "void f() ETL_NOEXCEPT;".toList).2.2

/-- Outside comments and literals the bytes of a character are tokens of their own. -/
theorem lexer_splits_character :
    lex (utf8 ['é']) = some [⟨.punct 0xC3, 0, 1⟩, ⟨.punct 0xA9, 1, 2⟩] ∧
      ¬IsBoundary (utf8 ['é']) 1 := by
  decide

end CppMacroMask

end CodeGraph
