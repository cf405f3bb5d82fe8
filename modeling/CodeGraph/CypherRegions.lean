import Mathlib.Data.List.TakeWhile
import CodeGraph.ReadOnlyGate

/-!
# The regions of a query

A query is cut into code, literals, backticked identifiers and comments; what is
left over begins a literal, an identifier or a block comment that is never closed.
`mask_render` says what the mask makes of each region, and `exists_lexes` that
every query is cut so.
-/

namespace CodeGraph

open Option List

namespace Cypher

open Percent (utf8 utf8_nil utf8_append utf8_cons fromUtf8 fromUtf8_utf8)

/-! ## Regions -/

/-- A piece of a query, as the lexer of the gate cuts it. -/
inductive Region where
  | code (c : Char)
  | quoted (quote : Char) (content : Text)
  | line (content : Text)
  | block (content : Text)
  deriving DecidableEq

def isQuoteChar (c : Char) : Bool := c = '\'' || c = '"' || c = '`'

/-- A text without a quote that closes it; a backslash escapes what follows it, but
not between backticks. -/
inductive Closed (q : Char) : Text → Prop
  | nil : Closed q []
  | plain {c rest} : c ≠ q → (q ≠ '`' → c ≠ '\\') → Closed q rest → Closed q (c :: rest)
  | escaped {c rest} : q ≠ '`' → Closed q rest → Closed q ('\\' :: c :: rest)

namespace Region

def text : Region → Text
  | code c => [c]
  | quoted q content => q :: content ++ [q]
  | line content => '/' :: '/' :: content
  | block content => '/' :: '*' :: content ++ ['*', '/']

/-- The region is one where `after` follows it. -/
def EndsAt (after : Text) : Region → Prop
  | code c => isQuoteChar c = false
      ∧ (c = '/' → after.head? ≠ some '/' ∧ after.head? ≠ some '*')
  | quoted q content => isQuoteChar q = true ∧ Closed q content
  | line content => '\n' ∉ content ∧ ∀ c, after.head? = some c → c = '\n'
  | block content => ¬ ['*', '/'] <:+: content

def mask : Region → Text
  | code c => [c]
  | quoted _ content => List.replicate ((utf8 content).length + 2) (Char.ofNat 1)
  | line content => List.replicate ((utf8 content).length + 2) ' '
  | block content => List.replicate ((utf8 content).length + 4) ' '

end Region

def render (regions : List Region) : Text := regions.flatMap Region.text

def maskText (regions : List Region) : Text := regions.flatMap Region.mask

/-- The regions are those of a query that goes on with `tail`. -/
def Lexes (tail : Text) : List Region → Prop
  | [] => True
  | r :: rest => r.EndsAt (render rest ++ tail) ∧ Lexes tail rest

/-- A literal, an identifier or a block comment that nothing closes. -/
def Unterminated (tail : Text) : Prop :=
  (∃ q content, tail = q :: content ∧ isQuoteChar q = true
    ∧ ∀ c rest, content = c ++ q :: rest → ¬ Closed q c)
  ∨ ∃ content, tail = '/' :: '*' :: content ∧ ¬ ['*', '/'] <:+: content

/-- The regions of a query and what is left open at its end. -/
structure IsLexed (query : Text) (regions : List Region) (tail : Text) : Prop where
  lexes : Lexes tail regions
  query_eq : query = render regions ++ tail
  tail_eq : tail = [] ∨ Unterminated tail

/-! ## Bytes of characters -/

variable {c : Char}

theorem utf8EncodeChar_ascii (hc : c.toNat < 128) : String.utf8EncodeChar c = [c.toUInt8] := by
  have hle : c.val.toNat ≤ 0x7f := Nat.le_of_lt_succ hc
  unfold String.utf8EncodeChar
  simp only [if_pos hle]
  rfl

theorem utf8EncodeChar_slash : String.utf8EncodeChar '/' = ['/'.toUInt8] :=
  utf8EncodeChar_ascii (by decide)

theorem utf8EncodeChar_star : String.utf8EncodeChar '*' = ['*'.toUInt8] :=
  utf8EncodeChar_ascii (by decide)

theorem utf8EncodeChar_backslash : String.utf8EncodeChar '\\' = ['\\'.toUInt8] :=
  utf8EncodeChar_ascii (by decide)

theorem toNat_toUInt8 (hc : c.toNat < 128) : c.toUInt8.toNat = c.toNat := by
  show (UInt8.ofNat c.toNat).toNat = c.toNat
  rw [UInt8.toNat_ofNat', Nat.mod_eq_of_lt (by omega)]

theorem toUInt8_inj {d : Char} (hc : c.toNat < 128) (hd : d.toNat < 128) :
    c.toUInt8 = d.toUInt8 ↔ c = d := by
  constructor
  · intro h
    have htoNat := congrArg UInt8.toNat h
    rw [toNat_toUInt8 hc, toNat_toUInt8 hd] at htoNat
    exact Char.toNat_inj.mp htoNat
  · rintro rfl
    rfl

/-- The bytes of a character that is not ASCII are not ASCII either. -/
theorem high_of_mem (hc : ¬ c.toNat < 128) : ∀ b ∈ String.utf8EncodeChar c, 128 ≤ b.toNat := by
  have hv : ¬ c.val.toNat ≤ 0x7f := fun h => hc (Nat.lt_succ_of_le h)
  intro b hb
  unfold String.utf8EncodeChar at hb
  simp only [if_neg hv] at hb
  split_ifs at hb <;> simp only [mem_cons, not_mem_nil, or_false] at hb
  · rcases hb with rfl | rfl <;> rw [UInt8.toNat_ofNat'] <;> omega
  · rcases hb with rfl | rfl | rfl <;> rw [UInt8.toNat_ofNat'] <;> omega
  · rcases hb with rfl | rfl | rfl | rfl <;> rw [UInt8.toNat_ofNat'] <;> omega

theorem ne_of_high {b : UInt8} (hb : 128 ≤ b.toNat) (hc : c.toNat < 128) : b ≠ c.toUInt8 := by
  rintro rfl
  rw [toNat_toUInt8 hc] at hb
  omega

theorem head?_utf8 {d : Char} (hd : d.toNat < 128) (text : Text) :
    (utf8 text).head? = some d.toUInt8 ↔ text.head? = some d := by
  cases text with
  | nil => simp
  | cons c text =>
      rw [utf8_cons, head?_cons, Option.some.injEq]
      by_cases hc : c.toNat < 128
      · rw [utf8EncodeChar_ascii hc, singleton_append, head?_cons, Option.some.injEq,
          toUInt8_inj hc hd]
      · obtain ⟨b, bs, hbytes⟩ := exists_cons_of_ne_nil (String.utf8EncodeChar_ne_nil (c := c))
        have hb : 128 ≤ b.toNat := high_of_mem hc b (hbytes ▸ mem_cons_self)
        rw [hbytes, cons_append, head?_cons, Option.some.injEq]
        refine iff_of_false (ne_of_high hb hd) ?_
        rintro rfl
        exact hc hd

/-! ## The mask, byte by byte -/

theorem maskFrom_eq : ∀ {fuel fuel' : ℕ} {bytes : List UInt8}, bytes.length ≤ fuel →
    bytes.length ≤ fuel' → maskFrom fuel bytes = maskFrom fuel' bytes
  | 0, 0, [], _, _ => rfl
  | 0, _ + 1, [], _, _ => rfl
  | _ + 1, 0, [], _, _ => rfl
  | _ + 1, _ + 1, [], _, _ => rfl
  | fuel + 1, fuel' + 1, c :: rest, h, h' => by
      have hrest : ∀ n, maskFrom fuel (rest.drop n) = maskFrom fuel' (rest.drop n) := by
        intro n
        rw [length_cons] at h h'
        exact maskFrom_eq (by rw [length_drop]; omega) (by rw [length_drop]; omega)
      have htail : ∀ n, maskFrom fuel (rest.tail.drop n) = maskFrom fuel' (rest.tail.drop n) := by
        intro n
        rw [← drop_one, drop_drop]
        exact hrest _
      have hzero : maskFrom fuel rest = maskFrom fuel' rest := hrest 0
      simp only [maskFrom, hrest, htail, hzero]

theorem maskFrom_maskBytes {fuel : ℕ} {bytes : List UInt8} (h : bytes.length ≤ fuel) :
    maskFrom fuel bytes = maskBytes bytes := maskFrom_eq h le_rfl

theorem maskBytes_nil : maskBytes [] = some [] := rfl

theorem maskBytes_quote {q : UInt8} (hq : isQuote q = true) (rest : List UInt8) :
    maskBytes (q :: rest) = (skipQuoted q rest).bind fun n =>
      (maskBytes (rest.drop n)).map (List.replicate (n + 1) maskedToken ++ ·) := by
  have hfuel : ∀ n, maskFrom rest.length (rest.drop n) = maskBytes (rest.drop n) := fun n =>
    maskFrom_maskBytes (by rw [length_drop]; omega)
  rw [maskBytes, length_cons, maskFrom, if_pos hq]
  simp only [hfuel]
  rfl

theorem drop_length_takeWhile {α : Type} (p : α → Bool) (l : List α) :
    l.drop (l.takeWhile p).length = l.dropWhile p := by
  have h := @drop_left _ (l.takeWhile p) (l.dropWhile p)
  rwa [takeWhile_append_dropWhile] at h

theorem maskBytes_line (rest : List UInt8) :
    maskBytes ('/'.toUInt8 :: '/'.toUInt8 :: rest)
      = (maskBytes (rest.dropWhile (· ≠ '\n'.toUInt8))).map
          (List.replicate ((rest.takeWhile (· ≠ '\n'.toUInt8)).length + 2) ' '.toUInt8 ++ ·) := by
  have htake : (('/'.toUInt8 :: rest).takeWhile (· ≠ '\n'.toUInt8))
      = '/'.toUInt8 :: rest.takeWhile (· ≠ '\n'.toUInt8) := by
    rw [takeWhile_cons_of_pos (by decide)]
  have hlen : (rest.dropWhile (· ≠ '\n'.toUInt8)).length ≤ rest.length + 1 :=
    ((dropWhile_sublist _).length_le).trans (Nat.le_succ _)
  rw [maskBytes, length_cons, maskFrom, if_neg (by decide), if_pos ⟨rfl, rfl⟩]
  simp only [htake, length_cons, drop_succ_cons, drop_length_takeWhile]
  rw [maskFrom_maskBytes hlen]

theorem maskBytes_block (rest : List UInt8) :
    maskBytes ('/'.toUInt8 :: '*'.toUInt8 :: rest) = (skipBlock rest).bind fun n =>
      (maskBytes (rest.drop n)).map (List.replicate (n + 2) ' '.toUInt8 ++ ·) := by
  have hfuel : ∀ n, maskFrom ('*'.toUInt8 :: rest).length (rest.drop n)
      = maskBytes (rest.drop n) := by
    intro n
    refine maskFrom_maskBytes ?_
    rw [length_drop, length_cons]
    omega
  rw [maskBytes, length_cons, maskFrom, if_neg (by decide), if_neg, if_pos ⟨rfl, rfl⟩]
  · simp only [tail_cons, hfuel]
    rfl
  · rw [head?_cons, Option.some.injEq]
    rintro ⟨-, h⟩
    exact absurd h (by decide)

theorem maskBytes_plain {c : UInt8} {rest : List UInt8} (hq : isQuote c = false)
    (hslash : c = '/'.toUInt8 → rest.head? ≠ some '/'.toUInt8 ∧ rest.head? ≠ some '*'.toUInt8) :
    maskBytes (c :: rest) = (maskBytes rest).map (c :: ·) := by
  rw [maskBytes, length_cons, maskFrom, if_neg (by simp [hq]),
    if_neg fun h => (hslash h.1).1 h.2, if_neg fun h => (hslash h.1).2 h.2]
  rfl

theorem maskBytes_high {bs : List UInt8} (h : ∀ b ∈ bs, 128 ≤ b.toNat) (rest : List UInt8) :
    maskBytes (bs ++ rest) = (maskBytes rest).map (bs ++ ·) := by
  induction bs with
  | nil => simp
  | cons b bs ih =>
      have hb := h b mem_cons_self
      have hq : isQuote b = false := by
        have h₁ : b ≠ '\''.toUInt8 := ne_of_high hb (by decide)
        have h₂ : b ≠ '"'.toUInt8 := ne_of_high hb (by decide)
        have h₃ : b ≠ '`'.toUInt8 := ne_of_high hb (by decide)
        simp [isQuote, h₁, h₂, h₃]
      have hslash : b ≠ '/'.toUInt8 := ne_of_high hb (by decide)
      rw [cons_append, maskBytes_plain hq fun h => absurd h hslash,
        ih fun b' hb' => h b' (mem_cons_of_mem _ hb'), Option.map_map]
      rfl

/-! ## The end of a literal -/

theorem skipQuoted_plain {q c : UInt8} (hq : c ≠ q)
    (hslash : c = '\\'.toUInt8 → q = '`'.toUInt8) (rest : List UInt8) :
    skipQuoted q (c :: rest) = (skipQuoted q rest).map (· + 1) := by
  cases rest with
  | nil => simp [skipQuoted, hq]
  | cons d rest =>
      rw [skipQuoted, if_neg fun h => h.2 (hslash h.1), if_neg hq]

theorem skipQuoted_escaped {q : UInt8} (hq : q ≠ '`'.toUInt8) (d : UInt8) (rest : List UInt8) :
    skipQuoted q ('\\'.toUInt8 :: d :: rest) = (skipQuoted q rest).map (· + 2) := by
  rw [skipQuoted, if_pos ⟨rfl, hq⟩]

theorem skipQuoted_close {q : UInt8} (hq : q ≠ '\\'.toUInt8) (rest : List UInt8) :
    skipQuoted q (q :: rest) = some 1 := by
  cases rest with
  | nil => simp [skipQuoted]
  | cons d rest => rw [skipQuoted, if_neg fun h => hq h.1, if_pos rfl]

variable {q : Char}

theorem skipQuoted_high (hq : q.toNat < 128) {bs : List UInt8}
    (h : ∀ b ∈ bs, 128 ≤ b.toNat) (rest : List UInt8) :
    skipQuoted q.toUInt8 (bs ++ rest) = (skipQuoted q.toUInt8 rest).map (· + bs.length) := by
  induction bs with
  | nil => simp
  | cons b bs ih =>
      have hb := h b mem_cons_self
      have hslash : b ≠ '\\'.toUInt8 := ne_of_high hb (by decide)
      rw [cons_append, skipQuoted_plain (ne_of_high hb hq) fun h => absurd h hslash,
        ih fun b' hb' => h b' (mem_cons_of_mem _ hb'), Option.map_map]
      rfl

theorem quote_cases (hq : isQuoteChar q = true) : q.toNat < 128 ∧ q ≠ '\\' ∧ q ≠ '/' := by
  simp only [isQuoteChar, Bool.or_eq_true, decide_eq_true_eq] at hq
  rcases hq with (rfl | rfl) | rfl <;> decide

/-- One character of a literal that neither closes it nor escapes. -/
theorem skipQuoted_char (hquote : isQuoteChar q = true) (hq : c ≠ q)
    (hslash : q ≠ '`' → c ≠ '\\') (rest : Text) : skipQuoted q.toUInt8 (utf8 (c :: rest))
      = (skipQuoted q.toUInt8 (utf8 rest)).map (· + (String.utf8EncodeChar c).length) := by
  have hascii := (quote_cases hquote).1
  rw [utf8_cons]
  by_cases hc : c.toNat < 128
  · rw [utf8EncodeChar_ascii hc, singleton_append, length_singleton, skipQuoted_plain]
    · exact fun h => hq ((toUInt8_inj hc hascii).mp h)
    · intro h
      by_contra hne
      have hback : c = '\\' := (toUInt8_inj hc (by decide)).mp h
      exact hslash (fun h => hne (h ▸ rfl)) hback
  · exact skipQuoted_high hascii (high_of_mem hc) _

theorem skipQuoted_escape (hquote : isQuoteChar q = true) (hq : q ≠ '`') (c : Char) (rest : Text) :
    skipQuoted q.toUInt8 (utf8 ('\\' :: c :: rest))
      = (skipQuoted q.toUInt8 (utf8 rest)).map (· + ((String.utf8EncodeChar c).length + 1)) := by
  have hascii := (quote_cases hquote).1
  have hne : q.toUInt8 ≠ '`'.toUInt8 := fun h => hq ((toUInt8_inj hascii (by decide)).mp h)
  rw [utf8_cons, utf8_cons, utf8EncodeChar_backslash,
    singleton_append]
  by_cases hc : c.toNat < 128
  · rw [utf8EncodeChar_ascii hc, singleton_append, skipQuoted_escaped hne]
    rfl
  · -- the first byte is skipped, and the others neither close nor escape
    have hhigh := high_of_mem hc
    obtain ⟨b, bs, hbytes⟩ := exists_cons_of_ne_nil (String.utf8EncodeChar_ne_nil (c := c))
    rw [hbytes] at hhigh ⊢
    rw [cons_append, skipQuoted_escaped hne,
      skipQuoted_high hascii fun b' hb' => hhigh b' (mem_cons_of_mem _ hb'),
      Option.map_map]
    rfl

theorem skipQuoted_closed (hquote : isQuoteChar q = true) {content : Text}
    (h : Closed q content) (rest : Text) :
    skipQuoted q.toUInt8 (utf8 (content ++ q :: rest)) = some ((utf8 content).length + 1) := by
  obtain ⟨hascii, hback, -⟩ := quote_cases hquote
  induction h with
  | nil =>
      rw [nil_append, utf8_cons, utf8EncodeChar_ascii hascii, singleton_append,
        skipQuoted_close fun h => hback ((toUInt8_inj hascii (by decide)).mp h)]
      rfl
  | @plain c content hc hslash _ ih =>
      rw [cons_append, skipQuoted_char hquote hc hslash, ih, map_some, utf8_cons,
        length_append]
      congr 1
      omega
  | @escaped c content hq _ ih =>
      rw [cons_append, cons_append, skipQuoted_escape hquote hq, ih, map_some,
        utf8_cons, utf8_cons, length_append, length_append,
        utf8EncodeChar_backslash, length_singleton]
      congr 1
      omega

theorem closed_of_skipQuoted (hquote : isQuoteChar q = true) :
    ∀ {text : Text} {n : ℕ}, skipQuoted q.toUInt8 (utf8 text) = some n →
      ∃ content rest, text = content ++ q :: rest ∧ Closed q content
  | [], n, h => nomatch h
  | c :: rest, n, h => by
      obtain ⟨hascii, hback, -⟩ := quote_cases hquote
      by_cases hc : c = q
      · subst hc
        exact ⟨[], rest, rfl, .nil⟩
      · by_cases hslash : q ≠ '`' ∧ c = '\\'
        · obtain ⟨hq, rfl⟩ := hslash
          match rest with
          | [] =>
              have hne : '\\'.toUInt8 ≠ q.toUInt8 := fun h =>
                hc ((toUInt8_inj (by decide) hascii).mp h)
              simp [utf8, utf8EncodeChar_backslash, skipQuoted, hne] at h
          | d :: rest =>
              rw [skipQuoted_escape hquote hq] at h
              obtain ⟨m, hm, -⟩ := map_eq_some_iff.mp h
              obtain ⟨content, rest', rfl, hclosed⟩ := closed_of_skipQuoted hquote hm
              exact ⟨'\\' :: d :: content, rest', rfl, .escaped hq hclosed⟩
        · have hplain : q ≠ '`' → c ≠ '\\' := fun hq hback => hslash ⟨hq, hback⟩
          rw [skipQuoted_char hquote hc hplain] at h
          obtain ⟨m, hm, -⟩ := map_eq_some_iff.mp h
          obtain ⟨content, rest', rfl, hclosed⟩ := closed_of_skipQuoted hquote hm
          exact ⟨c :: content, rest', rfl, .plain hc hplain hclosed⟩

/-! ## The end of a block comment -/

theorem skipBlock_cons {c : UInt8} {rest : List UInt8}
    (h : ¬ (c = '*'.toUInt8 ∧ rest.head? = some '/'.toUInt8)) :
    skipBlock (c :: rest) = (skipBlock rest).map (· + 1) := by
  cases rest with
  | nil => rfl
  | cons d rest => rw [skipBlock, if_neg fun hcd => h ⟨hcd.1, congrArg some hcd.2⟩]

theorem skipBlock_char {rest : Text} (h : ¬ (c = '*' ∧ rest.head? = some '/')) :
    skipBlock (utf8 (c :: rest))
      = (skipBlock (utf8 rest)).map (· + (String.utf8EncodeChar c).length) := by
  rw [utf8_cons]
  by_cases hc : c.toNat < 128
  · rw [utf8EncodeChar_ascii hc, singleton_append, length_singleton, skipBlock_cons]
    rintro ⟨hstar, hslash⟩
    exact h ⟨(toUInt8_inj hc (by decide)).mp hstar, (head?_utf8 (by decide) rest).mp hslash⟩
  · have hhigh := high_of_mem hc
    generalize String.utf8EncodeChar c = bytes at hhigh ⊢
    induction bytes with
    | nil => simp
    | cons b bs ih =>
        have hb : b ≠ '*'.toUInt8 := ne_of_high (hhigh b mem_cons_self) (by decide)
        rw [cons_append, skipBlock_cons fun h => hb h.1,
          ih fun b' hb' => hhigh b' (mem_cons_of_mem _ hb'), Option.map_map]
        rfl

theorem not_blockEnd_cons {rest : Text} : ¬ ['*', '/'] <:+: c :: rest
      ↔ ¬ (c = '*' ∧ rest.head? = some '/') ∧ ¬ ['*', '/'] <:+: rest := by
  rw [infix_cons_iff, not_or]
  refine and_congr_left' (not_congr ?_)
  cases rest with
  | nil => simp
  | cons d rest => simp [eq_comm]

theorem skipBlock_closed {content : Text} (h : ¬ ['*', '/'] <:+: content) (rest : Text) :
    skipBlock (utf8 (content ++ '*' :: '/' :: rest)) = some ((utf8 content).length + 2) := by
  induction content with
  | nil =>
      rw [nil_append, utf8_cons, utf8_cons, utf8EncodeChar_star, utf8EncodeChar_slash]
      exact if_pos ⟨rfl, rfl⟩
  | cons c content ih =>
      obtain ⟨hc, hcontent⟩ := not_blockEnd_cons.mp h
      have hnext : ¬ (c = '*' ∧ (content ++ '*' :: '/' :: rest).head? = some '/') := by
        cases content with
        | nil => simp
        | cons d content => exact hc
      rw [cons_append, skipBlock_char hnext, ih hcontent, map_some, utf8_cons,
        length_append]
      congr 1
      omega

theorem skipBlock_none {text : Text} (h : ¬ ['*', '/'] <:+: text) :
    skipBlock (utf8 text) = none := by
  induction text with
  | nil => rfl
  | cons c text ih =>
      obtain ⟨hc, htext⟩ := not_blockEnd_cons.mp h
      rw [skipBlock_char hc, ih htext, map_none]

theorem exists_blockEnd (text : Text) :
    (∃ content rest, text = content ++ '*' :: '/' :: rest ∧ ¬ ['*', '/'] <:+: content)
      ∨ ¬ ['*', '/'] <:+: text := by
  induction text with
  | nil => exact Or.inr (by simp)
  | cons c text ih =>
      by_cases hc : c = '*' ∧ text.head? = some '/'
      · obtain ⟨rfl, hslash⟩ := hc
        obtain ⟨rest, rfl⟩ : ∃ rest, text = '/' :: rest := by
          cases text with
          | nil => cases hslash
          | cons d rest => exact ⟨rest, by rw [Option.some.inj hslash]⟩
        exact Or.inl ⟨[], rest, rfl, by simp⟩
      · rcases ih with ⟨content, rest, rfl, hcontent⟩ | htext
        · refine Or.inl ⟨c :: content, rest, rfl, not_blockEnd_cons.mpr ⟨?_, hcontent⟩⟩
          rintro ⟨rfl, hslash⟩
          refine hc ⟨rfl, ?_⟩
          cases content with
          | nil => cases hslash
          | cons d content => exact hslash
        · exact Or.inr (not_blockEnd_cons.mpr ⟨hc, htext⟩)

/-! ## The mask, region by region -/

theorem utf8_replicate (hc : c.toNat < 128) (n : ℕ) :
    utf8 (List.replicate n c) = List.replicate n c.toUInt8 := by
  induction n with
  | zero => rfl
  | succ n ih =>
      rw [replicate_succ, utf8_cons, ih, utf8EncodeChar_ascii hc, replicate_succ]
      rfl

/-- What stands for a comment in a mask, and what stands for a literal. -/
theorem utf8_spaces (n : ℕ) : utf8 (List.replicate n ' ') = List.replicate n ' '.toUInt8 :=
  utf8_replicate (by decide) n

theorem utf8_marks (n : ℕ) :
    utf8 (List.replicate n (Char.ofNat 1)) = List.replicate n (Char.ofNat 1).toUInt8 :=
  utf8_replicate (by decide) n

theorem mem_utf8 (hc : c.toNat < 128) {text : Text} : c.toUInt8 ∈ utf8 text ↔ c ∈ text := by
  induction text with
  | nil => simp
  | cons d text ih =>
      rw [utf8_cons, mem_append, ih, mem_cons]
      refine or_congr_left ?_
      by_cases hd : d.toNat < 128
      · rw [utf8EncodeChar_ascii hd, mem_singleton, toUInt8_inj hc hd]
      · refine iff_of_false ?_ ?_
        · intro hmem
          exact ne_of_high (high_of_mem hd _ hmem) hc rfl
        · rintro rfl
          exact hd hc

theorem maskBytes_region {r : Region} {after : Text} (h : r.EndsAt after) :
    maskBytes (utf8 (r.text ++ after)) = (maskBytes (utf8 after)).map (utf8 r.mask ++ ·) := by
  cases r with
  | code c =>
      obtain ⟨hquote, hslash⟩ := h
      show maskBytes (utf8 (c :: after)) = (maskBytes (utf8 after)).map (utf8 [c] ++ ·)
      rw [utf8_cons, utf8_cons, utf8_nil, append_nil]
      by_cases hc : c.toNat < 128
      · have hq : isQuote c.toUInt8 = false := by
          have hne : ∀ d : Char, d.toNat < 128 → c ≠ d → c.toUInt8 ≠ d.toUInt8 :=
            fun d hd hcd h => hcd ((toUInt8_inj hc hd).mp h)
          simp only [isQuoteChar, Bool.or_eq_false_iff, decide_eq_false_iff_not] at hquote
          simp [isQuote, hne _ (by decide) hquote.1.1, hne _ (by decide) hquote.1.2,
            hne _ (by decide) hquote.2]
        rw [utf8EncodeChar_ascii hc, singleton_append, maskBytes_plain hq]
        · rfl
        · intro hbyte
          obtain ⟨hline, hblock⟩ := hslash ((toUInt8_inj hc (by decide)).mp hbyte)
          exact ⟨fun h => hline ((head?_utf8 (by decide) after).mp h),
            fun h => hblock ((head?_utf8 (by decide) after).mp h)⟩
      · exact maskBytes_high (high_of_mem hc) _
  | quoted q content =>
      obtain ⟨hquote, hclosed⟩ := h
      have hascii := (quote_cases hquote).1
      have hq : isQuote q.toUInt8 = true := by
        simp only [isQuoteChar, Bool.or_eq_true, decide_eq_true_eq] at hquote
        rcases hquote with (rfl | rfl) | rfl <;> decide
      have htext : Region.text (.quoted q content) ++ after = q :: (content ++ q :: after) := by
        simp [Region.text]
      have hdrop : (utf8 (content ++ q :: after)).drop ((utf8 content).length + 1)
          = utf8 after := by
        rw [utf8_append, utf8_cons, utf8EncodeChar_ascii hascii, drop_append]
        simp
      rw [htext, utf8_cons, utf8EncodeChar_ascii hascii, singleton_append,
        maskBytes_quote hq, skipQuoted_closed hquote hclosed, bind_some, hdrop,
        Region.mask, utf8_marks]
      rfl
  | line content =>
      obtain ⟨hcontent, hafter⟩ := h
      have hplain : ∀ b ∈ utf8 content, decide (b ≠ '\n'.toUInt8) = true := by
        intro b hb
        refine decide_eq_true ?_
        rintro rfl
        exact hcontent ((mem_utf8 (by decide)).mp hb)
      have hhead : ∀ b, (utf8 after).head? = some b → b = '\n'.toUInt8 := by
        intro b hb
        cases after with
        | nil => cases hb
        | cons c after =>
            obtain rfl := hafter c rfl
            rw [(head?_utf8 (by decide) _).mpr rfl] at hb
            exact (Option.some.inj hb).symm
      have hstop : (utf8 after).takeWhile (· ≠ '\n'.toUInt8) = []
          ∧ (utf8 after).dropWhile (· ≠ '\n'.toUInt8) = utf8 after := by
        cases hbytes : utf8 after with
        | nil => exact ⟨rfl, rfl⟩
        | cons b bs =>
            obtain rfl := hhead b (by rw [hbytes]; rfl)
            simp
      have htext : utf8 (Region.text (.line content) ++ after)
          = '/'.toUInt8 :: '/'.toUInt8 :: (utf8 content ++ utf8 after) := by
        rw [Region.text, cons_append, cons_append, utf8_cons, utf8_cons, utf8_append,
          utf8EncodeChar_slash]
        rfl
      rw [htext, maskBytes_line, takeWhile_append_of_pos hplain,
        dropWhile_append_of_pos hplain, hstop.1, hstop.2, append_nil, Region.mask,
        utf8_spaces]
  | block content =>
      have htext : utf8 (Region.text (.block content) ++ after)
          = '/'.toUInt8 :: '*'.toUInt8 :: utf8 (content ++ '*' :: '/' :: after) := by
        show utf8 ('/' :: '*' :: (content ++ ['*', '/'] ++ after)) = _
        rw [utf8_cons, utf8_cons, utf8EncodeChar_slash, utf8EncodeChar_star, append_assoc]
        rfl
      have hdrop : (utf8 (content ++ '*' :: '/' :: after)).drop ((utf8 content).length + 2)
          = utf8 after := by
        rw [utf8_append, utf8_cons, utf8_cons, utf8EncodeChar_star, utf8EncodeChar_slash,
          drop_append]
        simp
      rw [htext, maskBytes_block, skipBlock_closed h, bind_some, hdrop, Region.mask,
        utf8_spaces]

variable {tail : Text}

theorem maskBytes_render : ∀ {regions : List Region}, Lexes tail regions →
    maskBytes (utf8 (render regions ++ tail))
      = (maskBytes (utf8 tail)).map (utf8 (maskText regions) ++ ·)
  | [], _ => by simp [render, maskText]
  | r :: rest, h => by
      have hrest := maskBytes_render h.2
      have hrender : render (r :: rest) ++ tail = r.text ++ (render rest ++ tail) := by
        simp [render]
      have hmask : utf8 (maskText (r :: rest)) = utf8 r.mask ++ utf8 (maskText rest) := by
        simp [maskText]
      rw [hrender, maskBytes_region h.1, hrest, Option.map_map, hmask]
      congr 1
      funext bytes
      simp

theorem maskBytes_unterminated (h : Unterminated tail) : maskBytes (utf8 tail) = none := by
  rcases h with ⟨q, content, rfl, hquote, hopen⟩ | ⟨content, rfl, hopen⟩
  · have hascii := (quote_cases hquote).1
    have hq : isQuote q.toUInt8 = true := by
      simp only [isQuoteChar, Bool.or_eq_true, decide_eq_true_eq] at hquote
      rcases hquote with (rfl | rfl) | rfl <;> decide
    have hnone : skipQuoted q.toUInt8 (utf8 content) = none := by
      by_contra hsome
      obtain ⟨n, hn⟩ := ne_none_iff_exists'.mp hsome
      obtain ⟨c, rest, hcontent, hclosed⟩ := closed_of_skipQuoted hquote hn
      exact hopen c rest hcontent hclosed
    rw [utf8_cons, utf8EncodeChar_ascii hascii, singleton_append, maskBytes_quote hq, hnone]
    rfl
  · rw [utf8_cons, utf8_cons, utf8EncodeChar_slash, utf8EncodeChar_star, singleton_append,
      singleton_append, maskBytes_block, skipBlock_none hopen]
    rfl

variable {regions : List Region}

theorem mask_render (h : Lexes [] regions) :
    maskNonExecutable (render regions) = some (maskText regions) := by
  have hbytes := maskBytes_render h
  rw [append_nil, utf8_nil, maskBytes_nil, map_some, append_nil] at hbytes
  rw [maskNonExecutable, hbytes]
  exact fromUtf8_utf8 _

theorem mask_unterminated (h : Lexes tail regions)
    (htail : Unterminated tail) : maskNonExecutable (render regions ++ tail) = none := by
  rw [maskNonExecutable, maskBytes_render h, maskBytes_unterminated htail]
  rfl

/-! ## Every query is lexed -/

theorem IsLexed.cons {r : Region} {after : Text}
    (h : IsLexed after regions tail) (hr : r.EndsAt after) :
    IsLexed (r.text ++ after) (r :: regions) tail := by
  refine ⟨⟨h.query_eq ▸ hr, h.lexes⟩, ?_, h.tail_eq⟩
  rw [h.query_eq]
  simp [render]

theorem IsLexed.open (h : tail = [] ∨ Unterminated tail) : IsLexed tail [] tail :=
  ⟨trivial, rfl, h⟩

theorem exists_lexed (query : Text) : ∃ regions tail, IsLexed query regions tail := by
  induction hn : query.length using Nat.strong_induction_on generalizing query with
  | _ n ih =>
    subst hn
    have hnext : ∀ (r : Region) (after : Text), query = r.text ++ after → r.text ≠ [] →
        r.EndsAt after → ∃ regions tail, IsLexed query regions tail := by
      intro r after hquery hne hends
      have hlt : after.length < query.length := by
        have := length_pos_iff.mpr hne
        rw [hquery, length_append]
        omega
      obtain ⟨regions, tail, hlexed⟩ := ih _ hlt after rfl
      exact ⟨r :: regions, tail, hquery ▸ hlexed.cons hends⟩
    cases query with
    | nil => exact ⟨[], [], .open (Or.inl rfl)⟩
    | cons c rest =>
      by_cases hquote : isQuoteChar c = true
      · by_cases hclosed : ∃ content after, rest = content ++ c :: after ∧ Closed c content
        · obtain ⟨content, after, rfl, hcontent⟩ := hclosed
          exact hnext (.quoted c content) after (by simp [Region.text]) nofun ⟨hquote, hcontent⟩
        · refine ⟨[], _, .open (Or.inr (Or.inl ⟨c, rest, rfl, hquote, ?_⟩))⟩
          intro content after hrest hcontent
          exact hclosed ⟨content, after, hrest, hcontent⟩
      · have hcode : isQuoteChar c = false := by simpa using hquote
        by_cases hline : c = '/' ∧ rest.head? = some '/'
        · obtain ⟨rfl, hhead⟩ := hline
          obtain ⟨text, rfl⟩ : ∃ text, rest = '/' :: text := by
            cases rest with
            | nil => cases hhead
            | cons d text => exact ⟨text, by rw [Option.some.inj hhead]⟩
          refine hnext (.line (text.takeWhile (· ≠ '\n'))) (text.dropWhile (· ≠ '\n')) ?_ nofun
            ⟨?_, ?_⟩
          · simp [Region.text]
          · intro hmem
            have := mem_takeWhile_imp hmem
            simp at this
          · intro d hd
            have := head?_dropWhile_not (p := (· ≠ '\n')) (l := text)
            rw [hd] at this
            simpa using this
        · by_cases hblock : c = '/' ∧ rest.head? = some '*'
          · obtain ⟨rfl, hhead⟩ := hblock
            obtain ⟨text, rfl⟩ : ∃ text, rest = '*' :: text := by
              cases rest with
              | nil => cases hhead
              | cons d text => exact ⟨text, by rw [Option.some.inj hhead]⟩
            rcases exists_blockEnd text with ⟨content, after, rfl, hcontent⟩ | hopen
            · exact hnext (.block content) after (by simp [Region.text]) nofun hcontent
            · exact ⟨[], _, .open (Or.inr (Or.inr ⟨text, rfl, hopen⟩))⟩
          · refine hnext (.code c) rest rfl nofun ⟨hcode, ?_⟩
            intro hslash
            exact ⟨fun h => hline ⟨hslash, h⟩, fun h => hblock ⟨hslash, h⟩⟩

end Cypher

end CodeGraph
