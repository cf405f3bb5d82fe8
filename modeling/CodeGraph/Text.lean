import Mathlib.Algebra.GroupWithZero.Nat
import Mathlib.Algebra.Group.Int.Defs
import Mathlib.Data.List.Lex
import Mathlib.Data.Char
import Mathlib.Order.Lattice
import Mathlib.Tactic.Common

/-!
# Text

Strings of the source as lists of characters. Comparison is the lexicographic
one of `List`, which is also the byte order of the source's strings: UTF-8
preserves the order of code points.
-/

namespace CodeGraph

open List

abbrev Text := List Char

instance instLawfulBEqText : LawfulBEq Text := inferInstance

instance instLawfulBEqTexts : LawfulBEq (List Text) := inferInstance

instance instIsTransText : IsTrans Text (· ≤ ·) := inferInstance

instance instAntisymmText : Std.Antisymm (α := Text) (· ≤ ·) := inferInstance

instance instTotalText : Std.Total (α := Text) (· ≤ ·) := inferInstance

theorem isAlpha_iff {c : Char} : c.isAlpha = true ↔
    (65 ≤ c.toNat ∧ c.toNat ≤ 90) ∨ (97 ≤ c.toNat ∧ c.toNat ≤ 122) := by
  change (decide (65 ≤ c.val ∧ c.val ≤ 90) || decide (97 ≤ c.val) && decide (c.val ≤ 122)) = true ↔ _
  simp [UInt32.le_iff_toNat_le]

/-- The two Unicode tables the lexers read. Everything is proved for every
table; `ascii` is one that a witness can run. -/
structure CharClass where
  isWhitespace : Char → Bool
  isAlphanumeric : Char → Bool

namespace CharClass

def ascii : CharClass where
  isWhitespace := Char.isWhitespace
  isAlphanumeric := Char.isAlphanum

end CharClass

/-! ## Numbers -/

def hexDigitValue (c : Char) : Option Nat :=
  if '0' ≤ c ∧ c ≤ '9' then some (c.toNat - 48)
  else if 'A' ≤ c ∧ c ≤ 'F' then some (c.toNat - 55)
  else if 'a' ≤ c ∧ c ≤ 'f' then some (c.toNat - 87)
  else none

def hexValue : Nat → Text → Option Nat
  | acc, [] => some acc
  | acc, c :: rest => do hexValue (acc * 16 + (← hexDigitValue c)) rest

/-- `from_str_radix(text, 16)` of an unsigned type below `bound`: one leading
`+` is allowed, no digit at all is not. -/
def fromStrRadix16 (bound : Nat) (text : Text) : Option Nat :=
  let digits := match text with
    | '+' :: rest => rest
    | text => text
  if digits = [] then none else (hexValue 0 digits).filter (· < bound)

/-! ## Trimming and quoting -/

/-- `text.trim()`. -/
def trim (cc : CharClass) (text : Text) : Text :=
  ((text.dropWhile cc.isWhitespace).reverse.dropWhile cc.isWhitespace).reverse

/-- `raw` as a string literal of Cypher. -/
def cypherStr (raw : Text) : Text :=
  '\'' :: raw.flatMap (fun c =>
    if c = '\\' then ['\\', '\\'] else if c = '\'' then ['\\', '\''] else [c]) ++ ['\'']

/-! ## Searching -/

def stripPrefix : (pre : Text) → Text → Option Text
  | [], text => some text
  | _ :: _, [] => none
  | p :: pre, c :: text => if p = c then stripPrefix pre text else none

/-- The texts before and after the first occurrence of `pat`. -/
def breakOn (pat : Text) : Text → Option (Text × Text)
  | [] => (stripPrefix pat []).map ([], ·)
  | c :: text =>
      match stripPrefix pat (c :: text) with
      | some rest => some ([], rest)
      | none => (breakOn pat text).map fun (before, after) => (c :: before, after)

/-- The text before the last occurrence of `pat`. -/
def beforeLast (pat : Text) : Text → Option Text
  | [] => (stripPrefix pat []).map fun _ => []
  | c :: text =>
      match beforeLast pat text with
      | some before => some (c :: before)
      | none => (stripPrefix pat (c :: text)).map fun _ => []

/-- `text.split(sep)`: the pieces between the separators, empty ones included. -/
def splitOnChar (sep : Char) : Text → List Text
  | [] => [[]]
  | c :: text =>
      if c = sep then [] :: splitOnChar sep text
      else
        match splitOnChar sep text with
        | [] => [[c]]
        | piece :: pieces => (c :: piece) :: pieces

/-- `text.split(pat)` for a text `pat`. -/
def splitOn (pat text : Text) : List Text :=
  match breakOn pat text with
  | some (before, after) =>
      if after.length < text.length then before :: splitOn pat after else [text]
  | none => [text]
termination_by text.length

/-- `pieces.join(sep)`. -/
def joinWith (sep : Text) : List Text → Text
  | [] => []
  | [piece] => piece
  | piece :: pieces => piece ++ sep ++ joinWith sep pieces

/-- The text after every leading `pat`. -/
def trimStartMatches (pat text : Text) : Text :=
  match stripPrefix pat text with
  | some rest => if rest.length < text.length then trimStartMatches pat rest else text
  | none => text
termination_by text.length

/-- `text.trim_end_matches(pat)`. -/
def trimEndMatches (pat text : Text) : Text := (trimStartMatches pat.reverse text.reverse).reverse

/-- The text after the last occurrence of `pat`, the whole text when there is
none. -/
def lastPiece (pat text : Text) : Text :=
  match beforeLast pat text with
  | some before => text.drop (before.length + pat.length)
  | none => text

theorem stripPrefix_eq : ∀ {pre text rest : Text}, stripPrefix pre text = some rest →
    text = pre ++ rest
  | [], _, _, h => by simpa [stripPrefix] using h
  | _ :: _, [], _, h => by simp [stripPrefix] at h
  | p :: pre, c :: text, rest, h => by
      rw [stripPrefix] at h
      split at h
      · next hpc => rw [hpc, stripPrefix_eq h, cons_append]
      · cases h

theorem stripPrefix_append (pre rest : Text) : stripPrefix pre (pre ++ rest) = some rest := by
  induction pre with
  | nil => rfl
  | cons p pre ih => simpa [stripPrefix] using ih

theorem breakOn_eq {pat : Text} : ∀ {text before after : Text},
    breakOn pat text = some (before, after) → text = before ++ pat ++ after
  | [], before, after, h => by
      obtain ⟨rest, hrest, heq⟩ := Option.map_eq_some_iff.mp h
      cases heq
      simpa using stripPrefix_eq hrest
  | c :: text, before, after, h => by
      rw [breakOn] at h
      split at h
      · next rest hrest =>
        cases h
        simpa using stripPrefix_eq hrest
      · obtain ⟨⟨b, a⟩, hba, heq⟩ := Option.map_eq_some_iff.mp h
        cases heq
        rw [breakOn_eq hba]
        simp

theorem breakOn_eq_none {pat : Text} : ∀ {text : Text}, ¬pat <:+: text → breakOn pat text = none
  | [], h => by
      cases hs : stripPrefix pat [] with
      | none => rw [breakOn, hs]; rfl
      | some rest => exact absurd ⟨[], rest, (stripPrefix_eq hs).symm⟩ h
  | c :: text, h => by
      cases hs : stripPrefix pat (c :: text) with
      | none =>
          rw [breakOn, hs, breakOn_eq_none fun hin => h (hin.trans (suffix_cons c _).isInfix)]
          rfl
      | some rest => exact absurd ⟨[], rest, (stripPrefix_eq hs).symm⟩ h

/-- A pattern that begins no earlier than behind `before` is found there. -/
theorem breakOn_append {pat : Text} (hpat : pat ≠ []) : ∀ {before : Text},
    ¬pat <:+: before ++ pat.dropLast → ∀ after : Text,
      breakOn pat (before ++ (pat ++ after)) = some (before, after)
  | [], _, after => by
      obtain ⟨c, pat, rfl⟩ := exists_cons_of_ne_nil hpat
      rw [nil_append, cons_append, breakOn, ← cons_append, stripPrefix_append]
  | c :: before, h, after => by
      have hrest : ¬pat <:+: before ++ pat.dropLast := fun hin =>
        h (hin.trans (suffix_cons c _).isInfix)
      have hnone : stripPrefix pat (c :: (before ++ (pat ++ after))) = none := by
        refine Option.eq_none_iff_forall_ne_some.mpr fun rest hrest => h ?_
        have hpre : pat <+: c :: before ++ (pat ++ after) := ⟨rest, (stripPrefix_eq hrest).symm⟩
        have hlong : c :: before ++ pat.dropLast <+: c :: before ++ (pat ++ after) :=
          (prefix_append_right_inj _).mpr
            (( dropLast_prefix pat).trans (prefix_append pat after))
        refine (prefix_of_prefix_length_le hpre hlong ?_).isInfix
        rw [length_append, length_cons, length_dropLast]
        omega
      rw [cons_append, breakOn, hnone, breakOn_append hpat hrest]
      rfl

theorem breakOn_first {pat : Text} (hpat : pat ≠ []) : ∀ {text before after : Text},
    breakOn pat text = some (before, after) → ¬pat <:+: before ++ pat.dropLast
  | [], before, after, h => by
      obtain ⟨rest, hrest, -⟩ := Option.map_eq_some_iff.mp h
      exact absurd (append_eq_nil_iff.mp (stripPrefix_eq hrest).symm).1 hpat
  | c :: text, before, after, h => by
      have hshort : ¬pat <:+: pat.dropLast := fun hin => by
        have hlen := hin.length_le
        rw [length_dropLast] at hlen
        have hpos := length_pos_of_ne_nil hpat
        omega
      cases hs : stripPrefix pat (c :: text) with
      | some rest =>
          rw [breakOn, hs] at h
          cases h
          rwa [nil_append]
      | none =>
          rw [breakOn, hs] at h
          obtain ⟨⟨b, a⟩, hba, heq⟩ := Option.map_eq_some_iff.mp h
          cases heq
          rw [cons_append, infix_cons_iff]
          rintro (hpre | hin)
          · have hlong : c :: (b ++ pat.dropLast) <+: c :: text := by
              rw [cons_prefix_cons, breakOn_eq hba, append_assoc]
              exact ⟨rfl, (prefix_append_right_inj _).mpr
                (( dropLast_prefix pat).trans (prefix_append pat _))⟩
            obtain ⟨rest, hrest⟩ := hpre.trans hlong
            rw [← hrest, stripPrefix_append] at hs
            cases hs
          · exact breakOn_first hpat hba hin

theorem breakOn_ne_none {pat : Text} : ∀ {text : Text}, pat <:+: text → breakOn pat text ≠ none
  | [], h => by
      rw [infix_nil.mp h]
      exact Option.some_ne_none _
  | c :: text, h => by
      cases hs : stripPrefix pat (c :: text) with
      | some rest =>
          rw [breakOn, hs]
          exact Option.some_ne_none _
      | none =>
          rcases infix_cons_iff.mp h with ⟨rest, hrest⟩ | hin
          · rw [← hrest, stripPrefix_append] at hs
            cases hs
          · rw [breakOn, hs]
            exact fun hmap => breakOn_ne_none hin (Option.map_eq_none_iff.mp hmap)

theorem breakOn_eq_none_iff {pat text : Text} : breakOn pat text = none ↔ ¬pat <:+: text :=
  ⟨fun h hin => breakOn_ne_none hin h, breakOn_eq_none⟩

/-! ## Loops that do not fail -/

theorem mapM_eq_pure {α β : Type} {m : Type → Type} [Monad m] [LawfulMonad m] {f : α → m β}
    {g : α → β} {l : List α} (h : ∀ a ∈ l, f a = pure (g a)) : l.mapM f = pure (l.map g) := by
  induction l with
  | nil => rfl
  | cons a l ih =>
      rw [mapM_cons, h a mem_cons_self, pure_bind,
        ih fun b hb => h b (mem_cons_of_mem _ hb), pure_bind, map_cons]

end CodeGraph
