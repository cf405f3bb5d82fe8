import Mathlib.Data.List.Induction
import CodeGraph.GateVerdicts

/-!
# The appended clause

`inject_limit_if_absent` cuts the query where its mask ends and appends the clause
on a line of its own. The cut falls between two regions, and a newline after the
last of them ends a line comment and nothing else, so the mask of the result is the
mask of the cut with the clause behind it.
-/

namespace CodeGraph

open List

namespace Cypher

open Percent (utf8 utf8_nil utf8_append utf8_cons fromUtf8 fromUtf8_utf8)

/-- `is_ascii_whitespace` of a character. -/
def isSeparatorChar (c : Char) : Bool :=
  c = ' ' || c = '\t' || c = '\n' || c = Char.ofNat 12 || c = '\r'

/-- A mask without the separators it ends in. -/
def executablePart (masked : Text) : Text :=
  (masked.reverse.dropWhile isSeparatorChar).reverse

def withoutTerminator (text : Text) : Text :=
  if text.getLast? = some ';' then text.dropLast else text

/-! ## The end of the mask -/

theorem eq_nil_or_concat (text : Text) : text = [] ∨ ∃ init c, text = init ++ [c] := by
  rcases List.eq_nil_or_concat text with hnil | ⟨init, c, hconcat⟩
  · exact Or.inl hnil
  · exact Or.inr ⟨init, c, hconcat.trans List.concat_eq_append⟩

theorem isSeparator_toUInt8 {c : Char} (hc : c.toNat < 128) :
    isSeparator c.toUInt8 = isSeparatorChar c := by
  have hbyte : ∀ d : Char, d.toNat < 128 → (c.toUInt8 == d.toUInt8) = decide (c = d) := by
    intro d hd
    rw [Bool.eq_iff_iff, beq_iff_eq, decide_eq_true_eq, toUInt8_inj hc hd]
  have hfeed : (12 : UInt8) = (Char.ofNat 12).toUInt8 := by decide
  unfold isSeparator isSeparatorChar
  rw [hfeed, hbyte _ (by decide), hbyte _ (by decide), hbyte _ (by decide), hbyte _ (by decide),
    hbyte _ (by decide)]

theorem not_isSeparator_of_high {b : UInt8} (hb : 128 ≤ b.toNat) : isSeparator b = false := by
  have h₁ : b ≠ ' '.toUInt8 := ne_of_high hb (by decide)
  have h₂ : b ≠ '\t'.toUInt8 := ne_of_high hb (by decide)
  have h₃ : b ≠ '\n'.toUInt8 := ne_of_high hb (by decide)
  have h₄ : b ≠ 12 := ne_of_high (c := Char.ofNat 12) hb (by decide)
  have h₅ : b ≠ '\r'.toUInt8 := ne_of_high hb (by decide)
  simp [isSeparator, h₁, h₂, h₃, h₄, h₅]

theorem reverse_utf8_concat (text : Text) (c : Char) :
    ∃ b bs, (utf8 (text ++ [c])).reverse = b :: bs
      ∧ (c.toNat < 128 → b = c.toUInt8 ∧ bs = (utf8 text).reverse)
      ∧ (¬ c.toNat < 128 → 128 ≤ b.toNat) := by
  rw [utf8_append, utf8_cons, utf8_nil, append_nil, reverse_append]
  by_cases hc : c.toNat < 128
  · rw [utf8EncodeChar_ascii hc]
    exact ⟨c.toUInt8, (utf8 text).reverse, rfl, fun _ => ⟨rfl, rfl⟩, fun h => absurd hc h⟩
  · have hne : (String.utf8EncodeChar c).reverse ≠ [] := by
      rw [Ne, reverse_eq_nil_iff]
      exact String.utf8EncodeChar_ne_nil
    obtain ⟨b, bs, hbytes⟩ := exists_cons_of_ne_nil hne
    refine ⟨b, bs ++ (utf8 text).reverse, by rw [hbytes]; rfl, fun h => absurd h hc, fun _ => ?_⟩
    have hmem : b ∈ (String.utf8EncodeChar c).reverse := by
      rw [hbytes]
      exact mem_cons_self
    exact high_of_mem hc b (mem_reverse.mp hmem)

theorem isSeparator_of_mem {text : Text} (h : ∀ c ∈ text, isSeparatorChar c = true) :
    ∀ b ∈ (utf8 text).reverse, isSeparator b = true := by
  intro b hb
  obtain ⟨c, hc, hbyte⟩ := mem_flatMap.mp (mem_reverse.mp hb)
  have hsep := h c hc
  have hascii : c.toNat < 128 := by
    simp only [isSeparatorChar, Bool.or_eq_true, decide_eq_true_eq] at hsep
    rcases hsep with (((rfl | rfl) | rfl) | rfl) | rfl <;> decide
  rw [utf8EncodeChar_ascii hascii, mem_singleton] at hbyte
  rw [hbyte, isSeparator_toUInt8 hascii, hsep]

theorem dropWhile_reverse_utf8 (masked : Text) :
    (utf8 masked).reverse.dropWhile isSeparator = (utf8 (executablePart masked)).reverse := by
  obtain ⟨back, hback, hsep⟩ : ∃ back, masked = executablePart masked ++ back
      ∧ ∀ c ∈ back, isSeparatorChar c = true := by
    refine ⟨(masked.reverse.takeWhile isSeparatorChar).reverse, ?_, ?_⟩
    · rw [executablePart, ← reverse_append, takeWhile_append_dropWhile,
        reverse_reverse]
    · intro c hc
      exact mem_takeWhile_imp (mem_reverse.mp hc)
  have hstop : (utf8 (executablePart masked)).reverse.dropWhile isSeparator
      = (utf8 (executablePart masked)).reverse := by
    rcases eq_nil_or_concat (executablePart masked) with hnil | ⟨init, c, hconcat⟩
    · rw [hnil]
      rfl
    · have hc : isSeparatorChar c = false := by
        have hhead : (masked.reverse.dropWhile isSeparatorChar).head? = some c := by
          rw [← reverse_reverse (masked.reverse.dropWhile isSeparatorChar),
            ← executablePart, hconcat]
          simp
        have := head?_dropWhile_not (p := isSeparatorChar) (l := masked.reverse)
        rw [hhead] at this
        simpa using this
      rw [hconcat]
      obtain ⟨b, bs, hbytes, hascii, hhigh⟩ := reverse_utf8_concat init c
      have hb : ¬ isSeparator b = true := by
        rw [Bool.not_eq_true]
        by_cases hlt : c.toNat < 128
        · rw [(hascii hlt).1, isSeparator_toUInt8 hlt, hc]
        · exact not_isSeparator_of_high (hhigh hlt)
      rw [hbytes, dropWhile_cons_of_neg hb]
  conv_lhs => rw [hback]
  rw [utf8_append, reverse_append, dropWhile_append_of_pos (isSeparator_of_mem hsep),
    hstop]

/-- One terminator more is left off. -/
theorem kept_eq (masked : Text) :
    (let kept := (utf8 masked).reverse.dropWhile isSeparator
      if kept.head? = some ';'.toUInt8 then kept.tail else kept)
      = (utf8 (withoutTerminator (executablePart masked))).reverse := by
  simp only [dropWhile_reverse_utf8]
  rcases eq_nil_or_concat (executablePart masked) with hnil | ⟨init, c, hconcat⟩
  · rw [hnil]
    rfl
  · obtain ⟨b, bs, hbytes, hascii, hhigh⟩ := reverse_utf8_concat init c
    rw [hconcat, withoutTerminator, hbytes, head?_cons]
    by_cases hc : c = ';'
    · subst hc
      obtain ⟨rfl, rfl⟩ := hascii (by decide)
      simp
    · have hb : b ≠ ';'.toUInt8 := by
        by_cases hlt : c.toNat < 128
        · rw [(hascii hlt).1]
          exact fun h => hc ((toUInt8_inj hlt (by decide)).mp h)
        · exact ne_of_high (hhigh hlt) (by decide)
      rw [if_neg fun h => hb (Option.some.inj h), if_neg (by simpa using hc), hbytes]

/-! ## The cut falls between two regions -/

theorem executablePart_append {text back : Text} (h : ∀ c ∈ back, isSeparatorChar c = true) :
    executablePart (text ++ back) = executablePart text := by
  unfold executablePart
  rw [reverse_append, dropWhile_append_of_pos fun c hc => h c (mem_reverse.mp hc)]

theorem executablePart_concat {c : Char} (h : isSeparatorChar c = false) (text : Text) :
    executablePart (text ++ [c]) = text ++ [c] := by
  unfold executablePart
  rw [reverse_append, reverse_singleton, singleton_append,
    dropWhile_cons_of_neg (by simp [h]), reverse_cons, reverse_reverse]

theorem mask_end (r : Region) : (∀ c ∈ r.mask, isSeparatorChar c = true)
    ∨ ∃ init c, r.mask = init ++ [c] ∧ isSeparatorChar c = false ∧ (c = ';' → r = .code ';') := by
  cases r with
  | code c =>
      by_cases hc : isSeparatorChar c = true
      · refine Or.inl ?_
        intro d hd
        rw [mem_singleton.mp hd]
        exact hc
      · refine Or.inr ⟨[], c, rfl, by simpa using hc, ?_⟩
        rintro rfl
        rfl
  | quoted q content =>
      refine Or.inr ⟨List.replicate ((utf8 content).length + 1) (Char.ofNat 1), Char.ofNat 1, ?_,
        by decide, fun h => absurd h (by decide)⟩
      rw [Region.mask, replicate_succ']
  | line content =>
      refine Or.inl ?_
      intro c hc
      rw [eq_of_mem_replicate hc]
      decide
  | block content =>
      refine Or.inl ?_
      intro c hc
      rw [eq_of_mem_replicate hc]
      decide

/-- The regions before the last separators; the last of them ends in something
else. -/
theorem exists_executable (regions : List Region) :
    ∃ front back, regions = front ++ back ∧ maskText front = executablePart (maskText regions) := by
  induction regions using List.reverseRecOn with
  | nil => exact ⟨[], [], rfl, rfl⟩
  | append_singleton init r ih =>
      have hmask : maskText (init ++ [r]) = maskText init ++ r.mask := by
        rw [maskText_append, maskText_cons]
        exact congrArg _ (append_nil _)
      rcases mask_end r with hsep | ⟨pre, c, hr, hc, -⟩
      · obtain ⟨front, back, hinit, hfront⟩ := ih
        refine ⟨front, back ++ [r], by rw [hinit, append_assoc], ?_⟩
        rw [hmask, executablePart_append hsep, hfront]
      · refine ⟨init ++ [r], [], (append_nil _).symm, ?_⟩
        rw [hmask, hr, ← append_assoc, executablePart_concat hc]

theorem exists_front (regions : List Region) : ∃ front back, regions = front ++ back
    ∧ maskText front = withoutTerminator (executablePart (maskText regions)) := by
  obtain ⟨front, back, hregions, hfront⟩ := exists_executable regions
  rw [← hfront]
  by_cases hlast : (maskText front).getLast? = some ';'
  · rcases List.eq_nil_or_concat front with rfl | ⟨init, r, hconcat⟩
    · cases hlast
    · rw [concat_eq_append] at hconcat
      have hmask : maskText front = maskText init ++ r.mask := by
        rw [hconcat, maskText_append, maskText_cons]
        exact congrArg _ (append_nil _)
      -- the region that ends in the terminator is the terminator
      have hr : r = .code ';' := by
        rcases mask_end r with hsep | ⟨pre, c, hpre, -, hcode⟩
        · have hne : r.mask ≠ [] := by
            cases r <;> simp [Region.mask, replicate_succ]
          rw [hmask, getLast?_append_of_ne_nil _ hne] at hlast
          exact absurd (hsep _ (mem_of_getLast? hlast)) (by decide)
        · rw [hmask, hpre, ← append_assoc, getLast?_concat] at hlast
          exact hcode (Option.some.inj hlast)
      subst hr
      refine ⟨init, .code ';' :: back, ?_, ?_⟩
      · rw [hregions, hconcat, append_assoc]
        rfl
      · rw [withoutTerminator, if_pos hlast, hmask]
        exact (dropLast_concat).symm
  · exact ⟨front, back, hregions, by rw [withoutTerminator, if_neg hlast]⟩

theorem lexes_newline {tail : Text} (rest : Text) : ∀ {regions : List Region}, Lexes tail regions →
    Lexes ('\n' :: rest) regions
  | [], _ => trivial
  | r :: regions, h => by
      refine ⟨?_, lexes_newline rest h.2⟩
      have hhead : ∀ d, (render regions ++ '\n' :: rest).head? = some d →
          d = '\n' ∨ (render regions ++ tail).head? = some d := by
        intro d hd
        cases regions with
        | nil => exact Or.inl (Option.some.inj hd).symm
        | cons r' regions =>
            refine Or.inr (Eq.trans ?_ hd)
            cases r' <;> rfl
      have hends := h.1
      cases r with
      | code c =>
          refine ⟨hends.1, ?_⟩
          intro hc
          obtain ⟨h₁, h₂⟩ := hends.2 hc
          constructor
          · intro hd
            exact (hhead _ hd).elim (fun h => absurd h (by decide)) h₁
          · intro hd
            exact (hhead _ hd).elim (fun h => absurd h (by decide)) h₂
      | quoted q content => exact hends
      | line content =>
          refine ⟨hends.1, ?_⟩
          intro d hd
          exact (hhead d hd).elim id (hends.2 d)
      | block content => exact hends

theorem lexes_limitClause (limit : ℕ) : Lexes [] (codeOf (limitClause limit)) := by
  refine lexes_codeOf ?_
  have hword : ∀ c ∈ "\nLIMIT ".toList, isQuoteChar c = false ∧ c ≠ '/' := by
    simp [isQuoteChar]
  intro c hc
  rcases mem_append.mp hc with hc | hc
  · exact hword c hc
  · have hdigit := Nat.isDigit_of_mem_toDigits (by decide) le_rfl hc
    have hne : ∀ d : Char, d.isDigit = false → c ≠ d := by
      rintro d hd rfl
      rw [hd] at hdigit
      cases hdigit
    have h₁ : c ≠ '\'' := hne _ (by decide)
    have h₂ : c ≠ '"' := hne _ (by decide)
    have h₃ : c ≠ '`' := hne _ (by decide)
    exact ⟨by simp [isQuoteChar, h₁, h₂, h₃], hne _ (by decide)⟩

theorem executablePrefix_render {regions front back : List Region} (h : Lexes [] regions)
    (hregions : regions = front ++ back)
    (hfront : maskText front = withoutTerminator (executablePart (maskText regions))) :
    executablePrefix (render regions) = render front := by
  have hlexes := (lexes_append.mp (hregions ▸ h)).1
  have hrender : render regions = render front ++ render back := by
    rw [hregions, render, flatMap_append]
    rfl
  have hkept := kept_eq (maskText regions)
  simp only [executablePrefix, mask_render h]
  simp only at hkept
  rw [hkept, length_reverse, ← hfront, length_maskText hlexes, hrender, utf8_append,
    take_left, fromUtf8_utf8]
  rfl

/-- The query that goes to the engine: what is executable in it is what is
executable in the caller's, less one terminator at its end, and then the clause. -/
theorem inject_limit_masked {query : Text} (limit : ℕ)
    (hgate : forbiddenCypherKeyword query = none) (hlimit : hasLimitClause query = false) :
    ∃ masked, maskNonExecutable query = some masked
      ∧ (injectLimitIfAbsent query limit).2 = true
      ∧ maskNonExecutable (injectLimitIfAbsent query limit).1
        = some (withoutTerminator (executablePart masked) ++ limitClause limit) := by
  obtain ⟨masked, hmask⟩ : ∃ masked, maskNonExecutable query = some masked := by
    cases hmask : maskNonExecutable query with
    | none => simp [forbiddenCypherKeyword, hmask] at hgate
    | some masked => exact ⟨masked, rfl⟩
  obtain ⟨regions, hlexes, rfl, rfl⟩ := lexed_of_mask hmask
  obtain ⟨front, back, hregions, hfront⟩ := exists_front regions
  have hinject : injectLimitIfAbsent (render regions) limit
      = (render front ++ limitClause limit, true) := by
    rw [injectLimitIfAbsent, if_neg (by simp [hlimit]),
      executablePrefix_render hlexes hregions hfront]
  have hlexed : Lexes [] (front ++ codeOf (limitClause limit)) := by
    refine lexes_append.mpr ⟨?_, lexes_limitClause limit⟩
    rw [render_codeOf, append_nil]
    exact lexes_newline _ (lexes_append.mp (hregions ▸ hlexes)).1
  have hrender : render front ++ limitClause limit
      = render (front ++ codeOf (limitClause limit)) := by
    rw [render, render, flatMap_append, ← render, ← render, render_codeOf]
  refine ⟨maskText regions, hmask, by rw [hinject], ?_⟩
  rw [hinject, hrender, mask_render hlexed, maskText_append, maskText_codeOf, hfront]

/-- A statement with its terminator and a comment behind it. -/
def commentedQuery : Text := "RETURN 1; // all;".toList

theorem mask_commentedQuery : maskNonExecutable commentedQuery = some "RETURN 1;        ".toList := by
  have hlexes : Lexes [] (codeOf "RETURN 1; ".toList ++ [.line " all;".toList]) := by
    refine lexes_append.mpr ⟨lexes_codeOf (by simp [isQuoteChar]), ⟨by decide, nofun⟩, trivial⟩
  exact mask_render hlexes

theorem inject_limit_commentedQuery :
    ∃ masked, maskNonExecutable commentedQuery = some masked
      ∧ (injectLimitIfAbsent commentedQuery 5).2 = true
      ∧ maskNonExecutable (injectLimitIfAbsent commentedQuery 5).1
        = some (withoutTerminator (executablePart masked) ++ limitClause 5) := by
  refine inject_limit_masked 5 ?_ ?_
  · have hfind : forbiddenCypherKeywords.find? (fun kw =>
        containsKeywordToken (toAsciiUppercase "RETURN 1;        ".toList) kw.toList) = none := by
      decide +kernel
    have hcall : carriesUnlistedProcedure (toAsciiUppercase "RETURN 1;        ".toList) = false := by
      decide +kernel
    simp only [forbiddenCypherKeyword, mask_commentedQuery, hfind, hcall, Bool.false_eq_true,
      if_false]
  · have hnone : (keywordTokenPositions (toAsciiLowercase "RETURN 1;        ".toList)
        "limit".toList .sigilOrAlias).isEmpty = true := by decide +kernel
    simp only [hasLimitClause, mask_commentedQuery, Option.getD_some, hnone, Bool.not_true]

end Cypher

end CodeGraph
