import CodeGraph.CypherRegions
import CodeGraph.Lib.RunLengths

/-!
# What the gate does not see

The verdicts of the gate are those of the mask, and the mask of a region says of its
content no more than how long it is. A scan for a keyword or a separator does not
tell masks apart that differ in such lengths (`RunLengths.Alike`).
-/

namespace CodeGraph

open List

namespace Cypher

open Percent (utf8 utf8_nil utf8_append utf8_cons fromUtf8 fromUtf8_utf8)
open RunLengths

/-! ## Other contents -/

/-- Regions that differ in the contents of literals, identifiers and comments. A
doubled quote closes a literal and opens the next, so adjacent literals count as
one content. -/
inductive Like : List Region → List Region → Prop
  | nil : Like [] []
  | code (c : Char) {a b : List Region} : Like a b → Like (.code c :: a) (.code c :: b)
  | quoted (q : Char) {contents contents' : List Text} {a b : List Region} :
      contents ≠ [] → contents' ≠ [] → Like a b →
      Like (contents.map (.quoted q) ++ a) (contents'.map (.quoted q) ++ b)
  | line (content content' : Text) {a b : List Region} : Like a b →
      Like (.line content :: a) (.line content' :: b)
  | block (content content' : Text) {a b : List Region} : Like a b →
      Like (.block content :: a) (.block content' :: b)

/-- What stands for a literal, and what stands for a comment. -/
def IsBlank (c : Char) : Prop := c = Char.ofNat 1 ∨ c = ' '

theorem isBlank_token : IsBlank (Char.ofNat 1) := Or.inl rfl

theorem isBlank_space : IsBlank ' ' := Or.inr rfl

def IsBlankByte (b : UInt8) : Prop := b = maskedToken ∨ b = ' '.toUInt8

theorem maskText_append (a b : List Region) : maskText (a ++ b) = maskText a ++ maskText b :=
  flatMap_append

theorem maskText_cons (r : Region) (regions : List Region) :
    maskText (r :: regions) = r.mask ++ maskText regions := rfl

theorem maskText_quoted (q : Char) {contents : List Text} (h : contents ≠ []) :
    ∃ n, maskText (contents.map (.quoted q)) = List.replicate (n + 1) (Char.ofNat 1) := by
  induction contents with
  | nil => exact absurd rfl h
  | cons content contents ih =>
      by_cases hrest : contents = []
      · subst hrest
        exact ⟨(utf8 content).length + 1, by simp [maskText, Region.mask]⟩
      · obtain ⟨n, hn⟩ := ih hrest
        refine ⟨(utf8 content).length + 2 + n, ?_⟩
        rw [map_cons, maskText_cons, hn, Region.mask, ← replicate_add]
        rfl

theorem Like.mask {a b : List Region} (h : Like a b) : Alike IsBlank (maskText a) (maskText b) := by
  induction h with
  | nil => exact .nil
  | code c _ ih => exact .cons c ih
  | quoted q hne hne' _ ih =>
      obtain ⟨j, hj⟩ := maskText_quoted q hne
      obtain ⟨k, hk⟩ := maskText_quoted q hne'
      rw [maskText_append, maskText_append, hj, hk]
      exact .run isBlank_token j k ih
  | line content content' _ ih =>
      exact .run isBlank_space ((utf8 content).length + 1) ((utf8 content').length + 1) ih
  | block content content' _ ih =>
      exact .run isBlank_space ((utf8 content).length + 3) ((utf8 content').length + 3) ih

variable {c : Char}

theorem IsBlank.byte (h : IsBlank c) : c.toNat < 128 ∧ IsBlankByte c.toUInt8 := by
  rcases h with rfl | rfl
  · exact ⟨by decide, Or.inl (by decide)⟩
  · exact ⟨by decide, Or.inr rfl⟩

variable {s t : Text}

theorem alike_utf8 (h : Alike IsBlank s t) : Alike IsBlankByte (utf8 s) (utf8 t) := by
  induction h with
  | nil => exact .nil
  | cons c _ ih =>
      rw [utf8_cons, utf8_cons]
      exact (Alike.refl _).append ih
  | run hc j k _ ih =>
      obtain ⟨hascii, hbyte⟩ := hc.byte
      rw [utf8_append, utf8_append, utf8_replicate hascii, utf8_replicate hascii]
      exact .run hbyte j k ih

theorem alike_upper (h : Alike IsBlank s t) :
    Alike IsBlank (toAsciiUppercase s) (toAsciiUppercase t) := by
  refine h.map ?_
  rintro c (rfl | rfl)
  · exact Or.inl (by decide)
  · exact Or.inr (by decide)

theorem alike_lower (h : Alike IsBlank s t) :
    Alike IsBlank (toAsciiLowercase s) (toAsciiLowercase t) := by
  refine h.map ?_
  rintro c (rfl | rfl)
  · exact Or.inl (by decide)
  · exact Or.inr (by decide)

/-! ## Keywords -/

structure KeywordAt (pre post : List UInt8) (exemption : IdentifierExemption) : Prop where
  left : pre.getLast?.any isIdentChar = false
  right : post.head?.any isIdentChar = false
  named : inIdentifierPosition pre pre.length exemption = false

theorem inIdentifierPosition_append (pre rest : List UInt8) (exemption : IdentifierExemption) :
    inIdentifierPosition (pre ++ rest) pre.length exemption
      = inIdentifierPosition pre pre.length exemption := by
  unfold inIdentifierPosition
  rw [take_left, take_length]

variable {haystack needle : Text} {exemption : IdentifierExemption}

theorem any_keywordTokenPositions (hne : utf8 needle ≠ []) (f : ℕ → Bool) :
    (keywordTokenPositions haystack needle exemption).any f = true
      ↔ ∃ pre post, utf8 haystack = pre ++ utf8 needle ++ post
          ∧ KeywordAt pre post exemption ∧ f pre.length = true := by
  simp only [keywordTokenPositions]
  have hpos := length_pos_iff.mpr hne
  constructor
  · intro h
    split at h
    · cases h
    · obtain ⟨i, hi, hf⟩ := any_eq_true.mp h
      obtain ⟨hrange, hi⟩ := mem_filter.mp hi
      rw [mem_range] at hrange
      simp only [Bool.and_eq_true, beq_iff_eq, Bool.not_eq_true'] at hi
      obtain ⟨⟨⟨hword, hleft⟩, hright⟩, hnamed⟩ := hi
      have hlen : ((utf8 haystack).take i).length = i := by
        rw [length_take]
        omega
      have hsplit : utf8 haystack = (utf8 haystack).take i ++ utf8 needle
          ++ (utf8 haystack).drop (i + (utf8 needle).length) := by
        have hrest := take_append_drop (utf8 needle).length ((utf8 haystack).drop i)
        rw [hword, drop_drop] at hrest
        rw [append_assoc, hrest, take_append_drop]
      refine ⟨_, _, hsplit, ⟨hleft, hright, ?_⟩, by rw [hlen]; exact hf⟩
      rw [← inIdentifierPosition_append _ ((utf8 haystack).drop i), take_append_drop, hlen]
      exact hnamed
  · rintro ⟨pre, post, hsplit, hat, hf⟩
    have hlen := congrArg List.length hsplit
    rw [length_append, length_append] at hlen
    rw [if_neg (by rw [not_or]; exact ⟨hne, by omega⟩)]
    refine any_eq_true.mpr ⟨pre.length, mem_filter.mpr ⟨mem_range.mpr ?_, ?_⟩, hf⟩
    · omega
    · have hdrop : (utf8 haystack).drop pre.length = utf8 needle ++ post := by
        rw [hsplit, append_assoc, drop_left]
      have htake : (utf8 haystack).take pre.length = pre := by
        rw [hsplit, append_assoc, take_left]
      have hnamed : inIdentifierPosition (utf8 haystack) pre.length exemption = false := by
        rw [hsplit, append_assoc, inIdentifierPosition_append]
        exact hat.named
      rw [← drop_drop, hdrop, htake, hnamed, take_left, drop_left, hat.left,
        hat.right]
      simp

theorem IsBlankByte.ne {b c : UInt8} (hb : IsBlankByte b) (hc : ¬ IsBlankByte c) : b ≠ c := by
  rintro rfl
  exact hc hb

theorem not_blank_letter (hc : c.toNat < 128) (h₁ : c ≠ Char.ofNat 1) (h₂ : c ≠ ' ') :
    ¬ IsBlankByte c.toUInt8 := by
  rintro (h | h)
  · exact h₁ ((toUInt8_inj hc (by decide)).mp h)
  · exact h₂ ((toUInt8_inj hc (by decide)).mp h)

theorem toNat_lt_of_isAlpha (hc : c.isAlpha = true) : c.toNat < 128 := by
  have hrange := isAlpha_iff.mp hc
  omega

theorem IsBlankByte.ne_letter {b : UInt8} (hb : IsBlankByte b)
    (hc : c.isAlpha = true) : b ≠ c.toUInt8 := by
  refine hb.ne (not_blank_letter (toNat_lt_of_isAlpha hc) ?_ ?_)
  · rintro rfl
    exact absurd hc (by decide)
  · rintro rfl
    exact absurd hc (by decide)

variable {pre : List UInt8}

/-- Whether a token names something is told without the lengths of the blanks. -/
theorem inIdentifierPosition_alike {pre' : List UInt8} (h : Alike IsBlankByte pre pre')
    (exemption : IdentifierExemption) : inIdentifierPosition pre pre.length exemption
      = inIdentifierPosition pre' pre'.length exemption := by
  have hback := (h.reverse).dropWhile isSeparator
  unfold inIdentifierPosition
  rw [take_length, take_length]
  have hhead := hback.head?
  cases hs : pre.reverse.dropWhile isSeparator with
  | nil =>
      rw [hs] at hhead
      rw [head?_eq_none_iff.mp hhead.symm]
  | cons s before =>
      rw [hs] at hback hhead
      obtain ⟨s', before', hs'⟩ : ∃ s' before', pre'.reverse.dropWhile isSeparator
          = s' :: before' := by
        cases hpre' : pre'.reverse.dropWhile isSeparator with
        | nil => rw [hpre'] at hhead; cases hhead
        | cons s' before' => exact ⟨s', before', rfl⟩
      rw [hs'] at hback hhead ⊢
      obtain rfl : s = s' := Option.some.inj hhead
      by_cases hblank : IsBlankByte s
      · -- no blank is a sigil or the end of `AS`
        have h₁ : s ≠ 's'.toUInt8 := hblank.ne_letter rfl
        have h₂ : s ≠ 'S'.toUInt8 := hblank.ne_letter rfl
        have hno : (s == 's'.toUInt8 || s == 'S'.toUInt8) = false := by simp [h₁, h₂]
        simp only [hno, Bool.and_false, Bool.false_and]
        cases before <;> cases before' <;> rfl
      · obtain ⟨b, hb, hbefore⟩ := hback.tail hblank
        obtain rfl := (cons_eq_cons.mp hb).2
        simp only
        cases ha : before with
        | nil =>
            have := hbefore.head?
            rw [ha] at this
            rw [head?_eq_none_iff.mp this.symm]
        | cons a rest =>
            rw [ha] at hbefore
            obtain ⟨a', rest', ha'⟩ : ∃ a' rest', before' = a' :: rest' := by
              cases hb' : before' with
              | nil =>
                  have := hbefore.head?
                  rw [hb'] at this
                  cases this
              | cons a' rest' => exact ⟨a', rest', rfl⟩
            rw [ha'] at hbefore ⊢
            obtain rfl : a = a' := Option.some.inj hbefore.head?
            by_cases hablank : IsBlankByte a
            · have h₁ : a ≠ 'a'.toUInt8 := hablank.ne_letter rfl
              have h₂ : a ≠ 'A'.toUInt8 := hablank.ne_letter rfl
              have hno : (a == 'a'.toUInt8 || a == 'A'.toUInt8) = false := by simp [h₁, h₂]
              simp only [hno, Bool.false_and]
            · obtain ⟨b', hb', hrest⟩ := hbefore.tail hablank
              obtain rfl := (cons_eq_cons.mp hb').2
              simp only [hrest.head?]

theorem KeywordAt.alike {post pre' post' : List UInt8}
    (h : KeywordAt pre post exemption) (hpre : Alike IsBlankByte pre pre')
    (hpost : Alike IsBlankByte post post') : KeywordAt pre' post' exemption := by
  have hlast : pre.getLast? = pre'.getLast? := by
    rw [← head?_reverse, ← head?_reverse]
    exact hpre.reverse.head?
  exact ⟨hlast ▸ h.left, hpost.head? ▸ h.right,
    (inIdentifierPosition_alike hpre exemption) ▸ h.named⟩

theorem any_alike {haystack' : Text}
    {f f' : ℕ → Bool} (h : Alike IsBlankByte (utf8 haystack) (utf8 haystack'))
    (hne : utf8 needle ≠ []) (hneedle : ∀ b ∈ utf8 needle, ¬ IsBlankByte b)
    (hf : ∀ pre post pre' post', utf8 haystack = pre ++ utf8 needle ++ post →
      utf8 haystack' = pre' ++ utf8 needle ++ post' → Alike IsBlankByte post post' →
      f pre.length = f' pre'.length) : (keywordTokenPositions haystack needle exemption).any f
      = (keywordTokenPositions haystack' needle exemption).any f' := by
  rw [Bool.eq_iff_iff, any_keywordTokenPositions hne, any_keywordTokenPositions hne]
  constructor
  · rintro ⟨pre, post, hsplit, hat, hpos⟩
    obtain ⟨pre', post', hsplit', hpre, hpost⟩ := h.split hne hneedle hsplit
    exact ⟨pre', post', hsplit', hat.alike hpre hpost, hf _ _ _ _ hsplit hsplit' hpost ▸ hpos⟩
  · rintro ⟨pre', post', hsplit', hat, hpos⟩
    obtain ⟨pre, post, hsplit, hpre, hpost⟩ := h.symm.split hne hneedle hsplit'
    exact ⟨pre, post, hsplit, hat.alike hpre hpost,
      (hf _ _ _ _ hsplit hsplit' hpost.symm).symm ▸ hpos⟩

/-- A keyword of letters. -/
def IsWord (needle : Text) : Prop :=
  needle ≠ [] ∧ ∀ c ∈ needle, c.toNat < 128 ∧ c ≠ Char.ofNat 1 ∧ c ≠ ' '

-- letter by letter: over all characters a test would not end
instance (needle : Text) : Decidable (IsWord needle) :=
  decidable_of_iff
    (needle ≠ [] ∧ needle.Forall fun c => c.toNat < 128 ∧ c ≠ Char.ofNat 1 ∧ c ≠ ' ')
    (and_congr_right fun _ => forall_iff_forall_mem)

theorem utf8_word : ∀ {needle : Text}, (∀ c ∈ needle, c.toNat < 128) →
    utf8 needle = needle.map Char.toUInt8
  | [], _ => rfl
  | c :: needle, h => by
      rw [utf8_cons, utf8EncodeChar_ascii (h c mem_cons_self),
        utf8_word fun d hd => h d (mem_cons_of_mem _ hd)]
      rfl

theorem IsWord.bytes (h : IsWord needle) :
    utf8 needle ≠ [] ∧ ∀ b ∈ utf8 needle, ¬ IsBlankByte b := by
  rw [utf8_word fun c hc => (h.2 c hc).1]
  refine ⟨by simpa using h.1, ?_⟩
  intro b hb
  obtain ⟨c, hc, rfl⟩ := mem_map.mp hb
  obtain ⟨hascii, hne, hne'⟩ := h.2 c hc
  exact not_blank_letter hascii hne hne'

theorem isEmpty_alike {haystack' : Text}
    (h : Alike IsBlankByte (utf8 haystack) (utf8 haystack')) (hneedle : IsWord needle) :
    (keywordTokenPositions haystack needle exemption).isEmpty
      = (keywordTokenPositions haystack' needle exemption).isEmpty := by
  have hany : (keywordTokenPositions haystack needle exemption).any (fun _ => true)
      = (keywordTokenPositions haystack' needle exemption).any fun _ => true :=
    any_alike h hneedle.bytes.1 hneedle.bytes.2 fun _ _ _ _ _ _ _ => rfl
  cases h₁ : keywordTokenPositions haystack needle exemption <;>
    cases h₂ : keywordTokenPositions haystack' needle exemption <;>
    simp [h₁, h₂] at hany ⊢

/-! ## The verdicts -/

theorem isWord_forbidden : ∀ kw ∈ forbiddenCypherKeywords, IsWord kw.toList := by decide

theorem drop_keyword {bytes word post : List UInt8} (h : bytes = pre ++ word ++ post)
    (n : ℕ) (hn : word.length = n) : bytes.drop (pre.length + n) = post := by
  rw [h, append_assoc, ← drop_drop, drop_left, ← hn, drop_left]

theorem not_isIdentChar_of_blank : ∀ b, IsBlankByte b → isIdentChar b = false := by
  rintro b (rfl | rfl) <;> decide

theorem carriesUnlistedProcedure_alike (h : Alike IsBlankByte (utf8 s) (utf8 t)) :
    carriesUnlistedProcedure s = carriesUnlistedProcedure t := by
  have hword : IsWord "CALL".toList := by decide
  refine any_alike h hword.bytes.1 hword.bytes.2 ?_
  intro pre post pre' post' hs ht hpost
  have hlen : (utf8 "CALL".toList).length = 4 := by decide
  have hname := (hpost.dropWhile isSeparator).takeWhile_eq not_isIdentChar_of_blank
  simp only [procedureNameAt, drop_keyword hs 4 hlen, drop_keyword ht 4 hlen, hname]

theorem breakOn_semicolon_alike (p : Char → Bool) (h : Alike IsBlank s t) :
    (breakOn [';'] s).map (fun parts => parts.2.all p)
      = (breakOn [';'] t).map (fun parts => parts.2.all p) := by
  have hskip : ∀ (c : Char) (rest : Text), c ≠ ';' →
      (breakOn [';'] (c :: rest)).map (fun parts => parts.2.all p)
        = (breakOn [';'] rest).map (fun parts => parts.2.all p) := by
    intro c rest hc
    rw [breakOn, stripPrefix, if_neg (Ne.symm hc)]
    cases breakOn [';'] rest <;> rfl
  have hrun : ∀ (c : Char) (n : ℕ) (rest : Text), c ≠ ';' →
      (breakOn [';'] (List.replicate n c ++ rest)).map (fun parts => parts.2.all p)
        = (breakOn [';'] rest).map (fun parts => parts.2.all p) := by
    intro c n rest hc
    induction n with
    | zero => rfl
    | succ n ih => rw [replicate_succ, cons_append, hskip c _ hc, ih]
  induction h with
  | nil => rfl
  | @cons c a b hab ih =>
      by_cases hc : c = ';'
      · subst hc
        have hall := hab.all p
        simpa [breakOn, stripPrefix] using hall
      · rw [hskip c _ hc, hskip c _ hc, ih]
  | @run c hc j k a b hab ih =>
      have hne : c ≠ ';' := by
        rcases hc with rfl | rfl <;> decide
      rw [hrun c _ _ hne, hrun c _ _ hne, ih]

theorem by_alike {a b : List UInt8} (h : Alike IsBlankByte a b) :
    ((utf8 "by".toList).isPrefixOf a && !((a.drop 2).head?.any isIdentChar))
      = ((utf8 "by".toList).isPrefixOf b && !((b.drop 2).head?.any isIdentChar)) := by
  have hword : IsWord "by".toList := by decide
  have hlen : (utf8 "by".toList).length = 2 := by decide
  have hstep : ∀ {a b : List UInt8}, Alike IsBlankByte a b →
      (utf8 "by".toList).isPrefixOf a = true → (utf8 "by".toList).isPrefixOf b = true
        ∧ (a.drop 2).head? = (b.drop 2).head? := by
    intro a b h hpre
    obtain ⟨post, rfl⟩ := isPrefixOf_iff_prefix.mp hpre
    obtain ⟨post', rfl, hpost⟩ := h.of_append hword.bytes.2
    refine ⟨ isPrefixOf_iff_prefix.mpr (prefix_append _ _), ?_⟩
    rw [← hlen, drop_left, drop_left, hpost.head?]
  cases ha : (utf8 "by".toList).isPrefixOf a with
  | true =>
      obtain ⟨hb, hhead⟩ := hstep h ha
      rw [hb, hhead]
  | false =>
      cases hb : (utf8 "by".toList).isPrefixOf b with
      | true =>
          rw [(hstep h.symm hb).1] at ha
          cases ha
      | false => rfl

theorem find?_congr_of_mem {α : Type} {p q : α → Bool} : ∀ {l : List α},
    (∀ x ∈ l, p x = q x) → l.find? p = l.find? q
  | [], _ => rfl
  | x :: l, h => by
      rw [find?_cons, find?_cons, h x mem_cons_self,
        find?_congr_of_mem fun y hy => h y (mem_cons_of_mem _ hy)]

/-- The four verdicts of the gate on a query. -/
def verdicts (cls : CharClass) (query : Text) : Option String × Bool × Bool × Bool :=
  (forbiddenCypherKeyword query, hasLimitClause query, hasOrderByClause query,
    isMultiStatement cls query)

theorem verdicts_alike (cls : CharClass) {query query' masked masked' : Text}
    (hmask : maskNonExecutable query = some masked)
    (hmask' : maskNonExecutable query' = some masked') (h : Alike IsBlank masked masked') :
    verdicts cls query = verdicts cls query' := by
  have hupper := alike_utf8 (alike_upper h)
  have hlower := alike_utf8 (alike_lower h)
  have hforbidden : forbiddenCypherKeyword query = forbiddenCypherKeyword query' := by
    have hfind : (forbiddenCypherKeywords.find? fun kw =>
          containsKeywordToken (toAsciiUppercase masked) kw.toList)
        = forbiddenCypherKeywords.find? fun kw =>
          containsKeywordToken (toAsciiUppercase masked') kw.toList := by
      refine find?_congr_of_mem ?_
      intro kw hkw
      exact congrArg Bool.not (isEmpty_alike hupper (isWord_forbidden kw hkw))
    simp only [forbiddenCypherKeyword, hmask, hmask', hfind,
      carriesUnlistedProcedure_alike hupper]
  have hlimit : hasLimitClause query = hasLimitClause query' := by
    have hword : IsWord "limit".toList := by decide
    simp only [hasLimitClause, hmask, hmask', Option.getD_some, isEmpty_alike hlower hword]
  have horder : hasOrderByClause query = hasOrderByClause query' := by
    simp only [hasOrderByClause, hmask, hmask', Option.getD_some]
    have hword : IsWord "order".toList := by decide
    refine any_alike hlower hword.bytes.1 hword.bytes.2 ?_
    intro pre post pre' post' hs ht hpost
    have hlen : (utf8 "order".toList).length = 5 := by decide
    simp only [drop_keyword hs 5 hlen, drop_keyword ht 5 hlen, hpost.head?, Bool.and_assoc,
      by_alike (hpost.dropWhile isSeparator)]
  have hmulti : isMultiStatement cls query = isMultiStatement cls query' := by
    have hbreak := breakOn_semicolon_alike cls.isWhitespace h
    simp only [isMultiStatement, hmask, hmask']
    cases h₁ : breakOn [';'] masked <;> cases h₂ : breakOn [';'] masked' <;>
      simp_all
  rw [verdicts, verdicts, hforbidden, hlimit, horder, hmulti]

/-! ## Masking twice -/

theorem head?_mask {r : Region} {after : Text} (h : r.EndsAt after) (rest : Text) :
    (r.mask ++ rest).head? = (r.text ++ rest).head?
      ∨ (r.mask ++ rest).head? = some (Char.ofNat 1) ∨ (r.mask ++ rest).head? = some ' ' := by
  cases r with
  | code c => exact Or.inl rfl
  | quoted q content => exact Or.inr (Or.inl rfl)
  | line content => exact Or.inr (Or.inr rfl)
  | block content => exact Or.inr (Or.inr rfl)

/-- What follows a character of code does not begin a comment with it, masked or
not. -/
theorem head?_maskText {regions : List Region} (h : Lexes [] regions) {d : Char}
    (hd : d = '/' ∨ d = '*') (hhead : (maskText regions).head? = some d) :
    (render regions ++ []).head? = some d := by
  cases regions with
  | nil => cases hhead
  | cons r rest =>
      rw [maskText_cons] at hhead
      have htext : (render (r :: rest) ++ []).head? = (r.text ++ maskText rest).head? := by
        cases r <;> simp [render, Region.text]
      rcases head?_mask h.1 (maskText rest) with heq | heq | heq
      · rw [htext, ← heq]
        exact hhead
      · rw [heq] at hhead
        rcases hd with rfl | rfl <;> exact absurd (Option.some.inj hhead) (by decide)
      · rw [heq] at hhead
        rcases hd with rfl | rfl <;> exact absurd (Option.some.inj hhead) (by decide)

def codeOf (text : Text) : List Region := text.map .code

@[simp] theorem render_codeOf (text : Text) : render (codeOf text) = text := by
  induction text with
  | nil => rfl
  | cons c text ih =>
      show [c] ++ render (codeOf text) = c :: text
      rw [ih]
      rfl

@[simp] theorem maskText_codeOf (text : Text) : maskText (codeOf text) = text := by
  induction text with
  | nil => rfl
  | cons c text ih =>
      rw [codeOf, map_cons, maskText_cons]
      exact congrArg (c :: ·) ih

variable {tail : Text}

theorem lexes_append : ∀ {a b : List Region},
    Lexes tail (a ++ b) ↔ Lexes (render b ++ tail) a ∧ Lexes tail b
  | [], b => by simp [Lexes]
  | r :: a, b => by
      have hrender : render (a ++ b) ++ tail = render a ++ (render b ++ tail) := by
        simp [render]
      rw [cons_append, Lexes, Lexes, lexes_append, hrender, and_assoc]

theorem lexes_codeOf : ∀ {text : Text},
    (∀ c ∈ text, isQuoteChar c = false ∧ c ≠ '/') → Lexes tail (codeOf text)
  | [], _ => trivial
  | c :: text, h => by
      obtain ⟨hquote, hslash⟩ := h c mem_cons_self
      exact ⟨⟨hquote, fun hc => absurd hc hslash⟩,
        lexes_codeOf fun d hd => h d (mem_cons_of_mem _ hd)⟩

theorem lexes_maskText : ∀ {regions : List Region}, Lexes [] regions →
    Lexes [] (codeOf (maskText regions))
  | [], _ => trivial
  | r :: rest, h => by
      have hrest := lexes_maskText h.2
      rw [maskText_cons, codeOf, map_append]
      refine lexes_append.mpr ⟨?_, hrest⟩
      have hblank : ∀ (c : Char) (n : ℕ) (tail : Text), isQuoteChar c = false → c ≠ '/' →
          Lexes tail (codeOf (List.replicate n c)) := by
        intro c n tail hquote hslash
        refine lexes_codeOf ?_
        intro d hd
        rw [eq_of_mem_replicate hd]
        exact ⟨hquote, hslash⟩
      cases r with
      | code c =>
          obtain ⟨⟨hquote, hslash⟩, hlexes⟩ := h
          refine ⟨⟨hquote, ?_⟩, trivial⟩
          intro hc
          obtain ⟨h₁, h₂⟩ := hslash hc
          have hhead : ∀ d, d = '/' ∨ d = '*' →
              (maskText rest).head? = some d → (render rest ++ []).head? = some d :=
            fun d hd => head?_maskText hlexes hd
          show (render (codeOf (maskText rest)) ++ []).head? ≠ _
            ∧ (render (codeOf (maskText rest)) ++ []).head? ≠ _
          rw [render_codeOf, append_nil]
          exact ⟨fun h => h₁ (hhead _ (Or.inl rfl) h), fun h => h₂ (hhead _ (Or.inr rfl) h)⟩
      | quoted q content => exact hblank _ _ _ (by decide) (by decide)
      | line content => exact hblank _ _ _ (by decide) (by decide)
      | block content => exact hblank _ _ _ (by decide) (by decide)

theorem mask_mask {regions : List Region} (h : Lexes [] regions) :
    maskNonExecutable (maskText regions) = some (maskText regions) := by
  have hmask := mask_render (lexes_maskText h)
  rwa [render_codeOf, maskText_codeOf] at hmask

theorem length_mask (r : Region) {after : Text} (h : r.EndsAt after) :
    (utf8 r.mask).length = (utf8 r.text).length := by
  cases r with
  | code c => rfl
  | quoted q content =>
      have hq := utf8EncodeChar_ascii (quote_cases h.1).1
      simp [Region.mask, Region.text, utf8_marks, utf8_cons, hq]
  | line content =>
      simp [Region.mask, Region.text, utf8_spaces, utf8_cons, utf8EncodeChar_slash]
  | block content =>
      simp [Region.mask, Region.text, utf8_spaces, utf8_cons, utf8EncodeChar_slash,
        utf8EncodeChar_star]

theorem length_maskText : ∀ {regions : List Region}, Lexes tail regions →
    (utf8 (maskText regions)).length = (utf8 (render regions)).length
  | [], _ => rfl
  | r :: rest, h => by
      have hrender : render (r :: rest) = r.text ++ render rest := rfl
      rw [maskText_cons, hrender, utf8_append, utf8_append, length_append,
        length_append, length_mask r h.1, length_maskText h.2]

theorem lexed_of_mask {query masked : Text} (h : maskNonExecutable query = some masked) :
    ∃ regions, Lexes [] regions ∧ query = render regions ∧ masked = maskText regions := by
  obtain ⟨regions, tail, hlexes, hquery, htail⟩ := exists_lexed query
  rcases htail with rfl | htail
  · rw [append_nil] at hquery
    rw [hquery, mask_render hlexes] at h
    exact ⟨regions, hlexes, hquery, (Option.some.inj h).symm⟩
  · rw [hquery, mask_unterminated hlexes htail] at h
    cases h

/-- Queries with the same regions but for their contents get the same verdicts;
masking keeps the number of bytes and does nothing to a mask; and it fails on what
is never closed, and on nothing else. -/
theorem gate_noninterference (cls : CharClass) :
    (∀ query, ∃ regions tail, IsLexed query regions tail)
    ∧ (∀ query query' regions regions' tail tail', IsLexed query regions tail →
        IsLexed query' regions' tail' → Like regions regions' → (tail = [] ↔ tail' = []) →
        verdicts cls query = verdicts cls query')
    ∧ (∀ query masked, maskNonExecutable query = some masked →
        (utf8 masked).length = (utf8 query).length ∧ maskNonExecutable masked = some masked)
    ∧ ∀ query, maskNonExecutable query = none
        ↔ ∃ regions tail, Lexes tail regions ∧ query = render regions ++ tail
          ∧ Unterminated tail := by
  refine ⟨exists_lexed, ?_, ?_, ?_⟩
  · intro query query' regions regions' tail tail' h h' hlike htail
    by_cases hopen : tail = []
    · obtain rfl := htail.mp hopen
      subst hopen
      have hmask : maskNonExecutable query = some (maskText regions) := by
        rw [h.query_eq, append_nil, mask_render h.lexes]
      have hmask' : maskNonExecutable query' = some (maskText regions') := by
        rw [h'.query_eq, append_nil, mask_render h'.lexes]
      exact verdicts_alike cls hmask hmask' hlike.mask
    · have hnone : maskNonExecutable query = none := by
        rw [h.query_eq]
        exact mask_unterminated h.lexes (h.tail_eq.resolve_left hopen)
      have hnone' : maskNonExecutable query' = none := by
        rw [h'.query_eq]
        exact mask_unterminated h'.lexes (h'.tail_eq.resolve_left fun h => hopen (htail.mpr h))
      simp only [verdicts, forbiddenCypherKeyword, hasLimitClause, hasOrderByClause,
        isMultiStatement, hnone, hnone']
  · intro query masked hmask
    obtain ⟨regions, hlexes, rfl, rfl⟩ := lexed_of_mask hmask
    exact ⟨length_maskText hlexes, mask_mask hlexes⟩
  · intro query
    constructor
    · intro hnone
      obtain ⟨regions, tail, hlexes, hquery, htail⟩ := exists_lexed query
      rcases htail with rfl | htail
      · rw [hquery, append_nil, mask_render hlexes] at hnone
        cases hnone
      · exact ⟨regions, tail, hlexes, hquery, htail⟩
    · rintro ⟨regions, tail, hlexes, rfl, htail⟩
      exact mask_unterminated hlexes htail

end Cypher

end CodeGraph
