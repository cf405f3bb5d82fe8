import CodeGraph.NodeIds

/-!
# Where the language server is asked

An unresolved call site stores where its callee text starts. The question to
the language server is about the last segment of that text.
-/

namespace CodeGraph

open List

/-- A call site that static resolution left open. -/
structure UnresolvedCallSite where
  id : Text
  callerQn : Text
  callerLabel : Text
  calleeName : Text
  filePath : Text
  line : Nat
  col : Nat
deriving DecidableEq

/-- `text.rfind(pat)`, a byte being a character of ASCII text. -/
def rfind (pat text : Text) : Option Nat := (beforeLast pat text).map List.length

def lastSegmentOffset (calleeName : Text) : Nat :=
  let dot := (rfind ['.'] calleeName).map (· + 1)
  let scope := (rfind "::".toList calleeName).map (· + 2)
  (dot.toList ++ scope.toList).max?.getD 0

namespace UnresolvedCallSite

/-- The 0-based line and character the question is asked at. -/
def lspPosition (site : UnresolvedCallSite) : Nat × Nat :=
  let offset := lastSegmentOffset site.calleeName
  let receiver := site.calleeName.take offset
  let line0 := site.line - 1 + receiver.count '\n'
  let col := match rfind ['\n'] receiver with
    | some newline => offset - newline - 1
    | none => site.col + offset
  (line0, col)

/-- The identifier the question is about. -/
def identifierName (site : UnresolvedCallSite) : Text :=
  site.calleeName.drop (lastSegmentOffset site.calleeName)

end UnresolvedCallSite

namespace CalleeText

/-! ## Positions in a text -/

def advance (pos : Nat × Nat) (c : Char) : Nat × Nat :=
  if c = '\n' then (pos.1 + 1, 0) else (pos.1, pos.2 + 1)

/-- The 0-based line and character behind a text. -/
def positionAfter (text : Text) : Nat × Nat := text.foldl advance (0, 0)

theorem positionAfter_append (text rest : Text) :
    positionAfter (text ++ rest) = rest.foldl advance (positionAfter text) :=
  foldl_append

/-- The line moves on by the line feeds, the character counts from the last of
them. -/
theorem foldl_advance (text : Text) (pos : Nat × Nat) :
    text.foldl advance pos =
      (pos.1 + text.count '\n',
        match rfind ['\n'] text with
        | some newline => text.length - newline - 1
        | none => pos.2 + text.length) := by
  induction text generalizing pos with
  | nil => rfl
  | cons c text ih =>
      rw [foldl_cons, ih]
      cases hlast : beforeLast ['\n'] text with
      | some before =>
          have hcons : rfind ['\n'] (c :: text) = some (before.length + 1) := by
            rw [rfind, beforeLast, hlast]
            rfl
          have hrest : rfind ['\n'] text = some before.length := by rw [rfind, hlast]; rfl
          rw [hcons, hrest]
          by_cases hc : c = '\n'
          · simp [advance, hc]
            omega
          · simp [advance, hc]
      | none =>
          have hrest : rfind ['\n'] text = none := by rw [rfind, hlast]; rfl
          by_cases hc : c = '\n'
          · have hcons : rfind ['\n'] (c :: text) = some 0 := by
              rw [rfind, beforeLast, hlast, hc]
              rfl
            rw [hcons, hrest]
            simp [advance, hc]
            omega
          · have hcons : rfind ['\n'] (c :: text) = none := by
              rw [rfind, beforeLast, hlast]
              simp [stripPrefix, Ne.symm hc]
            rw [hcons, hrest]
            simp [advance, hc]
            omega

/-! ## Callee texts -/

/-- The characters that separate segments, lay them out or enclose arguments. -/
def punctuation : Text := ".: \t\n\r()<>".toList

structure Identifier where
  text : Text
  ne_nil : text ≠ []
  bare : ∀ c ∈ text, c ∉ punctuation

/-- Line breaks and indentation. -/
structure Layout where
  text : Text
  blank : ∀ c ∈ text, c ∈ " \t\n\r".toList

inductive Separator
  | dot
  | scope
deriving DecidableEq

def Separator.text : Separator → Text
  | .dot => ['.']
  | .scope => "::".toList

/-- One group of arguments, with any text inside its brackets. -/
inductive Arguments
  | call (inner : Text)
  | generic (inner : Text)
  | turbofish (inner : Text)
deriving DecidableEq

def Arguments.text : Arguments → Text
  | .call inner => '(' :: inner ++ [')']
  | .generic inner => '<' :: inner ++ ['>']
  | .turbofish inner => "::<".toList ++ inner ++ ['>']

structure Segment where
  name : Identifier
  arguments : List Arguments

def Segment.text (segment : Segment) : Text :=
  segment.name.text ++ segment.arguments.flatMap Arguments.text

/-- A separator with the layout on its two sides. -/
structure Joint where
  before : Layout
  separator : Separator
  after : Layout

/-- A callee expression: segments, joined. -/
inductive CalleeChain
  | segment (only : Segment)
  | link (receiver : CalleeChain) (joint : Joint) (last : Segment)

namespace CalleeChain

def text : CalleeChain → Text
  | .segment only => only.text
  | .link receiver joint last =>
      receiver.text ++ joint.before.text ++ joint.separator.text ++ joint.after.text ++ last.text

def last : CalleeChain → Segment
  | .segment only => only
  | .link _ _ last => last

/-- What is written before the last identifier. -/
def beforeName : CalleeChain → Text
  | .segment _ => []
  | .link receiver joint _ =>
      receiver.text ++ joint.before.text ++ joint.separator.text ++ joint.after.text

/-- What is written between the last separator and the last identifier. -/
def lastGap : CalleeChain → Text
  | .segment _ => []
  | .link _ joint _ => joint.after.text

end CalleeChain

/-- A call site whose callee text was read verbatim at its stored place in an
ASCII source. -/
structure SiteInSource where
  site : UnresolvedCallSite
  before : Text
  callee : CalleeChain
  after : Text
  verbatim : site.calleeName = callee.text
  stored_line : site.line = (positionAfter before).1 + 1
  stored_col : site.col = (positionAfter before).2
  ascii : (before ++ callee.text ++ after).all (·.toNat < 128)

/-- Where the last identifier of the callee starts in the source. -/
def SiteInSource.namePosition (s : SiteInSource) : Nat × Nat :=
  positionAfter (s.before ++ s.callee.beforeName)

/-! ## What the search from the right finds -/

theorem rfind_le {pat text rest : Text} {i : Nat} (hpat : pat ≠ []) (hrest : ∀ c ∈ pat, c ∉ rest)
    (h : rfind pat (text ++ rest) = some i) : i + pat.length ≤ text.length := by
  obtain ⟨before, hbefore, rfl⟩ := Option.map_eq_some_iff.mp h
  have hocc : before ++ pat <+: text ++ rest := beforeLast_append_isPrefix hbefore
  by_contra hlong
  rw [← length_append, Nat.not_le] at hlong
  obtain ⟨tail, htail⟩ : text <+: before ++ pat :=
    prefix_of_prefix_length_le (prefix_append text rest) hocc hlong.le
  have hne : tail ≠ [] := by
    rintro rfl
    rw [← htail, append_nil] at hlong
    exact lt_irrefl _ hlong
  have hlast : tail.getLast hne = pat.getLast hpat := by
    rw [← getLast_append_right (l := before) hpat, ← getLast_append_right (l := text) hne]
    simp only [htail]
  have htailRest : tail <+: rest := by
    rw [← htail] at hocc
    exact (prefix_append_right_inj text).mp hocc
  refine hrest _ (getLast_mem hpat) ?_
  rw [← hlast]
  exact htailRest.subset (getLast_mem hne)

theorem rfind_dot (before : Text) {rest : Text} (h : '.' ∉ rest) :
    rfind ['.'] (before ++ ['.'] ++ rest) = some before.length := by
  have hlate : ¬['.'] <:+: [] ++ rest := fun hin => h (hin.subset mem_cons_self)
  rw [rfind, append_assoc, beforeLast_last hlate, Option.map_some]

theorem rfind_scope (before : Text) {rest : Text} (h : ':' ∉ rest) :
    rfind "::".toList (before ++ "::".toList ++ rest) = some before.length := by
  have hlate : ¬[':', ':'] <:+: [':'] ++ rest := by
    intro hin
    obtain hpre | hin := infix_cons_iff.mp hin
    · have hrest : [':'] <+: rest := by simpa using hpre
      exact h (hrest.subset mem_cons_self)
    · exact h (hin.subset mem_cons_self)
  have hsep : "::".toList = [':', ':'] := rfl
  rw [hsep, rfind, append_assoc, beforeLast_last hlate, Option.map_some]

theorem lastSegmentOffset_joint (before : Text) (sep : Separator) {rest : Text}
    (hdot : '.' ∉ rest) (hcolon : ':' ∉ rest) :
    lastSegmentOffset (before ++ sep.text ++ rest) = (before ++ sep.text).length := by
  cases sep with
  | dot =>
      have hfound : rfind ['.'] (before ++ Separator.dot.text ++ rest) = some before.length :=
        rfind_dot before hdot
      have hle : ∀ i, rfind "::".toList (before ++ Separator.dot.text ++ rest) = some i →
          i + 2 ≤ (before ++ Separator.dot.text).length := fun i hi =>
        rfind_le (by simp) (by simpa using hcolon) hi
      rw [lastSegmentOffset, hfound]
      cases hscope : rfind "::".toList (before ++ Separator.dot.text ++ rest) with
      | none => simp [List.max?, Separator.text]
      | some i =>
          have := hle i hscope
          simp [List.max?, Separator.text] at this ⊢
          omega
  | scope =>
      have hfound : rfind "::".toList (before ++ Separator.scope.text ++ rest) =
          some before.length := rfind_scope before hcolon
      have hle : ∀ i, rfind ['.'] (before ++ Separator.scope.text ++ rest) = some i →
          i + 1 ≤ (before ++ Separator.scope.text).length := fun i hi =>
        rfind_le (by simp) (by simpa using hdot) hi
      rw [lastSegmentOffset, hfound]
      cases hdots : rfind ['.'] (before ++ Separator.scope.text ++ rest) with
      | none => simp [List.max?, Separator.text]
      | some i =>
          have := hle i hdots
          simp [List.max?, Separator.text] at this ⊢
          omega

theorem lastSegmentOffset_bare {text : Text} (hdot : '.' ∉ text) (hcolon : ':' ∉ text) :
    lastSegmentOffset text = 0 := by
  have hnodot : rfind ['.'] text = none := by
    rw [rfind, beforeLast_eq_none fun hin => hdot (hin.subset mem_cons_self), Option.map_none]
  have hnoscope : rfind "::".toList text = none := by
    rw [rfind, beforeLast_eq_none fun hin => hcolon (hin.subset (by simp)), Option.map_none]
  rw [lastSegmentOffset, hnodot, hnoscope]
  rfl

/-! ## The last identifier -/

theorem Identifier.notMem (name : Identifier) {c : Char} (h : c ∈ punctuation) : c ∉ name.text :=
  fun hc => name.bare c hc h

theorem Layout.notMem (gap : Layout) {c : Char} (h : c ∉ " \t\n\r".toList) : c ∉ gap.text :=
  fun hc => h (gap.blank c hc)

theorem Arguments.closed (args : Arguments) : ∃ inner, ∃ c ∈ punctuation,
    args.text = inner ++ [c] := by
  cases args with
  | call inner => exact ⟨'(' :: inner, ')', by decide, rfl⟩
  | generic inner => exact ⟨'<' :: inner, '>', by decide, rfl⟩
  | turbofish inner => exact ⟨"::<".toList ++ inner, '>', by decide, rfl⟩

theorem Segment.text_bare {segment : Segment} (h : segment.arguments = []) :
    segment.text = segment.name.text := by
  rw [Segment.text, h, flatMap_nil, append_nil]

theorem Segment.text_closed {segment : Segment} (h : segment.arguments ≠ []) :
    ∃ inner, ∃ c ∈ punctuation, segment.text = inner ++ [c] := by
  obtain ⟨init, args, hargs⟩ := eq_nil_or_concat' segment.arguments |>.resolve_left h
  obtain ⟨inner, c, hc, htext⟩ := args.closed
  refine ⟨segment.name.text ++ init.flatMap Arguments.text ++ inner, c, hc, ?_⟩
  rw [Segment.text, hargs, flatMap_append, flatMap_singleton, htext]
  simp only [append_assoc]

namespace CalleeChain

theorem text_eq (callee : CalleeChain) : callee.text = callee.beforeName ++ callee.last.text := by
  cases callee with
  | segment only => rfl
  | link receiver joint last => rfl

theorem lastSegmentOffset_text {callee : CalleeChain} (h : callee.last.arguments = []) :
    lastSegmentOffset callee.text + callee.lastGap.length = callee.beforeName.length := by
  cases callee with
  | segment only =>
      have hbare : lastSegmentOffset (segment only).text = 0 := by
        rw [text, show only.text = only.name.text from Segment.text_bare h]
        exact lastSegmentOffset_bare (only.name.notMem (by decide)) (only.name.notMem (by decide))
      rw [hbare]
      rfl
  | link receiver joint last =>
      have hrest : ∀ c ∈ punctuation, c ∉ " \t\n\r".toList →
          c ∉ joint.after.text ++ last.name.text := fun c hc hblank hin =>
        (mem_append.mp hin).elim (joint.after.notMem hblank) (last.name.notMem hc)
      rw [text, show last.text = last.name.text from Segment.text_bare h,
        append_assoc _ joint.after.text,
        lastSegmentOffset_joint _ _ (hrest _ (by decide) (by decide))
          (hrest _ (by decide) (by decide)), lastGap, beforeName, ← length_append]

end CalleeChain

namespace SiteInSource

variable (s : SiteInSource)

theorem identifierName_of_offset
    (h : lastSegmentOffset s.callee.text = s.callee.beforeName.length) :
    s.site.identifierName = s.callee.last.text := by
  rw [UnresolvedCallSite.identifierName, s.verbatim, h, s.callee.text_eq, drop_left]

theorem lspPosition_of_offset
    (h : lastSegmentOffset s.callee.text = s.callee.beforeName.length) :
    s.site.lspPosition = s.namePosition := by
  have hline : s.site.line - 1 = (positionAfter s.before).1 := by
    rw [s.stored_line, Nat.add_sub_cancel]
  rw [namePosition, positionAfter_append, foldl_advance, UnresolvedCallSite.lspPosition,
    s.verbatim, h, s.callee.text_eq, take_left, hline, s.stored_col]

theorem condition_of_identifierName (h : s.site.identifierName = s.callee.last.name.text) :
    s.callee.last.arguments = [] ∧ s.callee.lastGap = [] := by
  rw [UnresolvedCallSite.identifierName, s.verbatim] at h
  have hargs : s.callee.last.arguments = [] := by
    by_contra hne
    obtain ⟨inner, c, hc, htext⟩ := Segment.text_closed hne
    have hsuffix : s.callee.last.name.text <:+ s.callee.beforeName ++ inner ++ [c] := by
      rw [append_assoc, ← htext, ← s.callee.text_eq, ← h]
      exact drop_suffix _ _
    obtain ⟨init, d, hname⟩ :=
      eq_nil_or_concat' s.callee.last.name.text |>.resolve_left s.callee.last.name.ne_nil
    have hlast : d = c := by
      rw [hname] at hsuffix
      obtain ⟨front, hfront⟩ := hsuffix
      rw [← append_assoc] at hfront
      exact (append_inj' hfront rfl).2 |> singleton_inj.mp
    refine s.callee.last.name.notMem hc ?_
    rw [hname, hlast]
    exact mem_append_right _ mem_cons_self
  refine ⟨hargs, ?_⟩
  have hoffset := CalleeChain.lastSegmentOffset_text hargs
  have hlength := congrArg List.length h
  have htext : s.callee.text.length =
      s.callee.beforeName.length + s.callee.last.name.text.length := by
    rw [s.callee.text_eq, length_append, Segment.text_bare hargs]
  rw [length_drop, htext] at hlength
  exact length_eq_zero_iff.mp (by omega)

/-- The question is asked at the last identifier, and names it, exactly when
that identifier stands bare right behind its separator. -/
theorem asked_at_last_identifier :
    s.site.lspPosition = s.namePosition ∧ s.site.identifierName = s.callee.last.name.text ↔
      s.callee.last.arguments = [] ∧ s.callee.lastGap = [] := by
  refine ⟨fun h => s.condition_of_identifierName h.2, fun ⟨hargs, hgap⟩ => ?_⟩
  have hoffset : lastSegmentOffset s.callee.text = s.callee.beforeName.length := by
    rw [← CalleeChain.lastSegmentOffset_text hargs, hgap, length_nil, Nat.add_zero]
  refine ⟨s.lspPosition_of_offset hoffset, ?_⟩
  rw [s.identifierName_of_offset hoffset, Segment.text_bare hargs]

end SiteInSource

def spelledSegment (name : Text) (hne : name ≠ []) (hbare : name.all (· ∉ punctuation))
    (arguments : List Arguments) : Segment :=
  ⟨⟨name, hne, fun c hc => of_decide_eq_true (all_eq_true.mp hbare c hc)⟩, arguments⟩

def tightDot : Joint := ⟨⟨[], by simp⟩, .dot, ⟨[], by simp⟩⟩

/-- `xs.iter().collect::<Vec<_>>()` on the second line of a file. -/
def collectSite : SiteInSource where
  site :=
    { id := "a.rs::f::call@2:4".toList
      callerQn := "a.rs::f".toList
      callerLabel := "Function".toList
      calleeName := "xs.iter().collect::<Vec<_>>".toList
      filePath := "a.rs".toList
      line := 2
      col := 4 }
  before := "fn f() \x7b\n    ".toList
  callee :=
    .link
      (.link (.segment (spelledSegment "xs".toList (by decide) (by decide) [])) tightDot
        (spelledSegment "iter".toList (by decide) (by decide) [.call []]))
      tightDot
      (spelledSegment "collect".toList (by decide) (by decide) [.turbofish "Vec<_>".toList])
  after := "()\n\x7d\n".toList
  verbatim := by decide
  stored_line := by decide
  stored_col := by decide
  ascii := by decide

theorem collect_asked_at_type_arguments :
    ¬∀ s : SiteInSource, s.site.lspPosition = s.namePosition ∧
      s.site.identifierName = s.callee.last.name.text := by
  intro h
  have hname : collectSite.site.identifierName = "collect".toList := (h collectSite).2
  exact absurd hname (by decide)

end CalleeText

end CodeGraph
