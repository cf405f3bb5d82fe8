import CodeGraph.GitListing

/-!
# The unified diff of git

What git prints for a difference of two trees: a section for each file, with the
lines it removes, adds and keeps hunk by hunk. A name that holds a special
character is quoted, a name with a space is followed by a tab where it stands
alone on its line, and a file without a hunk (renamed, emptied mode or binary
content) has no line that names it alone.
-/

namespace CodeGraph

namespace GitDiff

/-! ## Names -/

/-- A character git prints as it is in a name; `quotepath` is the setting
`core.quotepath`. -/
def isBareChar (quotepath : Bool) (c : Char) : Bool :=
  isPlainChar c && (!quotepath || c.toNat < 128)

def escapeNameChar (quotepath : Bool) (c : Char) : Text :=
  if isBareChar quotepath c then [c]
  else if isPlainChar c then (String.utf8EncodeChar c).flatMap fun b => '\\' :: octal b.toNat
  else escapeChar c

def diffName (quotepath : Bool) (name : Text) : Text :=
  if name.all (isBareChar quotepath) then name
  else '"' :: name.flatMap (escapeNameChar quotepath) ++ ['"']

/-- A name at the end of a line: a tab marks its end when it holds a space. -/
def headerName (quotepath : Bool) (name : Text) : Text :=
  if ' ' ∈ diffName quotepath name then diffName quotepath name ++ ['\t']
  else diffName quotepath name

/-! ## Hunks -/

/-- What a line of a file can hold. -/
abbrev LineText := {text : Text // '\n' ∉ text}

inductive BodyLine
  | context (text : LineText)
  | added (text : LineText)
  | deleted (text : LineText)
  | noNewline
  deriving DecidableEq

namespace BodyLine

def render : BodyLine → Text
  | .context text => ' ' :: text.val
  | .added text => '+' :: text.val
  | .deleted text => '-' :: text.val
  | .noNewline => '\\' :: " No newline at end of file".toList

def IsChange : BodyLine → Prop
  | .added _ | .deleted _ => True
  | .context _ | .noNewline => False

instance : DecidablePred IsChange := fun line => by
  cases line <;> unfold IsChange <;> infer_instance

def inOld : BodyLine → Bool
  | .context _ | .deleted _ => true
  | .added _ | .noNewline => false

def inNew : BodyLine → Bool
  | .context _ | .added _ => true
  | .deleted _ | .noNewline => false

end BodyLine

/-- `heading` is what stands behind the two ranges. -/
structure Hunk where
  oldStart : Nat
  newStart : Nat
  heading : LineText
  body : List BodyLine

namespace Hunk

/-- A count of one is not printed. -/
def range (start count : Nat) : Text :=
  if count = 1 then Nat.toDigits 10 start else Nat.toDigits 10 start ++ ',' :: Nat.toDigits 10 count

def header (h : Hunk) : Text :=
  "@@ -".toList ++ range h.oldStart (h.body.countP (·.inOld)) ++ " +".toList ++
    range h.newStart (h.body.countP (·.inNew)) ++ " @@".toList ++ h.heading.val

def render (h : Hunk) : List Text := h.header :: h.body.map BodyLine.render

/-- Where the new file stands at each changed line: an added line at its own
number, a deleted line at the number of the line that took its place. -/
def positions : Nat → List BodyLine → List Nat
  | _, [] => []
  | n, .context _ :: body => positions (n + 1) body
  | n, .added _ :: body => n :: positions (n + 1) body
  | n, .deleted _ :: body => n :: positions n body
  | n, .noNewline :: body => positions n body

end Hunk

/-! ## Files -/

/-- What the lines between the names and the first hunk start with. -/
def extendedKeywords : List Text :=
  ["old mode ".toList, "new mode ".toList, "deleted file mode ".toList, "new file mode ".toList,
    "copy from ".toList, "copy to ".toList, "rename from ".toList, "rename to ".toList,
    "similarity index ".toList, "dissimilarity index ".toList, "index ".toList,
    "Binary files ".toList]

abbrev ExtendedLine := {text : Text // '\n' ∉ text ∧ ∃ k ∈ extendedKeywords, k <+: text}

inductive FileChange
  | modified | added | deleted
  deriving DecidableEq

structure FileDiff where
  oldPath : Text
  newPath : Text
  change : FileChange
  extended : List ExtendedLine
  hunks : List Hunk

namespace FileDiff

/-- The path the file is known by: the old one of a file that is gone. -/
def path (f : FileDiff) : Text :=
  match f.change with
  | .deleted => f.oldPath
  | .modified | .added => f.newPath

def gitLine (quotepath : Bool) (f : FileDiff) : Text :=
  "diff --git ".toList ++ diffName quotepath ("a/".toList ++ f.oldPath) ++
    ' ' :: diffName quotepath ("b/".toList ++ f.newPath)

def oldLine (quotepath : Bool) (f : FileDiff) : Text :=
  "--- ".toList ++
    if f.change = .added then "/dev/null".toList
    else headerName quotepath ("a/".toList ++ f.oldPath)

def newLine (quotepath : Bool) (f : FileDiff) : Text :=
  "+++ ".toList ++
    if f.change = .deleted then "/dev/null".toList
    else headerName quotepath ("b/".toList ++ f.newPath)

/-- The two lines that name the file alone are printed before its first hunk. -/
def names (quotepath : Bool) (f : FileDiff) : List Text :=
  if f.hunks = [] then [] else [f.oldLine quotepath, f.newLine quotepath]

def render (quotepath : Bool) (f : FileDiff) : List Text :=
  f.gitLine quotepath :: f.extended.map Subtype.val ++ f.names quotepath ++
    f.hunks.flatMap Hunk.render

def positions (f : FileDiff) : List Nat :=
  f.hunks.flatMap fun h => Hunk.positions h.newStart h.body

end FileDiff

/-- The largest line number a diff can be about: a text in memory is not longer. -/
def maxLength : Nat := 2 ^ 63 - 1

/-- The sections of the files. The diff and the files it is about fit in memory:
so does a line number with the length of the diff. -/
structure UnifiedDiff where
  quotepath : Bool
  files : List FileDiff
  short : (files.flatMap (FileDiff.render quotepath)).length ≤ maxLength
  fits : ∀ f ∈ files, ∀ h ∈ f.hunks,
    h.newStart + (files.flatMap (FileDiff.render quotepath)).length ≤ maxLength

def UnifiedDiff.text (d : UnifiedDiff) : Text :=
  printLines (d.files.flatMap (FileDiff.render d.quotepath))

end GitDiff

end CodeGraph

/-!
## Reading a unified diff

`parse_unified_diff`: one pass over the lines of the text, with a counter for the
line of the new file. A line is told by its first characters alone, so a changed
line that begins with two more of its own markers is taken for something else.
-/

namespace CodeGraph

namespace GitDiff

structure FileHunk where
  filePath : Text
  changedLines : List Nat
  isNew : Bool
  isDeleted : Bool
  deriving DecidableEq

/-- `u64::MAX / 2` -/
def diffLineMax : Nat := (2 ^ 64 - 1) / 2

structure DiffState where
  hunks : List FileHunk
  currentFile : Option Text
  currentLines : List Nat
  currentLine : Nat
  isNew : Bool
  isDeleted : Bool

namespace DiffState

def init : DiffState := ⟨[], none, [], 0, false, false⟩

/-- Files the file at hand, if it has a path; otherwise its lines stay. -/
def flush (s : DiffState) : DiffState :=
  match s.currentFile with
  | some fp =>
      { s with
        hunks := s.hunks ++ [⟨fp, s.currentLines, s.isNew, s.isDeleted⟩]
        currentFile := none
        currentLines := [] }
  | none => s

def push (s : DiffState) : DiffState :=
  { s with currentLines := s.currentLines ++ [s.currentLine] }

def advance (s : DiffState) : Except Text DiffState :=
  if s.currentLine ≥ diffLineMax then
    .error "diff_too_large: line counter would overflow".toList
  else .ok { s with currentLine := s.currentLine + 1 }

end DiffState

def withoutSign : Text → Text
  | '+' :: rest => rest
  | text => text

/-- `text.parse::<u64>()`: one leading `+` is allowed, no digit at all is not. -/
def parseU64 (text : Text) : Option Nat :=
  let digits := withoutSign text
  if digits ≠ [] ∧ digits.all Char.isDigit then
    (some (Nat.ofDigitChars 10 digits 0)).filter (· < 2 ^ 64)
  else none

def inNumber (c : Char) : Bool := c ≠ ',' ∧ c ≠ ' '

/-- The number behind the first `+`, up to a comma or a space. -/
def parseHunkHeader (line : Text) : Option Nat :=
  match line.dropWhile (· ≠ '+') with
  | [] => none
  | _ :: rest =>
      match rest.dropWhile inNumber with
      | [] => none
      | _ :: _ => parseU64 (rest.takeWhile inNumber)

def startsWith (pre : String) (line : Text) : Bool := pre.toList.isPrefixOf line

def parseLine (s : DiffState) (line : Text) : Except Text DiffState :=
  if startsWith "diff --git" line then
    .ok { s.flush with isNew := false, isDeleted := false }
  else
    match stripPrefix "--- a/".toList line with
    | some stripped =>
        .ok (if s.currentFile.isNone then { s with currentFile := some stripped } else s)
    | none =>
        if startsWith "--- /dev/null" line then .ok { s with isNew := true }
        else
          match stripPrefix "+++ b/".toList line with
          | some stripped => .ok { s with currentFile := some stripped }
          | none =>
              if startsWith "+++ /dev/null" line then .ok { s with isDeleted := true }
              else if startsWith "@@ " line then
                match parseHunkHeader line with
                | some newRange => .ok { s with currentLine := newRange }
                | none => .ok s
              else if startsWith "+" line && !startsWith "+++" line then s.push.advance
              else if startsWith "-" line && !startsWith "---" line then .ok s.push
              else s.advance

def parseLines (s : DiffState) (ls : List Text) : Except Text DiffState := ls.foldlM parseLine s

def parseUnifiedDiff (diffText : Text) : Except Text (List FileHunk) := do
  let s ← parseLines .init (lines diffText)
  pure s.flush.hunks

/-! ## One line -/

theorem startsWith_iff {pre : String} {line : Text} :
    startsWith pre line = true ↔ pre.toList <+: line := List.isPrefixOf_iff_prefix

theorem startsWith_eq_false {pre : String} {line : Text} (h : ¬ pre.toList <+: line) :
    startsWith pre line = false := Bool.eq_false_iff.mpr (mt startsWith_iff.mp h)

theorem stripPrefix_eq_none {pre text : Text} (h : ¬ pre <+: text) : stripPrefix pre text = none :=
  Option.eq_none_iff_forall_ne_some.mpr fun rest heq => h ⟨rest, (stripPrefix_eq heq).symm⟩

section Line

variable {s : DiffState} {t : Text}

theorem parseLine_other {c : Char} (hgit : ¬ "diff --git".toList <+: c :: t)
    (hc : c ≠ '-' ∧ c ≠ '+' ∧ c ≠ '@') : parseLine s (c :: t) = s.advance := by
  rw [parseLine, startsWith_eq_false hgit]
  simp [startsWith, stripPrefix, hc.1.symm, hc.2.1.symm, hc.2.2.symm]

theorem parseLine_context : parseLine s (' ' :: t) = s.advance :=
  parseLine_other (by simp) (by decide)

theorem parseLine_noNewline : parseLine s BodyLine.noNewline.render = s.advance :=
  parseLine_other (by simp) (by decide)

theorem parseLine_added (h : ¬ ['+', '+'] <+: t) : parseLine s ('+' :: t) = s.push.advance := by
  have hlonger : ∀ rest, ¬ ['+', '+'] ++ rest <+: t := fun rest =>
    mt (List.IsPrefix.trans (List.prefix_append _ rest)) h
  have hfile := stripPrefix_eq_none (hlonger [' ', 'b', '/'])
  have hnull := hlonger " /dev/null".toList
  simp only [List.cons_append, List.nil_append] at hfile
  simp [parseLine, startsWith, stripPrefix, hfile] at hnull ⊢
  rw [if_neg hnull, if_pos (Bool.eq_false_iff.mpr (mt List.isPrefixOf_iff_prefix.mp h))]

theorem parseLine_deleted (h : ¬ ['-', '-'] <+: t) : parseLine s ('-' :: t) = .ok s.push := by
  have hlonger : ∀ rest, ¬ '-' :: (['-', '-'] ++ rest) <+: '-' :: t := fun rest hpre =>
    h ((List.prefix_append _ rest).trans (List.cons_prefix_cons.mp hpre).2)
  have hother : ∀ {c : Char} {rest : Text}, c ≠ '-' → ¬ c :: rest <+: '-' :: t := fun hc hpre =>
    hc (List.cons_prefix_cons.mp hpre).1
  have hold : stripPrefix "--- a/".toList ('-' :: t) = none :=
    stripPrefix_eq_none (hlonger [' ', 'a', '/'])
  have hnew : stripPrefix "+++ b/".toList ('-' :: t) = none :=
    stripPrefix_eq_none (hother (by decide))
  have hnull : startsWith "--- /dev/null" ('-' :: t) = false :=
    startsWith_eq_false (hlonger " /dev/null".toList)
  have hmarked : startsWith "---" ('-' :: t) = false := startsWith_eq_false (hlonger [])
  have hgit : startsWith "diff --git" ('-' :: t) = false := startsWith_eq_false (hother (by decide))
  have hdev : startsWith "+++ /dev/null" ('-' :: t) = false :=
    startsWith_eq_false (hother (by decide))
  have hhunk : startsWith "@@ " ('-' :: t) = false := startsWith_eq_false (hother (by decide))
  have hplus : startsWith "+" ('-' :: t) = false := startsWith_eq_false (hother (by decide))
  have hminus : startsWith "-" ('-' :: t) = true := startsWith_iff.mpr (List.prefix_append ['-'] t)
  simp only [parseLine, hgit, hold, hnull, hnew, hdev, hhunk, hplus, hminus, hmarked,
    Bool.false_eq_true, if_false, Bool.false_and, Bool.not_false, Bool.and_self, if_true]

theorem parseLine_git (h : startsWith "diff --git" t = true) :
    parseLine s t = .ok { s.flush with isNew := false, isDeleted := false } := by
  rw [parseLine, if_pos h]

theorem parseLine_oldPath :
    parseLine s ("--- a/".toList ++ t) =
      .ok (if s.currentFile.isNone then { s with currentFile := some t } else s) := by
  simp [parseLine, startsWith, stripPrefix]

theorem parseLine_oldNull : parseLine s "--- /dev/null".toList = .ok { s with isNew := true } := by
  simp [parseLine, startsWith, stripPrefix]

theorem parseLine_newPath :
    parseLine s ("+++ b/".toList ++ t) = .ok { s with currentFile := some t } := by
  simp [parseLine, startsWith, stripPrefix]

theorem parseLine_newNull :
    parseLine s "+++ /dev/null".toList = .ok { s with isDeleted := true } := by
  simp [parseLine, startsWith, stripPrefix]

theorem parseLine_oldQuoted : parseLine s ("--- \"".toList ++ t) = s.advance := by
  simp [parseLine, startsWith, stripPrefix]

theorem parseLine_newQuoted : parseLine s ("+++ \"".toList ++ t) = s.advance := by
  simp [parseLine, startsWith, stripPrefix]

theorem parseLine_hunk {n : Nat} (h : parseHunkHeader ("@@ ".toList ++ t) = some n) :
    parseLine s ("@@ ".toList ++ t) = .ok { s with currentLine := n } := by
  simp [parseLine, startsWith, stripPrefix] at h ⊢
  rw [h]

end Line

/-! ## The header of a hunk -/

theorem parseU64_toDigits {n : Nat} (h : n < 2 ^ 64) : parseU64 (Nat.toDigits 10 n) = some n := by
  have hdigits : ∀ c ∈ Nat.toDigits 10 n, c.isDigit = true := fun c hc =>
    Nat.isDigit_of_mem_toDigits (by decide) le_rfl hc
  have hsign : withoutSign (Nat.toDigits 10 n) = Nat.toDigits 10 n := by
    unfold withoutSign
    split
    · next rest heq => exact absurd (hdigits '+' (heq ▸ List.mem_cons_self)) (by decide)
    · rfl
  rw [parseU64, hsign, if_pos ⟨Nat.toDigits_ne_nil, List.all_eq_true.mpr hdigits⟩,
    Nat.ofDigitChars_ten_toDigits, Option.filter_some, if_pos (decide_eq_true h)]

theorem exists_range_append (start count : Nat) (rest : Text) :
    ∃ sep more, (sep = ',' ∨ sep = ' ') ∧
      Hunk.range start count ++ ' ' :: rest = Nat.toDigits 10 start ++ sep :: more := by
  rw [Hunk.range]
  split
  · exact ⟨' ', rest, Or.inr rfl, rfl⟩
  · exact ⟨',', Nat.toDigits 10 count ++ ' ' :: rest, Or.inl rfl, by simp⟩

theorem notMem_toDigits {c : Char} (hc : c.isDigit = false) {base : Nat} (hbase : 0 < base)
    (hle : base ≤ 10) (n : Nat) : c ∉ Nat.toDigits base n := fun hmem =>
  absurd (Nat.isDigit_of_mem_toDigits hbase hle hmem) (Bool.eq_false_iff.mp hc)

theorem notMem_range {c : Char} (hc : c.isDigit = false) (hcomma : c ≠ ',')
    (start count : Nat) : c ∉ Hunk.range start count := by
  have hdigits : ∀ n, c ∉ Nat.toDigits 10 n := notMem_toDigits hc (by decide) le_rfl
  rw [Hunk.range]
  split
  · exact hdigits start
  · intro hmem
    rcases List.mem_append.mp hmem with hmem | hmem
    · exact hdigits start hmem
    · exact hdigits count ((List.mem_cons.mp hmem).resolve_left hcomma)

theorem parseHunkHeader_eq {pre : Text} {start : Nat} (count : Nat) (rest : Text) (hpre : '+' ∉ pre)
    (hstart : start < 2 ^ 64) :
    parseHunkHeader (pre ++ '+' :: (Hunk.range start count ++ ' ' :: rest)) = some start := by
  obtain ⟨sep, more, hsep, hrange⟩ := exists_range_append start count rest
  have hskip : (pre ++ '+' :: (Hunk.range start count ++ ' ' :: rest)).dropWhile (· ≠ '+') =
      '+' :: (Hunk.range start count ++ ' ' :: rest) := by
    rw [List.dropWhile_append_of_pos]
    · rfl
    · intro c hc
      exact decide_eq_true fun heq : c = '+' => hpre (heq ▸ hc)
  have hdigit : ∀ c ∈ Nat.toDigits 10 start, inNumber c = true := by
    intro c hc
    have hc := Nat.isDigit_of_mem_toDigits (by decide) le_rfl hc
    refine decide_eq_true ⟨?_, ?_⟩
    · rintro rfl
      exact absurd hc (by decide)
    · rintro rfl
      exact absurd hc (by decide)
  have hstop : ¬ inNumber sep = true := by
    rcases hsep with rfl | rfl <;> decide
  rw [parseHunkHeader, hskip]
  simp only [hrange]
  rw [List.dropWhile_append_of_pos hdigit, List.dropWhile_cons_of_neg hstop,
    List.takeWhile_append_of_pos hdigit, List.takeWhile_cons_of_neg hstop, List.append_nil]
  exact parseU64_toDigits hstart

end GitDiff

end CodeGraph
