import CodeGraph.UnifiedDiff

/-!
# What the parser reads of a diff

The parser on what git prints. Every changed line that begins with two more of
its own markers is lost (`parseUnifiedDiff_changes`), so nothing is read right
where there is one. Without them the parser reads file by file: it keeps the
lines of a file whose name it could not read for the next one, and counts the
marker of a missing newline as a line (`parseUnifiedDiff_plain`).
-/

namespace CodeGraph

open List

namespace GitDiff

/-! ## Carriage returns -/

section Chomp

variable {pre text : Text}

theorem chompReturn_append (h : '\r' ∉ pre) : chompReturn (pre ++ text) = pre ++ chompReturn text := by
  rw [chompReturn, chompReturn]
  rcases eq_nil_or_concat text with rfl | ⟨init, c, rfl⟩
  · rw [append_nil, if_neg fun hlast => h (mem_of_getLast? hlast), getLast?_nil,
      if_neg nofun, append_nil]
  · rw [concat_eq_append, ← append_assoc, getLast?_concat, getLast?_concat, dropLast_concat,
      dropLast_concat]
    split
    · rfl
    · exact append_assoc ..

theorem chompReturn_cons {c : Char} (h : c ≠ '\r') : chompReturn (c :: text) = c :: chompReturn text :=
  chompReturn_append (mt mem_singleton.mp h.symm)

theorem chompReturn_eq_self (h : '\r' ∉ text) : chompReturn text = text :=
  if_neg fun hlast => h (mem_of_getLast? hlast)

/-- How a line begins is not changed. -/
theorem prefix_chompReturn (h : '\r' ∉ pre) : pre <+: chompReturn text ↔ pre <+: text := by
  refine ⟨fun hpre => hpre.trans ?_, ?_⟩
  · rw [chompReturn]
    split
    · exact dropLast_prefix text
    · exact prefix_rfl
  · rintro ⟨rest, rfl⟩
    rw [chompReturn_append h]
    exact prefix_append pre _

end Chomp

/-! ## Runs -/

section Run

variable {s : DiffState}

theorem parseLines_cons {line : Text} {ls : List Text} :
    parseLines s (line :: ls) = (parseLine s line).bind (parseLines · ls) := rfl

theorem parseLines_append {ls ms : List Text} :
    parseLines s (ls ++ ms) = (parseLines s ls).bind (parseLines · ms) := foldlM_append

theorem advance_eq (h : s.currentLine < diffLineMax) :
    s.advance = .ok { s with currentLine := s.currentLine + 1 } := if_neg h.not_ge

end Run

/-! ## The lines of a hunk -/

/-- The line does not begin with two more of its own markers. -/
def BodyLine.Plain : BodyLine → Prop
  | .added text => ¬ ['+', '+'] <+: text.val
  | .deleted text => ¬ ['-', '-'] <+: text.val
  | .context _ | .noNewline => True

instance : DecidablePred BodyLine.Plain
  | .added text => inferInstanceAs (Decidable (¬ ['+', '+'] <+: text.val))
  | .deleted text => inferInstanceAs (Decidable (¬ ['-', '-'] <+: text.val))
  | .context _ | .noNewline => isTrue trivial

/-- As `Hunk.positions`, with the marker of a missing newline counted. -/
def readPositions : Nat → List BodyLine → List Nat
  | _, [] => []
  | n, .context _ :: body => readPositions (n + 1) body
  | n, .added _ :: body => n :: readPositions (n + 1) body
  | n, .deleted _ :: body => n :: readPositions n body
  | n, .noNewline :: body => readPositions (n + 1) body

def bodyLines (body : List BodyLine) : List Text := body.map fun line => chompReturn line.render

theorem parseLines_body (left : Nat) : ∀ {body : List BodyLine} {s : DiffState},
    (∀ line ∈ body, line.Plain) → s.currentLine + body.length + left ≤ diffLineMax →
    ∃ n, n + left ≤ diffLineMax ∧ parseLines s (bodyLines body) =
      .ok { s with
        currentLines := s.currentLines ++ readPositions s.currentLine body
        currentLine := n }
  | [], s, _, hroom => by
      refine ⟨s.currentLine, by simpa using hroom, ?_⟩
      rw [readPositions, append_nil]
      rfl
  | line :: body, s, hplain, hroom => by
      obtain ⟨hline, hbody⟩ := forall_mem_cons.mp hplain
      rw [length_cons] at hroom
      have hlt : s.currentLine < diffLineMax := by omega
      rw [bodyLines, map_cons, parseLines_cons]
      cases line with
      | context text =>
          have hparse : parseLine s (chompReturn (BodyLine.context text).render) = s.advance := by
            rw [BodyLine.render, chompReturn_cons (by decide), parseLine_context]
          rw [hparse, advance_eq hlt]
          exact parseLines_body left hbody (by show s.currentLine + 1 + _ + _ ≤ _; omega)
      | added text =>
          have hmark : ¬ ['+', '+'] <+: chompReturn text.val :=
            mt (prefix_chompReturn (by decide)).mp hline
          have hparse : parseLine s (chompReturn (BodyLine.added text).render) =
              s.push.advance := by
            rw [BodyLine.render, chompReturn_cons (by decide), parseLine_added hmark]
          rw [hparse, advance_eq (s := s.push) hlt]
          obtain ⟨n, hn, hrun⟩ := parseLines_body left
            (s := { s.push with currentLine := s.push.currentLine + 1 }) hbody
            (by show s.currentLine + 1 + _ + _ ≤ _; omega)
          refine ⟨n, hn, hrun.trans ?_⟩
          simp [readPositions, DiffState.push]
      | deleted text =>
          have hmark : ¬ ['-', '-'] <+: chompReturn text.val :=
            mt (prefix_chompReturn (by decide)).mp hline
          have hparse : parseLine s (chompReturn (BodyLine.deleted text).render) = .ok s.push := by
            rw [BodyLine.render, chompReturn_cons (by decide), parseLine_deleted hmark]
          rw [hparse]
          obtain ⟨n, hn, hrun⟩ := parseLines_body left (s := s.push) hbody
            (by show s.currentLine + _ + _ ≤ _; omega)
          refine ⟨n, hn, hrun.trans ?_⟩
          simp [readPositions, DiffState.push]
      | noNewline =>
          have hparse : parseLine s (chompReturn BodyLine.noNewline.render) = s.advance := by
            rw [chompReturn_eq_self (by simp [BodyLine.render]), parseLine_noNewline]
          rw [hparse, advance_eq hlt]
          exact parseLines_body left hbody (by show s.currentLine + 1 + _ + _ ≤ _; omega)

/-! ## Hunks -/

theorem parseLine_header (h : Hunk) {s : DiffState} (hstart : h.newStart < 2 ^ 64) :
    parseLine s (chompReturn h.header) = .ok { s with currentLine := h.newStart } := by
  have hsplit : h.header = ("@@ -".toList ++ Hunk.range h.oldStart (h.body.countP (·.inOld)) ++
      " +".toList ++ Hunk.range h.newStart (h.body.countP (·.inNew)) ++ " @@".toList) ++
        h.heading.val := rfl
  have hreturn : '\r' ∉ "@@ -".toList ++ Hunk.range h.oldStart (h.body.countP (·.inOld)) ++
      " +".toList ++ Hunk.range h.newStart (h.body.countP (·.inNew)) ++ " @@".toList := by
    simp only [mem_append, not_or]
    exact ⟨⟨⟨⟨by simp, notMem_range (by decide) (by decide) _ _⟩, by simp⟩,
      notMem_range (by decide) (by decide) _ _⟩, by simp⟩
  have hplus : '+' ∉ "@@ -".toList ++ Hunk.range h.oldStart (h.body.countP (·.inOld)) ++ [' '] := by
    simp only [mem_append, not_or]
    exact ⟨⟨by simp, notMem_range (by decide) (by decide) _ _⟩, by decide⟩
  have hline : chompReturn h.header =
      ("@@ -".toList ++ Hunk.range h.oldStart (h.body.countP (·.inOld)) ++ [' ']) ++
        '+' :: (Hunk.range h.newStart (h.body.countP (·.inNew)) ++
          ' ' :: ("@@".toList ++ chompReturn h.heading.val)) := by
    rw [hsplit, chompReturn_append hreturn]
    simp
  have hparse := parseHunkHeader_eq (h.body.countP (·.inNew))
    ("@@".toList ++ chompReturn h.heading.val) hplus hstart
  rw [← hline] at hparse
  have hmark : "@@ ".toList <+: chompReturn h.header := by
    have hshort : "@@ ".toList <+: "@@ -".toList := by simp
    rw [hline]
    exact ((hshort.trans (prefix_append _ _)).trans (prefix_append _ _)).trans
      (prefix_append _ _)
  obtain ⟨t, ht⟩ := hmark
  rw [← ht] at hparse ⊢
  exact parseLine_hunk hparse

def hunkLines (hunks : List Hunk) : List Text := (hunks.flatMap Hunk.render).map chompReturn

def Hunk.readLines (h : Hunk) : List Nat := readPositions h.newStart h.body

theorem hunkLines_cons {h : Hunk} {hunks : List Hunk} :
    hunkLines (h :: hunks) = chompReturn h.header :: (bodyLines h.body ++ hunkLines hunks) := by
  simp [hunkLines, Hunk.render, bodyLines]

theorem parseLines_hunks (left : Nat) : ∀ (hunks : List Hunk) {s : DiffState},
    (∀ h ∈ hunks, ∀ line ∈ h.body, line.Plain) →
    s.currentLine + (hunkLines hunks).length + left ≤ diffLineMax →
    (∀ h ∈ hunks, h.newStart + ((hunkLines hunks).length + left) ≤ diffLineMax) →
    ∃ n, n + left ≤ diffLineMax ∧ parseLines s (hunkLines hunks) =
      .ok { s with
        currentLines := s.currentLines ++ hunks.flatMap Hunk.readLines
        currentLine := n }
  | [], s, _, hroom, _ => by
      refine ⟨s.currentLine, by simpa [hunkLines] using hroom, ?_⟩
      rw [flatMap_nil, append_nil]
      rfl
  | h :: hunks, s, hplain, hroom, hfits => by
      obtain ⟨hbody, hrest⟩ := forall_mem_cons.mp hplain
      have hlen : (hunkLines (h :: hunks)).length =
          1 + h.body.length + (hunkLines hunks).length := by
        rw [hunkLines_cons]
        simp [bodyLines]
        omega
      rw [hlen] at hroom hfits
      have hstart := hfits h mem_cons_self
      have hsmall : h.newStart < 2 ^ 64 := by
        have : diffLineMax < 2 ^ 64 := by decide
        omega
      rw [hunkLines_cons, parseLines_cons, parseLine_header h hsmall]
      obtain ⟨n, hn, hrun⟩ := parseLines_body ((hunkLines hunks).length + left)
        (s := { s with currentLine := h.newStart }) hbody (by show h.newStart + _ + _ ≤ _; omega)
      obtain ⟨m, hm, hrun'⟩ := parseLines_hunks left hunks
        (s := { s with
          currentLines := s.currentLines ++ readPositions h.newStart h.body
          currentLine := n })
        hrest (by show n + _ + _ ≤ _; omega) fun k hk => by
          have := hfits k (mem_cons_of_mem _ hk)
          omega
      refine ⟨m, hm, ?_⟩
      show parseLines _ (bodyLines h.body ++ hunkLines hunks) = _
      rw [parseLines_append, hrun]
      refine hrun'.trans ?_
      simp [Hunk.readLines]

/-! ## Names -/

/-- What is read of a name on a line of its own: nothing of a quoted one, and the
tab behind one with a space. -/
def readName (quotepath : Bool) (path : Text) : Option Text :=
  if path.all (isBareChar quotepath) then some (if ' ' ∈ path then path ++ ['\t'] else path)
  else none

section Names

variable {quotepath : Bool} {path : Text}

theorem headerName_bare (pre : Text) (hpre : pre.all (isBareChar quotepath) = true) (hspace : ' ' ∉ pre)
    {name : Text} (h : readName quotepath path = some name) :
    headerName quotepath (pre ++ path) = pre ++ name ∧ '\r' ∉ name := by
  rw [readName] at h
  split at h
  · next hbare =>
      have hname : diffName quotepath (pre ++ path) = pre ++ path := by
        rw [diffName, if_pos]
        rw [all_append, hpre, hbare]
        rfl
      have hreturn : '\r' ∉ path := fun hmem => by
        have hc := all_eq_true.mp hbare '\r' hmem
        cases quotepath <;> exact absurd hc (by decide)
      have hmem : ' ' ∈ pre ++ path ↔ ' ' ∈ path := mem_append.trans (or_iff_right hspace)
      rw [headerName, hname]
      by_cases hpath : ' ' ∈ path
      · rw [if_pos hpath] at h
        cases h
        refine ⟨(if_pos (hmem.mpr hpath)).trans (append_assoc ..), fun htab => ?_⟩
        rcases mem_append.mp htab with htab | htab
        · exact hreturn htab
        · exact absurd htab (by decide)
      · rw [if_neg hpath] at h
        cases h
        exact ⟨if_neg (mt hmem.mp hpath), hreturn⟩
  · cases h

theorem headerName_quoted (pre : Text) (h : readName quotepath path = none) :
    ∃ rest, headerName quotepath (pre ++ path) = '"' :: rest := by
  rw [readName] at h
  split at h
  · cases h
  · next hbare =>
      have hname : ¬ (pre ++ path).all (isBareChar quotepath) = true := by
        rw [all_append, Bool.and_eq_true]
        intro hall
        exact hbare hall.2
      rw [headerName, diffName, if_neg hname]
      split
      · exact ⟨_, rfl⟩
      · exact ⟨_, rfl⟩

end Names

namespace FileDiff

variable {quotepath : Bool} {f : FileDiff} {s : DiffState}

def oldRead (quotepath : Bool) (f : FileDiff) : Option Text :=
  if f.change = .added then none else readName quotepath f.oldPath

def newRead (quotepath : Bool) (f : FileDiff) : Option Text :=
  if f.change = .deleted then none else readName quotepath f.newPath

/-- The path the parser has at the first hunk. -/
def readPath (quotepath : Bool) (f : FileDiff) : Option Text :=
  if f.hunks = [] then none else (f.newRead quotepath).or (f.oldRead quotepath)

variable (quotepath f) in
theorem parseLine_oldLine (hfile : s.currentFile = none) (hnew : s.isNew = false)
    (hroom : s.currentLine < diffLineMax) :
    ∃ n, n ≤ s.currentLine + 1 ∧ parseLine s (chompReturn (f.oldLine quotepath)) =
      .ok { s with
        currentFile := f.oldRead quotepath
        isNew := f.change = .added
        currentLine := n } := by
  rw [oldLine, oldRead]
  by_cases hadded : f.change = .added
  · simp only [if_pos hadded]
    refine ⟨s.currentLine, Nat.le_succ _, ?_⟩
    rw [chompReturn_eq_self (by simp)]
    refine parseLine_oldNull.trans ?_
    rw [← hfile, decide_eq_true hadded]
  · simp only [if_neg hadded, decide_eq_false hadded]
    cases hread : readName quotepath f.oldPath with
    | none =>
        obtain ⟨rest, hrest⟩ := headerName_quoted "a/".toList hread
        refine ⟨s.currentLine + 1, le_rfl, ?_⟩
        have hline : "--- ".toList ++ '"' :: rest = "--- \"".toList ++ rest := by simp
        rw [hrest, hline, chompReturn_append (by simp), parseLine_oldQuoted,
          advance_eq hroom, ← hfile, ← hnew]
    | some name =>
        obtain ⟨hname, hreturn⟩ := headerName_bare "a/".toList
          (by cases quotepath <;> simp [isBareChar, isPlainChar]) (by simp) hread
        refine ⟨s.currentLine, Nat.le_succ _, ?_⟩
        have hline : "--- ".toList ++ ("a/".toList ++ name) = "--- a/".toList ++ name := by simp
        rw [hname, hline, chompReturn_append (by simp), chompReturn_eq_self hreturn,
          parseLine_oldPath, hfile, ← hnew]
        rfl

variable (quotepath f) in
theorem parseLine_newLine (hdeleted : s.isDeleted = false) (hroom : s.currentLine < diffLineMax) :
    ∃ n, n ≤ s.currentLine + 1 ∧ parseLine s (chompReturn (f.newLine quotepath)) =
      .ok { s with
        currentFile := (f.newRead quotepath).or s.currentFile
        isDeleted := f.change = .deleted
        currentLine := n } := by
  rw [newLine, newRead]
  by_cases hchange : f.change = .deleted
  · simp only [if_pos hchange]
    refine ⟨s.currentLine, Nat.le_succ _, ?_⟩
    rw [chompReturn_eq_self (by simp)]
    refine parseLine_newNull.trans ?_
    rw [decide_eq_true hchange]
    rfl
  · simp only [if_neg hchange, decide_eq_false hchange]
    cases hread : readName quotepath f.newPath with
    | none =>
        obtain ⟨rest, hrest⟩ := headerName_quoted "b/".toList hread
        refine ⟨s.currentLine + 1, le_rfl, ?_⟩
        have hline : "+++ ".toList ++ '"' :: rest = "+++ \"".toList ++ rest := by simp
        rw [hrest, hline, chompReturn_append (by simp), parseLine_newQuoted,
          advance_eq hroom, ← hdeleted]
        rfl
    | some name =>
        obtain ⟨hname, hreturn⟩ := headerName_bare "b/".toList
          (by cases quotepath <;> simp [isBareChar, isPlainChar]) (by simp) hread
        refine ⟨s.currentLine, Nat.le_succ _, ?_⟩
        have hline : "+++ ".toList ++ ("b/".toList ++ name) = "+++ b/".toList ++ name := by simp
        rw [hname, hline, chompReturn_append (by simp), chompReturn_eq_self hreturn,
          parseLine_newPath, ← hdeleted]
        rfl

variable (quotepath) in
theorem parseLines_names (left : Nat) (hhunks : f.hunks ≠ []) (hfile : s.currentFile = none)
    (hnew : s.isNew = false) (hdeleted : s.isDeleted = false)
    (hroom : s.currentLine + 2 + left ≤ diffLineMax) :
    ∃ n, n + left ≤ diffLineMax ∧
      parseLines s [chompReturn (f.oldLine quotepath), chompReturn (f.newLine quotepath)] =
        .ok { s with
          currentFile := f.readPath quotepath
          isNew := f.change = .added
          isDeleted := f.change = .deleted
          currentLine := n } := by
  obtain ⟨n, hn, hold⟩ := parseLine_oldLine quotepath f hfile hnew (by omega)
  obtain ⟨m, hm, hnew⟩ := parseLine_newLine quotepath f
    (s := { s with
      currentFile := f.oldRead quotepath
      isNew := f.change = .added
      currentLine := n })
    hdeleted (by show n < _; omega)
  have hm : m ≤ n + 1 := hm
  refine ⟨m, by omega, ?_⟩
  rw [parseLines_cons, hold]
  show (parseLine _ _).bind _ = _
  rw [hnew, readPath, if_neg hhunks]
  rfl

/-! ## Files -/

theorem keyword_unmarked : ∀ k ∈ extendedKeywords, '\r' ∉ k ∧
    ¬ "diff --git".toList <+: k ∧ ¬ k <+: "diff --git".toList ∧
    (k.head?.any fun c => c ≠ '-' ∧ c ≠ '+' ∧ c ≠ '@') = true := by
  simp [extendedKeywords]

theorem parseLine_extended (line : ExtendedLine) :
    parseLine s (chompReturn line.val) = s.advance := by
  obtain ⟨-, k, hk, hprefix⟩ := line.property
  obtain ⟨hreturn, hlong, hshort, hhead⟩ := keyword_unmarked k hk
  have hline : k <+: chompReturn line.val := (prefix_chompReturn hreturn).mpr hprefix
  have hgit : ¬ "diff --git".toList <+: chompReturn line.val := fun hgit =>
    ( prefix_or_prefix_of_prefix hgit hline).elim hlong hshort
  obtain ⟨rest, hrest⟩ := hline
  match k, hhead with
  | c :: t, hhead =>
      rw [← hrest] at hgit ⊢
      exact parseLine_other hgit (of_decide_eq_true hhead)

def extendedLines (lines : List ExtendedLine) : List Text :=
  lines.map fun line => chompReturn line.val

theorem parseLines_extended (left : Nat) : ∀ (lines : List ExtendedLine) {s : DiffState},
    s.currentLine + lines.length + left ≤ diffLineMax →
    ∃ n, n + left ≤ diffLineMax ∧
      parseLines s (extendedLines lines) = .ok { s with currentLine := n }
  | [], s, hroom => ⟨s.currentLine, by simpa using hroom, rfl⟩
  | line :: lines, s, hroom => by
      rw [length_cons] at hroom
      rw [extendedLines, map_cons, parseLines_cons, parseLine_extended,
        advance_eq (by omega)]
      exact parseLines_extended left lines (by show s.currentLine + 1 + _ + _ ≤ _; omega)

def readLines (f : FileDiff) : List Nat := f.hunks.flatMap Hunk.readLines

def fileLines (quotepath : Bool) (f : FileDiff) : List Text :=
  (f.render quotepath).map chompReturn

theorem parseLine_gitLine : parseLine s (chompReturn (f.gitLine quotepath)) =
    .ok { s.flush with isNew := false, isDeleted := false } := by
  have hreturn : '\r' ∉ "diff --git".toList := by simp
  have hshort : "diff --git".toList <+: "diff --git ".toList := by simp
  have hline : "diff --git".toList <+: f.gitLine quotepath :=
    (hshort.trans (prefix_append _ _)).trans (prefix_append _ _)
  have hstarts : startsWith "diff --git" (chompReturn (f.gitLine quotepath)) = true := by
    rw [startsWith_iff, prefix_chompReturn hreturn]
    exact hline
  exact parseLine_git hstarts

theorem flush_currentFile : s.flush.currentFile = none := by
  rw [DiffState.flush]
  split
  · rfl
  · assumption

theorem flush_currentLine : s.flush.currentLine = s.currentLine := by
  rw [DiffState.flush]
  split
  · rfl
  · rfl

variable (quotepath) in
/-- The file before is filed, and the lines of this one are gathered behind what
was kept. -/
theorem parseLines_file (left : Nat) (hplain : ∀ h ∈ f.hunks, ∀ line ∈ h.body, line.Plain)
    (hroom : s.currentLine + (f.fileLines quotepath).length + left ≤ diffLineMax)
    (hfits : ∀ h ∈ f.hunks,
      h.newStart + ((f.fileLines quotepath).length + left) ≤ diffLineMax) :
    ∃ n isNew isDeleted, n + left ≤ diffLineMax ∧
      (f.hunks ≠ [] → isNew = decide (f.change = .added) ∧
        isDeleted = decide (f.change = .deleted)) ∧
      parseLines s (f.fileLines quotepath) =
        .ok ⟨s.flush.hunks, f.readPath quotepath, s.flush.currentLines ++ f.readLines, n, isNew,
          isDeleted⟩ := by
  have hsplit : f.fileLines quotepath = chompReturn (f.gitLine quotepath) ::
      (extendedLines f.extended ++ ((f.names quotepath).map chompReturn ++
        hunkLines f.hunks)) := by
    simp [fileLines, render, extendedLines, hunkLines]
  have hlen : (f.fileLines quotepath).length =
      1 + f.extended.length + (f.names quotepath).length + (hunkLines f.hunks).length := by
    rw [hsplit]
    simp [extendedLines]
    omega
  rw [hlen] at hroom hfits
  obtain ⟨n, hn, hextended⟩ := parseLines_extended
    ((f.names quotepath).length + (hunkLines f.hunks).length + left) f.extended
    (s := { s.flush with isNew := false, isDeleted := false })
    (by show s.flush.currentLine + _ + _ ≤ _; rw [flush_currentLine]; omega)
  have hstart : parseLines s (f.fileLines quotepath) =
      parseLines { s.flush with isNew := false, isDeleted := false, currentLine := n }
        ((f.names quotepath).map chompReturn ++ hunkLines f.hunks) := by
    rw [hsplit, parseLines_cons, parseLine_gitLine]
    show parseLines _ (extendedLines f.extended ++ _) = _
    rw [parseLines_append, hextended]
    rfl
  rw [hstart]
  by_cases hhunks : f.hunks = []
  · refine ⟨n, false, false, by omega, fun h => absurd hhunks h, ?_⟩
    rw [names, readPath, readLines, hhunks, if_pos rfl, if_pos rfl, flatMap_nil,
      append_nil, ← flush_currentFile (s := s)]
    rfl
  · have hnames : (f.names quotepath).map chompReturn =
        [chompReturn (f.oldLine quotepath), chompReturn (f.newLine quotepath)] := by
      rw [names, if_neg hhunks]
      rfl
    have hcount : (f.names quotepath).length = 2 := by rw [names, if_neg hhunks]; rfl
    rw [hcount] at hn hroom hfits
    obtain ⟨m, hm, hnamed⟩ := parseLines_names quotepath
      ((hunkLines f.hunks).length + left) hhunks
      (s := { s.flush with isNew := false, isDeleted := false, currentLine := n })
      flush_currentFile rfl rfl (by show n + _ + _ ≤ _; omega)
    obtain ⟨k, hk, hhunk⟩ := parseLines_hunks left f.hunks
      (s := ⟨s.flush.hunks, f.readPath quotepath, s.flush.currentLines, m, f.change = .added,
        f.change = .deleted⟩)
      hplain (by show m + _ + _ ≤ _; omega) fun h hh => by
        have := hfits h hh
        omega
    refine ⟨k, f.change = .added, f.change = .deleted, hk, fun _ => ⟨rfl, rfl⟩, ?_⟩
    rw [hnames, parseLines_append, hnamed]
    exact hhunk

def expected (f : FileDiff) : FileHunk :=
  ⟨f.path, f.positions, f.change = .added, f.change = .deleted⟩

end FileDiff

/-- A file without a readable path is left out, and its lines go to the next one. -/
def readFiles (quotepath : Bool) : List Nat → List FileDiff → List FileHunk
  | _, [] => []
  | kept, f :: files =>
      match f.readPath quotepath with
      | some path =>
          ⟨path, kept ++ f.readLines, f.change = .added, f.change = .deleted⟩ ::
            readFiles quotepath [] files
      | none => readFiles quotepath (kept ++ f.readLines) files

section Files

variable {quotepath : Bool}

theorem flush_of_path {s : DiffState} {path : Text} (h : s.currentFile = some path) :
    s.flush.hunks = s.hunks ++ [⟨path, s.currentLines, s.isNew, s.isDeleted⟩] ∧
      s.flush.currentLines = [] := by
  rw [DiffState.flush, h]
  exact ⟨rfl, rfl⟩

theorem flush_of_none {s : DiffState} (h : s.currentFile = none) : s.flush = s := by
  rw [DiffState.flush, h]

def filesLines (quotepath : Bool) (files : List FileDiff) : List Text :=
  files.flatMap (FileDiff.fileLines quotepath)

theorem parseLines_files : ∀ {files : List FileDiff} {s : DiffState},
    (∀ f ∈ files, ∀ h ∈ f.hunks, ∀ line ∈ h.body, line.Plain) →
    s.currentLine + (filesLines quotepath files).length ≤ diffLineMax →
    (∀ f ∈ files, ∀ h ∈ f.hunks,
      h.newStart + (filesLines quotepath files).length ≤ diffLineMax) →
    ∃ t, parseLines s (filesLines quotepath files) = .ok t ∧
      t.flush.hunks = s.flush.hunks ++ readFiles quotepath s.flush.currentLines files
  | [], s, _, _, _ => ⟨s, rfl, (append_nil _).symm⟩
  | f :: files, s, hplain, hroom, hfits => by
      obtain ⟨hfile, hrest⟩ := forall_mem_cons.mp hplain
      have hlines : filesLines quotepath (f :: files) =
          f.fileLines quotepath ++ filesLines quotepath files := rfl
      rw [hlines, length_append] at hroom hfits
      obtain ⟨n, isNew, isDeleted, hn, hflags, hrun⟩ :=
        FileDiff.parseLines_file quotepath (filesLines quotepath files).length
          (s := s) hfile (by omega) fun h hh => hfits f mem_cons_self h hh
      obtain ⟨t, hrun', hhunks⟩ := parseLines_files
        (s := ⟨s.flush.hunks, f.readPath quotepath, s.flush.currentLines ++ f.readLines, n, isNew,
          isDeleted⟩)
        hrest hn fun g hg h hh => by
          have := hfits g (mem_cons_of_mem _ hg) h hh
          omega
      refine ⟨t, ?_, ?_⟩
      · rw [hlines, parseLines_append, hrun]
        exact hrun'
      · rw [hhunks, readFiles]
        cases hpath : f.readPath quotepath with
        | none =>
            rw [flush_of_none rfl]
        | some path =>
            have hne : f.hunks ≠ [] := fun heq => by
              rw [FileDiff.readPath, if_pos heq] at hpath
              cases hpath
            obtain ⟨rfl, rfl⟩ := hflags hne
            obtain ⟨hfiled, hempty⟩ := flush_of_path
              (s := ⟨s.flush.hunks, some path, s.flush.currentLines ++ f.readLines, n,
                f.change = .added, f.change = .deleted⟩) rfl
            rw [hfiled, hempty, append_assoc]
            rfl

end Files

/-! ## The text -/

section Text

variable {quotepath : Bool}

theorem newline_notMem_octal (n : Nat) : '\n' ∉ octal n := by
  have hdigits := notMem_toDigits (by decide : '\n'.isDigit = false) (by decide : 0 < 8) (by decide)
  simp only [octal, mem_append, not_or]
  exact ⟨⟨hdigits _, hdigits _⟩, hdigits _⟩

theorem newline_notMem_escapeNameChar (c : Char) : '\n' ∉ escapeNameChar quotepath c := by
  rw [escapeNameChar]
  split
  · next hbare =>
      intro hmem
      rw [← mem_singleton.mp hmem] at hbare
      cases quotepath <;> exact absurd hbare (by decide)
  · split
    · intro hmem
      obtain ⟨b, -, hmem⟩ := mem_flatMap.mp hmem
      exact newline_notMem_octal _ ((mem_cons.mp hmem).resolve_left (by decide))
    · intro hmem
      exact (isFieldChar_of_mem_escapeChar hmem).2.1 rfl

theorem newline_notMem_diffName (name : Text) : '\n' ∉ diffName quotepath name := by
  rw [diffName]
  split
  · next hbare =>
      intro hmem
      have hc := all_eq_true.mp hbare '\n' hmem
      cases quotepath <;> exact absurd hc (by decide)
  · intro hmem
    rcases mem_append.mp hmem with hmem | hmem
    · rcases mem_cons.mp hmem with heq | hmem
      · exact absurd heq (by decide)
      · obtain ⟨c, -, hmem⟩ := mem_flatMap.mp hmem
        exact newline_notMem_escapeNameChar c hmem
    · exact absurd hmem (by decide)

theorem newline_notMem_headerName (name : Text) : '\n' ∉ headerName quotepath name := by
  rw [headerName]
  split
  · intro hmem
    rcases mem_append.mp hmem with hmem | hmem
    · exact newline_notMem_diffName name hmem
    · exact absurd hmem (by decide)
  · exact newline_notMem_diffName name

theorem newline_notMem_bodyLine (line : BodyLine) : '\n' ∉ line.render := by
  cases line with
  | context text => exact not_mem_cons_of_ne_of_not_mem (by decide) text.property
  | added text => exact not_mem_cons_of_ne_of_not_mem (by decide) text.property
  | deleted text => exact not_mem_cons_of_ne_of_not_mem (by decide) text.property
  | noNewline => simp [BodyLine.render]

theorem newline_notMem_header (h : Hunk) : '\n' ∉ h.header := by
  have hrange := fun start count =>
    notMem_range (by decide : '\n'.isDigit = false) (by decide) start count
  have hopen : '\n' ∉ "@@ -".toList := by simp
  have hplus : '\n' ∉ " +".toList := by simp
  have hclose : '\n' ∉ " @@".toList := by simp
  have hranges := not_mem_append
    (not_mem_append (not_mem_append hopen (hrange h.oldStart (h.body.countP (·.inOld))))
      hplus) (hrange h.newStart (h.body.countP (·.inNew)))
  exact not_mem_append (not_mem_append hranges hclose) h.heading.property

theorem newline_notMem_gitLine (f : FileDiff) : '\n' ∉ f.gitLine quotepath := by
  have hopen : '\n' ∉ "diff --git ".toList := by simp
  refine not_mem_append (not_mem_append hopen (newline_notMem_diffName _)) ?_
  exact not_mem_cons_of_ne_of_not_mem (by decide) (newline_notMem_diffName _)

theorem newline_notMem_names (f : FileDiff) : ∀ line ∈ f.names quotepath, '\n' ∉ line := by
  have hnull : '\n' ∉ "/dev/null".toList := by simp
  have hold : '\n' ∉ "--- ".toList := by simp
  have hnew : '\n' ∉ "+++ ".toList := by simp
  intro line hline
  rw [FileDiff.names] at hline
  split at hline
  · exact absurd hline not_mem_nil
  · rcases mem_cons.mp hline with heq | hline
    · rw [heq, FileDiff.oldLine]
      refine not_mem_append hold ?_
      split
      · exact hnull
      · exact newline_notMem_headerName _
    · rw [mem_singleton.mp hline, FileDiff.newLine]
      refine not_mem_append hnew ?_
      split
      · exact hnull
      · exact newline_notMem_headerName _

theorem newline_notMem_render (f : FileDiff) : ∀ line ∈ f.render quotepath, '\n' ∉ line := by
  intro line hline
  rw [FileDiff.render, mem_append, mem_append, mem_cons] at hline
  rcases hline with ((heq | hline) | hline) | hline
  · exact heq ▸ newline_notMem_gitLine f
  · obtain ⟨extended, -, rfl⟩ := mem_map.mp hline
    exact extended.property.1
  · exact newline_notMem_names f line hline
  · obtain ⟨h, -, hline⟩ := mem_flatMap.mp hline
    rcases mem_cons.mp hline with heq | hline
    · exact heq ▸ newline_notMem_header h
    · obtain ⟨body, -, rfl⟩ := mem_map.mp hline
      exact newline_notMem_bodyLine body

theorem lines_text (d : UnifiedDiff) : lines d.text = filesLines d.quotepath d.files := by
  rw [UnifiedDiff.text, lines_printLines_eq_map, map_flatMap]
  · rfl
  · intro line hline
    obtain ⟨f, -, hline⟩ := mem_flatMap.mp hline
    exact newline_notMem_render f line hline

theorem length_filesLines (d : UnifiedDiff) :
    (filesLines d.quotepath d.files).length =
      (d.files.flatMap (FileDiff.render d.quotepath)).length := by
  have hmap : filesLines d.quotepath d.files =
      (d.files.flatMap (FileDiff.render d.quotepath)).map chompReturn := by
    rw [map_flatMap]
    rfl
  rw [hmap, length_map]

theorem parseUnifiedDiff_plain (d : UnifiedDiff)
    (hplain : ∀ f ∈ d.files, ∀ h ∈ f.hunks, ∀ line ∈ h.body, line.Plain) :
    parseUnifiedDiff d.text = .ok (readFiles d.quotepath [] d.files) := by
  have hroom : DiffState.init.currentLine + (filesLines d.quotepath d.files).length ≤
      diffLineMax := by
    rw [length_filesLines]
    exact (Nat.zero_add _).trans_le d.short
  obtain ⟨t, hrun, hhunks⟩ := parseLines_files hplain hroom fun f hf h hh => by
    rw [length_filesLines]
    exact d.fits f hf h hh
  rw [parseUnifiedDiff, lines_text, hrun]
  exact congrArg Except.ok hhunks

end Text

end GitDiff

end CodeGraph
