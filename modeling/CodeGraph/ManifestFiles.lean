import Mathlib.Data.List.TakeWhile
import CodeGraph.ManifestRoles

/-!
# The documents of a file

A file of manifests is split where it was joined: no line of a manifest is a separator. Each of
its documents that has a kind is then scanned by itself.
-/

namespace CodeGraph

open List

namespace ManifestScan

open BlockTree

def kindKey : Key := ⟨"kind".toList, isPlain_of_letters rfl, by decide⟩

namespace Manifest

def HasKind (doc : Manifest) : Prop := doc.valueAt [.key kindKey] ≠ []

/-- What the scan has of a document behind its last line. -/
def state (doc : Manifest) : DocumentState := doc.lines.foldl DocumentState.line {}

end Manifest

/-! ## The kind -/

theorem take_kind (s : DocumentState) (indent : ℕ) (key value : Text) :
    (s.take indent key value).kind
      = if key = "kind".toList ∧ indent = 0 ∧ s.kind = [] then unquote value else s.kind := by
  by_cases hkind : key = "kind".toList ∧ indent = 0 ∧ s.kind = []
  · have hapi : ¬ (key = "apiVersion".toList ∧ indent = 0) := by
      rw [hkind.1]
      exact fun h => absurd h.1 (by decide)
    rw [DocumentState.take, if_neg hapi, if_pos hkind, if_pos hkind]
  · rw [DocumentState.take, if_neg hkind, if_neg hkind]
    split_ifs
    · rfl
    · rfl
    · cases s.refMarker with
      | some marker => rfl
      | none =>
          cases s.metadataIndent with
          | none => rfl
          | some mi => dsimp only; split_ifs <;> rfl
    · cases s.metadataIndent with
      | none => rfl
      | some mi => dsimp only; split_ifs <;> rfl
    · rfl
    · rfl
    · rfl
    · cases refKindOf key <;> rfl

theorem line_kind {s : DocumentState} (h : s.kind ≠ []) (raw : Text) : (s.line raw).kind ≠ [] := by
  rw [DocumentState.line]
  cases readLine raw with
  | none => exact h
  | some r =>
      dsimp only
      rw [take_kind, if_neg fun hkind => h hkind.2.2]
      exact h

theorem foldl_line_kind {s : DocumentState} (h : s.kind ≠ []) (raws : List Text) :
    (raws.foldl DocumentState.line s).kind ≠ [] := by
  induction raws generalizing s with
  | nil => exact h
  | cons raw raws ih => exact ih (line_kind h raw)

variable {doc : Manifest} {path : Path}

theorem valueAt_of_holds {a : Scalar}
    (h : BlockTree.Holds doc.rows path a) : doc.valueAt path = a.value := by
  rw [Manifest.valueAt, (Entries.holds doc.distinct).mp h]

theorem valueAt_of_not_holds
    (h : ∀ a, ¬ BlockTree.Holds doc.rows path a) : doc.valueAt path = [] := by
  rw [Manifest.valueAt]
  split
  · next a hat => exact absurd ((Entries.holds doc.distinct).mpr hat) (h a)
  · rfl

theorem exists_of_valueAt (h : doc.valueAt path ≠ []) :
    ∃ a, BlockTree.Holds doc.rows path a ∧ a.value ≠ [] := by
  by_contra hno
  rw [not_exists] at hno
  by_cases hholds : ∃ a, BlockTree.Holds doc.rows path a
  · obtain ⟨a, ha⟩ := hholds
    exact hno a ⟨ha, valueAt_of_holds ha ▸ h⟩
  · exact h (valueAt_of_not_holds (not_exists.mp hholds))

theorem Manifest.HasKind.state (h : doc.HasKind) : doc.state.kind ≠ [] := by
  obtain ⟨a, ⟨row, hrow, hpath, ha⟩, hvalue⟩ := exists_of_valueAt h
  obtain ⟨hindent, hdashes, hkey⟩ := Entries.row_of_key hrow hpath
  obtain ⟨above, below, hrows⟩ := append_of_mem hrow
  have hlines : doc.lines = above.map lineText ++ lineText row :: below.map lineText := by
    rw [Manifest.lines, show doc.rows = above ++ row :: below from hrows, map_append,
      map_cons]
  have hread : readLine (lineText row) = some (0, "kind".toList, scalarText row.scalar) := by
    rw [readLine_key hkey, hindent, hdashes]
    rfl
  rw [Manifest.state, hlines, foldl_append, foldl_cons]
  refine foldl_line_kind ?_ _
  rw [DocumentState.line, hread]
  dsimp only
  rw [take_kind]
  split_ifs with hkind
  · rw [unquote_scalarText, ha]
    exact hvalue
  · exact fun hempty => hkind ⟨rfl, rfl, hempty⟩

/-! ## Lines and separators -/

variable {c : Char}

theorem mem_dashes {n : ℕ} (h : c ∈ dashes n) : c = '-' ∨ c = ' ' := by
  obtain ⟨piece, hpiece, hc⟩ := mem_flatten.mp h
  rw [eq_of_mem_replicate hpiece] at hc
  simpa using hc

theorem newline_written (a : Scalar) : '\n' ∉ a.written := by
  cases a with
  | plain text h => exact h.line
  | quoted quote text h =>
      rw [Scalar.written, mem_cons, mem_append, mem_singleton]
      rintro (hquote | hin | hquote)
      · cases quote <;> exact absurd hquote (by decide)
      · exact h.1 hin
      · cases quote <;> exact absurd hquote (by decide)

theorem newline_scalarText (scalar : Option Scalar) : '\n' ∉ scalarText scalar := by
  cases scalar with
  | none => exact not_mem_nil
  | some a => exact newline_written a

variable {row : Line}

theorem lineText_key {key : Key} (h : row.key = some key) :
    lineText row = List.replicate row.indent ' ' ++ entryText row.dashes key row.scalar := by
  rw [lineText, h, entryText]

theorem lineText_item (h : row.key = none) : lineText row
      = List.replicate row.indent ' ' ++ (dashes row.dashes ++ scalarText row.scalar) := by
  rw [lineText, h, scalarText]

theorem last_lineText {key : Key} (h : row.key = some key)
    (hc : c ∈ (lineText row).getLast?) : space.isWhitespace c = false := by
  have hne : entryText row.dashes key row.scalar ≠ [] := by simp [entryText]
  rw [lineText_key h, getLast?_append_of_ne_nil _ hne] at hc
  exact (isTrimmed_entryText _ _ _).2 c hc

theorem newline_lineText (row : Line) : '\n' ∉ lineText row := by
  have hspace : '\n' ∉ List.replicate row.indent ' ' :=
    fun h => absurd (eq_of_mem_replicate h) (by decide)
  have hdashes : '\n' ∉ dashes row.dashes :=
    fun h => (mem_dashes h).elim (by decide) (by decide)
  cases hkey : row.key with
  | none =>
      rw [lineText_item hkey, mem_append, mem_append]
      rintro (h | h | h)
      · exact hspace h
      · exact hdashes h
      · exact newline_scalarText _ h
  | some key =>
      rw [lineText_key hkey, entryText, behindColon_eq, mem_append, mem_append,
        mem_append, mem_cons]
      rintro (h | h | h | h | h)
      · exact hspace h
      · exact hdashes h
      · exact key.plain.line h
      · exact absurd h (by decide)
      · split_ifs at h
        · exact not_mem_nil h
        · exact (mem_cons.mp h).elim (by decide) (newline_scalarText _)

theorem chompReturn_lineText (row : Line) : chompReturn (lineText row) = lineText row := by
  refine if_neg fun hlast => ?_
  cases hkey : row.key with
  | some key => exact absurd (last_lineText hkey hlast) (by decide)
  | none =>
      rw [lineText_item hkey, ← append_assoc] at hlast
      by_cases hempty : scalarText row.scalar = []
      · rw [hempty, append_nil] at hlast
        rcases mem_append.mp (mem_of_getLast? hlast) with h | h
        · exact absurd (eq_of_mem_replicate h) (by decide)
        · exact (mem_dashes h).elim (by decide) (by decide)
      · rw [getLast?_append_of_ne_nil _ hempty] at hlast
        exact absurd (last_scalarText hlast).1 (by decide)

theorem trimEnd_isPrefix (text : Text) : trimEnd text <+: text := by
  rw [trimEnd, ← reverse_suffix, reverse_reverse]
  exact dropWhile_suffix _

variable {text : Text}

theorem trimEnd_eq_self (h : ∀ c ∈ text.getLast?, space.isWhitespace c = false) :
    trimEnd text = text := by
  rw [trimEnd]
  cases hrev : text.reverse with
  | nil => simpa using hrev.symm
  | cons c rest =>
      have hc : c ∈ text.getLast? := by rw [← head?_reverse, hrev]; rfl
      rw [dropWhile_cons_of_neg (by simp [h c hc]), ← hrev, reverse_reverse]

/-- No line of a manifest is a separator: that of a key has a colon, and behind the dash of an
item comes a space. -/
theorem lines_notSeparator (doc : Manifest) : ∀ l ∈ doc.lines, trimEnd l ≠ "---".toList := by
  intro l hl hsep
  obtain ⟨row, hrow, rfl⟩ := mem_map.mp hl
  cases hkey : row.key with
  | some key =>
      rw [trimEnd_eq_self fun c hc => last_lineText hkey hc, lineText_key hkey] at hsep
      have hcolon : ':' ∈ "---".toList := by
        rw [← hsep, entryText]
        simp
      exact absurd hcolon (by decide)
  | none =>
      have hprefix := trimEnd_isPrefix (lineText row)
      rw [hsep, lineText_item hkey] at hprefix
      have hpos := Entries.dashed row hrow hkey
      obtain ⟨n, hn⟩ := Nat.exists_eq_add_one_of_ne_zero hpos.ne'
      rw [hn, dashes_succ] at hprefix
      obtain ⟨rest, hrest⟩ := hprefix
      cases hindent : row.indent with
      | zero =>
          rw [hindent] at hrest
          cases (List.cons.inj (List.cons.inj hrest).2).1
      | succ indent =>
          rw [hindent, replicate_succ] at hrest
          cases (List.cons.inj hrest).1

/-- A line that is read back as it was printed. -/
def IsRead (l : Text) : Prop := '\n' ∉ l ∧ chompReturn l = l

theorem isRead_lines (doc : Manifest) : ∀ l ∈ doc.lines, IsRead l := by
  intro l hl
  obtain ⟨row, -, rfl⟩ := mem_map.mp hl
  exact ⟨newline_lineText row, chompReturn_lineText row⟩

theorem lines_printed {ls : List Text} (h : ∀ l ∈ ls, IsRead l) :
    CodeGraph.lines (printLines ls) = ls := by
  rw [lines_printLines_eq_map fun l hl => (h l hl).1]
  exact (map_congr_left fun l hl => (h l hl).2).trans (map_id ls)

theorem isRead_fileLines : ∀ {docs : List Manifest}, ∀ l ∈ fileLines docs, IsRead l
  | [], l, hl => absurd hl not_mem_nil
  | [doc], l, hl => isRead_lines doc l hl
  | doc :: doc' :: docs, l, hl => by
      rcases mem_append.mp hl with hl | hl
      · exact isRead_lines doc l hl
      · rcases mem_cons.mp hl with rfl | hl
        · exact ⟨by decide, by decide⟩
        · exact isRead_fileLines l hl

theorem mem_dropWhile {p : Char → Bool} (hmem : c ∈ text)
    (hc : p c = false) : c ∈ text.dropWhile p := by
  rw [← takeWhile_append_dropWhile (p := p) (l := text), mem_append] at hmem
  rcases hmem with h | h
  · rw [mem_takeWhile_imp h] at hc
    cases hc
  · exact h

theorem trim_ne_nil (hmem : c ∈ text)
    (hc : space.isWhitespace c = false) : trim space text ≠ [] := by
  have htrim : c ∈ trim space text :=
    mem_reverse.mpr (mem_dropWhile (mem_reverse.mpr (mem_dropWhile hmem hc)) hc)
  exact ne_nil_of_mem htrim

theorem trim_text (h : doc.HasKind) : trim space (printLines doc.lines) ≠ [] := by
  obtain ⟨a, ⟨row, hrow, hpath, -⟩, -⟩ := exists_of_valueAt h
  obtain ⟨-, -, hkey⟩ := Entries.row_of_key hrow hpath
  have hcolon : ':' ∈ lineText row := by
    rw [lineText_key hkey, entryText]
    simp
  refine trim_ne_nil (c := ':') (mem_flatMap.mpr ⟨lineText row, ?_, ?_⟩) (by decide)
  · exact mem_map_of_mem hrow
  · exact mem_append_left _ hcolon

/-! ## Splitting -/

theorem printLines_cons (l : Text) (ls : List Text) :
    printLines (l :: ls) = l ++ ['\n'] ++ printLines ls := flatMap_cons

theorem foldl_split {ls : List Text} (h : ∀ l ∈ ls, trimEnd l ≠ "---".toList) (s : Split) :
    ls.foldl Split.line s
      = { s with current := s.current ++ printLines ls, lineNo := s.lineNo + ls.length } := by
  induction ls generalizing s with
  | nil => simp [printLines]
  | cons l ls ih =>
      have hline : s.line l
          = { s with current := s.current ++ l ++ ['\n'], lineNo := s.lineNo + 1 } :=
        if_neg (h l mem_cons_self)
      rw [foldl_cons, ih fun l' hl' => h l' (mem_cons_of_mem l hl'), hline,
        printLines_cons]
      simp only [append_assoc, length_cons, Nat.add_assoc, Nat.add_comm 1]

/-- The chunks of a state, with the one that is not closed yet. -/
def Split.chunks (s : Split) : List (ℕ × Text) :=
  if trim space s.current = [] then s.docs else s.docs ++ [(s.currentStart, s.current)]

theorem splitDocuments_eq (content : Text) :
    splitDocuments content = ((CodeGraph.lines content).foldl Split.line {}).chunks := rfl

theorem chunks_fileLines : ∀ {docs : List Manifest}, (∀ doc ∈ docs, doc.HasKind) → ∀ s : Split,
    s.current = [] → (((fileLines docs).foldl Split.line s).chunks).map Prod.snd
      = s.docs.map Prod.snd ++ docs.map fun doc => printLines doc.lines
  | [], _, s, hs => by
      rw [show fileLines [] = [] from rfl, foldl_nil, Split.chunks, hs,
        if_pos (show trim space [] = [] from rfl), map_nil, append_nil]
  | [doc], h, s, hs => by
      rw [show fileLines [doc] = doc.lines from rfl, foldl_split (lines_notSeparator doc),
        Split.chunks, hs, nil_append, if_neg (trim_text (h doc mem_cons_self)),
        map_append]
      rfl
  | doc :: doc' :: docs, h, s, hs => by
      have htext : printLines doc.lines ≠ [] := by
        intro hempty
        have := trim_text (h doc mem_cons_self)
        rw [hempty] at this
        exact this rfl
      rw [show fileLines (doc :: doc' :: docs)
          = doc.lines ++ "---".toList :: fileLines (doc' :: docs) from rfl,
        foldl_append, foldl_split (lines_notSeparator doc), foldl_cons,
        Split.line, if_pos (by decide), hs, nil_append, if_neg htext,
        chunks_fileLines (fun d hd => h d (mem_cons_of_mem doc hd)) _ rfl]
      simp only [map_append, map_cons, map_nil, append_assoc,
        singleton_append]

theorem scanChunk_docs {result : ScanResult} {start : ℕ} {chunk : Text}
    (h : trim space chunk ≠ []) : (scanChunk result start chunk).docs
      = result.docs ++ (scanDocument chunk start).toList := by
  rw [scanChunk, if_neg h]
  cases scanDocument chunk start with
  | none =>
      dsimp only
      split_ifs <;> exact (append_nil _).symm
  | some doc => rfl

theorem scanDocument_text (h : doc.HasKind) (start : ℕ) :
    ∃ read, scanDocument (printLines doc.lines) start = some read ∧
      (read.name, read.namespc, read.configRefs)
        = (doc.state.name, doc.state.namespc, doc.state.configRefs) := by
  have hkind : (doc.lines.foldl DocumentState.line {}).kind ≠ [] := h.state
  rw [scanDocument, lines_printed (isRead_lines doc)]
  exact ⟨_, if_neg hkind, rfl⟩

theorem foldl_scanChunk {docs : List Manifest} (h : ∀ doc ∈ docs, doc.HasKind)
    {chunks : List (ℕ × Text)}
    (hchunks : chunks.map Prod.snd = docs.map fun doc => printLines doc.lines)
    (result : ScanResult) :
    (chunks.foldl (fun result (start, chunk) => scanChunk result start chunk) result).docs.map
        (fun read => (read.name, read.namespc, read.configRefs))
      = result.docs.map (fun read => (read.name, read.namespc, read.configRefs)) ++
        docs.map fun doc => (doc.state.name, doc.state.namespc, doc.state.configRefs) := by
  induction docs generalizing chunks result with
  | nil =>
      obtain rfl := map_eq_nil_iff.mp hchunks
      exact (append_nil _).symm
  | cons doc docs ih =>
      obtain ⟨⟨start, chunk⟩, chunks, rfl, rfl, hrest⟩ := map_eq_cons_iff.mp hchunks
      have hdoc := h doc mem_cons_self
      obtain ⟨read, hread, hfacts⟩ := scanDocument_text hdoc start
      rw [foldl_cons, ih (fun d hd => h d (mem_cons_of_mem doc hd)) hrest]
      dsimp only
      rw [scanChunk_docs (trim_text hdoc), hread, Option.toList_some, map_append,
        append_assoc, map_cons, hfacts]
      rfl

theorem scan_docs {docs : List Manifest} (h : ∀ doc ∈ docs, doc.HasKind) :
    (scan (fileText docs)).docs.map (fun read => (read.name, read.namespc, read.configRefs))
      = docs.map fun doc => (doc.state.name, doc.state.namespc, doc.state.configRefs) := by
  have hchunks := chunks_fileLines h {} rfl
  rw [← lines_printed isRead_fileLines, ← fileText, ← splitDocuments_eq] at hchunks
  exact foldl_scanChunk h hchunks ⟨[], []⟩

end ManifestScan

end CodeGraph
