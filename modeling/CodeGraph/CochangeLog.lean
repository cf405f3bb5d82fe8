import CodeGraph.Cochange

/-!
# The log of a history

What `git log` prints of a list of commits, and that `read_commit_files` reads the
files of each commit back from it.
-/

namespace CodeGraph

open List

namespace Cochange

/-- A word of the log: git escapes the control characters of a path. -/
structure IsPrinted (word : Text) : Prop where
  ne_nil : word ≠ []
  line : IsLine word
  record : '\x1e' ∉ word
  unit : '\x1f' ∉ word

structure GitCommit where
  authoredAt : Text
  isMerge : Bool
  names : List Text
  authoredAt_printed : IsPrinted authoredAt
  names_nodup : names.Nodup
  names_printed : ∀ name ∈ names, IsPrinted name

/-- The objects of a repository: its commits by their shas, what is reachable from
a commit, and what `--since` and `--max-count` leave of that. -/
structure GitRepo where
  commit : Text → GitCommit
  walk : Text → List Text
  window : Text → Int → List Text
  walk_nodup : ∀ head, (walk head).Nodup
  walk_printed : ∀ head, ∀ sha ∈ walk head, IsPrinted sha
  window_nodup : ∀ head since, (window head since).Nodup
  window_walk : ∀ head since, ∀ sha ∈ window head since,
    sha ∈ walk head ∧ (commit sha).isMerge = false

/-- What a run finds: the branch, the calls that fail and the start of the window. -/
structure Checkout where
  revParseHead : Option Text
  showPrefix : Option Text
  present : Text → Bool
  since : Int
  logFails : Bool

section Log

variable (cc : CharClass) (repo : GitRepo)

def header (sha : Text) : Text := sha ++ '\x1f' :: (repo.commit sha).authoredAt

def logLines (sha : Text) : List Text := header repo sha :: (repo.commit sha).names

/-- `--pretty=format:` puts a newline between two commits. -/
def printLog (shas : List Text) : Text :=
  joinWith ['\n'] (shas.map fun sha => '\x1e' :: printLines (logLines repo sha))

/-- The commits `git log --no-merges` lists. -/
def listed (c : Checkout) (head : Text) : LogRange → List Text
  | .window => repo.window head c.since
  | .after last =>
      (repo.walk head).filter fun sha => !(repo.commit sha).isMerge && sha ∉ repo.walk last

def Checkout.calls (c : Checkout) : GitCalls where
  revParseHead := c.revParseHead
  showPrefix := c.showPrefix
  catFile := c.present
  log range :=
    if c.logFails then none
    else c.revParseHead.map fun out => printLog repo (listed repo c (trim cc out) range)

/-- The files a commit changes in the subtree; `none` when there are none. -/
def commitFiles (subtree sha : Text) : Option CommitFiles :=
  let files := subtreeFiles cc subtree (repo.commit sha).names
  if files = [] then none else some ⟨files, parseTs cc (header repo sha)⟩

end Log

/-! ## Reading the log -/

theorem dropWhile_eq_self {c : Char} {text : Text} (h : ∀ d, text.head? = some d → d ≠ c) :
    text.dropWhile (· = c) = text := by
  cases text with
  | nil => rfl
  | cons d text => simp [h d rfl]

/-- Newlines after a text that neither begins nor ends in one are cut off. -/
theorem trimMatches_append {c : Char} {text : Text} (hne : text ≠ [])
    (hhead : ∀ d, text.head? = some d → d ≠ c) (hlast : ∀ d, text.getLast? = some d → d ≠ c)
    (k : ℕ) : trimMatches c (text ++ List.replicate k c) = text := by
  have hfront : (text ++ List.replicate k c).dropWhile (· = c) = text ++ List.replicate k c := by
    refine dropWhile_eq_self ?_
    intro d hd
    rw [head?_append_of_ne_nil _ hne] at hd
    exact hhead d hd
  have hback : (List.replicate k c ++ text.reverse).dropWhile (· = c) = text.reverse := by
    have hrun : ∀ d ∈ List.replicate k c, decide (d = c) = true := by
      intro d hd
      exact decide_eq_true (eq_of_mem_replicate hd)
    rw [dropWhile_append_of_pos hrun]
    refine dropWhile_eq_self ?_
    intro d hd
    rw [head?_reverse] at hd
    exact hlast d hd
  rw [trimMatches, hfront, reverse_append, reverse_replicate, hback,
    reverse_reverse]

theorem printLines_eq_joinWith : ∀ {ls : List Text}, ls ≠ [] →
    printLines ls = joinWith ['\n'] ls ++ ['\n']
  | [], h => absurd rfl h
  | [l], _ => by simp [printLines, joinWith]
  | l :: m :: ls, _ => by
      have hrest := printLines_eq_joinWith (cons_ne_nil m ls)
      rw [joinWith_cons (cons_ne_nil m ls), append_assoc, append_assoc, ← hrest]
      simp [printLines]

theorem head?_joinWith {l : Text} (hl : l ≠ []) (ls : List Text) :
    (joinWith ['\n'] (l :: ls)).head? = l.head? := by
  cases ls with
  | nil => rfl
  | cons m ls =>
      rw [joinWith_cons (cons_ne_nil m ls), append_assoc,
        head?_append_of_ne_nil _ hl]

theorem getLast?_joinWith : ∀ {ls : List Text} (hne : ls ≠ []), ls.getLast hne ≠ [] →
    (joinWith ['\n'] ls).getLast? = (ls.getLast hne).getLast?
  | [], h, _ => absurd rfl h
  | [l], _, _ => rfl
  | l :: m :: ls, _, hlast => by
      have hrest := getLast?_joinWith (cons_ne_nil m ls) (by simpa using hlast)
      have hjoined : joinWith ['\n'] (m :: ls) ≠ [] := by
        intro h
        rw [h] at hrest
        exact hlast (by simpa using getLast?_eq_none_iff.mp hrest.symm)
      rw [joinWith_cons (cons_ne_nil m ls), getLast?_append_of_ne_nil _ hjoined, hrest,
        getLast_cons (cons_ne_nil m ls)]

theorem lines_joinWith {ls : List Text} (hne : ls ≠ []) (h : ∀ l ∈ ls, l ≠ [] ∧ IsLine l) :
    lines (joinWith ['\n'] ls) = ls := by
  have hchomp : ∀ l ∈ ls, chompReturn l = l := fun l hl =>
    if_neg fun hlast => (h l hl).2.2 (mem_of_getLast? hlast)
  have hlast : ls.getLast hne ≠ [] := (h _ (getLast_mem hne)).1
  rw [lines, splitOnChar_joinWith hne fun l hl => (h l hl).2.1]
  simp only [getLast?_eq_some_getLast hne, Option.toList_some]
  rw [filter_cons_of_pos (by simpa using hlast), filter_nil,
    map_congr_left fun l hl => hchomp l (mem_of_mem_dropLast hl), map_id',
    dropLast_concat_getLast hne]

section Parse

variable {cc : CharClass} {repo : GitRepo}

theorem logLines_printed {sha : Text} (hsha : IsPrinted sha) :
    ∀ l ∈ logLines repo sha, l ≠ [] ∧ IsLine l ∧ '\x1e' ∉ l := by
  intro l hl
  rcases mem_cons.mp hl with rfl | hl
  · have hat := (repo.commit sha).authoredAt_printed
    refine ⟨by simp [header], ⟨?_, ?_⟩, ?_⟩
    · simpa [header, hat.line.1] using hsha.line.1
    · simpa [header, hat.line.2] using hsha.line.2
    · simpa [header, hat.record] using hsha.record
  · have hname := (repo.commit sha).names_printed l hl
    exact ⟨hname.ne_nil, hname.line, hname.record⟩

/-- One record of the log is read back, whatever newlines follow it. -/
theorem parseCommit_printed {sha : Text} (hsha : IsPrinted sha) (subtree : Text) (k : ℕ) :
    parseCommit cc subtree (printLines (logLines repo sha) ++ List.replicate k '\n')
      = commitFiles cc repo subtree sha := by
  have hne : logLines repo sha ≠ [] := cons_ne_nil _ _
  have hlines : ∀ l ∈ logLines repo sha, l ≠ [] ∧ IsLine l ∧ '\x1e' ∉ l :=
    logLines_printed hsha
  have hhead : header repo sha ≠ [] := by simp [header]
  have hlast := hlines _ (getLast_mem hne)
  have htext : printLines (logLines repo sha) ++ List.replicate k '\n'
      = joinWith ['\n'] (logLines repo sha) ++ List.replicate (k + 1) '\n' := by
    rw [printLines_eq_joinWith hne, append_assoc, replicate_succ,
      singleton_append]
  have htrim : trimMatches '\n' (printLines (logLines repo sha) ++ List.replicate k '\n')
      = joinWith ['\n'] (logLines repo sha) := by
    rw [htext]
    refine trimMatches_append ?_ ?_ ?_ (k + 1)
    · intro h
      have := head?_joinWith hhead (repo.commit sha).names
      rw [show header repo sha :: (repo.commit sha).names = logLines repo sha from rfl, h] at this
      exact hhead (head?_eq_none_iff.mp this.symm)
    · intro d hd
      rw [logLines, head?_joinWith hhead] at hd
      rintro rfl
      exact (hlines _ mem_cons_self).2.1.1 (mem_of_head? hd)
    · intro d hd
      rw [getLast?_joinWith hne hlast.1] at hd
      rintro rfl
      exact hlast.2.1.1 (mem_of_getLast? hd)
  rw [parseCommit, htrim, lines_joinWith hne fun l hl => ⟨(hlines l hl).1, (hlines l hl).2.1⟩]
  rfl

theorem record_notMem {sha : Text} (hsha : IsPrinted sha) :
    '\x1e' ∉ printLines (logLines repo sha) := by
  intro h
  obtain ⟨l, hl, hc⟩ := mem_flatMap.mp h
  rcases mem_append.mp hc with hc | hc
  · exact (logLines_printed hsha l hl).2.2 hc
  · simp at hc

theorem parse_printLog (subtree : Text) {shas : List Text} (h : ∀ sha ∈ shas, IsPrinted sha) :
    (splitOnChar '\x1e' (printLog repo shas)).filterMap (parseCommit cc subtree)
      = shas.filterMap (commitFiles cc repo subtree) := by
  induction shas with
  | nil => rfl
  | cons sha shas ih =>
      have hsha := h sha mem_cons_self
      have hrest := ih fun s hs => h s (mem_cons_of_mem _ hs)
      have hfirst : ∀ k, (splitOnChar '\x1e'
            ('\x1e' :: (printLines (logLines repo sha) ++ List.replicate k '\n'))).filterMap
              (parseCommit cc subtree) = (commitFiles cc repo subtree sha).toList := by
        intro k
        have hnot : '\x1e' ∉ printLines (logLines repo sha) ++ List.replicate k '\n' := by
          rw [mem_append, not_or]
          exact ⟨record_notMem hsha, fun h => absurd (eq_of_mem_replicate h) (by decide)⟩
        rw [splitOnChar_sep, splitOnChar_of_notMem hnot, filterMap_cons_none rfl,
          filterMap_cons, parseCommit_printed hsha]
        cases commitFiles cc repo subtree sha <;> rfl
      have hcons : (sha :: shas).filterMap (commitFiles cc repo subtree)
          = (commitFiles cc repo subtree sha).toList
            ++ shas.filterMap (commitFiles cc repo subtree) := by
        rw [filterMap_cons]
        cases commitFiles cc repo subtree sha <;> rfl
      rw [hcons]
      cases shas with
      | nil =>
          have := hfirst 0
          rw [replicate_zero, append_nil] at this
          rw [filterMap_nil, append_nil]
          exact this
      | cons next shas =>
          have hlog : printLog repo (sha :: next :: shas)
              = '\x1e' :: (printLines (logLines repo sha) ++ List.replicate 1 '\n')
                ++ printLog repo (next :: shas) := by
            simp [printLog, joinWith]
          obtain ⟨text, htext⟩ : ∃ text, printLog repo (next :: shas) = '\x1e' :: text := by
            cases shas with
            | nil => exact ⟨_, rfl⟩
            | cons => exact ⟨_, rfl⟩
          rw [hlog, htext, splitOnChar_append, filterMap_append, hfirst 1, ← hrest, htext,
            splitOnChar_sep, filterMap_cons_none rfl]

end Parse

end Cochange

end CodeGraph
