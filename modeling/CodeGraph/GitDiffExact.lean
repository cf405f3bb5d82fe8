import CodeGraph.GitDiffReads

/-!
# When a diff is read right

The lines recorded are bounded by the changed lines that are told as such, so a
diff with a changed line that looks like a header is never read right. For the
others the result is known file by file, and it is right exactly when every file
can be read (`parseUnifiedDiff_eq_expected_iff`).
-/

namespace CodeGraph

open List

namespace GitDiff

/-! ## Lines recorded -/

def isChangeLine (line : Text) : Bool :=
  (startsWith "+" line && !startsWith "+++" line) ||
    (startsWith "-" line && !startsWith "---" line)

def recorded (hunks : List FileHunk) : Nat := (hunks.map (·.changedLines.length)).sum

namespace DiffState

/-- The lines recorded so far. -/
def weight (s : DiffState) : Nat := recorded s.hunks + s.currentLines.length

variable {s t : DiffState}

theorem weight_flush : s.flush.weight = s.weight := by
  rw [flush]
  split
  · simp [weight, recorded]
  · rfl

theorem weight_push : s.push.weight = s.weight + 1 := by
  simp [weight, push, Nat.add_assoc]

theorem weight_advance (h : s.advance = .ok t) : t.weight = s.weight := by
  rw [advance] at h
  split at h
  · cases h
  · cases h
    rfl

theorem recorded_flush_le : recorded s.flush.hunks ≤ s.weight := by
  rw [← weight_flush]
  exact Nat.le_add_right _ _

theorem weight_parseLine {line : Text} (h : parseLine s line = .ok t) :
    t.weight ≤ s.weight + (isChangeLine line).toNat := by
  have hkeep : ∀ {u : DiffState}, u.weight = s.weight →
      u.weight ≤ s.weight + (isChangeLine line).toNat := fun hu => hu.trans_le (Nat.le_add_right _ _)
  rw [parseLine] at h
  split at h
  · cases h
    exact hkeep weight_flush
  · split at h
    · cases h
      split
      · exact hkeep rfl
      · exact hkeep rfl
    · split at h
      · cases h
        exact hkeep rfl
      · split at h
        · cases h
          exact hkeep rfl
        · split at h
          · cases h
            exact hkeep rfl
          · split at h
            · split at h
              · cases h
                exact hkeep rfl
              · cases h
                exact hkeep rfl
            · split at h
              · next hadded =>
                  rw [weight_advance h, weight_push, isChangeLine, hadded]
                  rfl
              · split at h
                · next hdeleted =>
                    cases h
                    rw [weight_push, isChangeLine, hdeleted, Bool.or_true]
                    rfl
                · exact hkeep (weight_advance h)

theorem weight_parseLines : ∀ {ls : List Text} {s : DiffState}, parseLines s ls = .ok t →
    t.weight ≤ s.weight + ls.countP isChangeLine
  | [], s, h => by
      cases h
      exact Nat.le_add_right _ _
  | line :: ls, s, h => by
      rw [parseLines_cons] at h
      cases hline : parseLine s line with
      | error e =>
          rw [hline] at h
          cases h
      | ok u =>
          rw [hline] at h
          have hrest := weight_parseLines (h : parseLines u ls = .ok t)
          have hfirst := weight_parseLine hline
          have hcount : (line :: ls).countP isChangeLine =
              (isChangeLine line).toNat + ls.countP isChangeLine := by
            rw [countP_cons, Nat.add_comm]
            cases isChangeLine line <;> rfl
          omega

end DiffState

theorem recorded_le {text : Text} {out : List FileHunk} (h : parseUnifiedDiff text = .ok out) :
    recorded out ≤ (lines text).countP isChangeLine := by
  rw [parseUnifiedDiff] at h
  cases hrun : parseLines .init (lines text) with
  | error e =>
      rw [hrun] at h
      cases h
  | ok t =>
      rw [hrun] at h
      cases h
      have hweight := DiffState.weight_parseLines hrun
      exact DiffState.recorded_flush_le.trans (hweight.trans_eq (Nat.zero_add _))

/-! ## Lines told as changes -/

theorem isChangeLine_of_head {c : Char} {line : Text} (h : [c] <+: line) (hplus : c ≠ '+')
    (hminus : c ≠ '-') : isChangeLine line = false := by
  obtain ⟨rest, rfl⟩ := h
  simp [isChangeLine, startsWith, hplus.symm, hminus.symm]

theorem isChangeLine_body (line : BodyLine) :
    isChangeLine (chompReturn line.render) = decide (line.IsChange ∧ line.Plain) := by
  have hprefix : ∀ (c : Char) (text : Text), c ≠ '\r' →
      [c, c].isPrefixOf (chompReturn text) = decide ([c, c] <+: text) := fun c text hc => by
    have hreturn : '\r' ∉ [c, c] := by simp [hc.symm]
    rw [Bool.eq_iff_iff, isPrefixOf_iff_prefix, prefix_chompReturn hreturn, decide_eq_true_eq]
  cases line with
  | context text =>
      rw [BodyLine.render, chompReturn_cons (by decide)]
      exact isChangeLine_of_head ⟨_, rfl⟩ (by decide) (by decide)
  | added text =>
      rw [BodyLine.render, chompReturn_cons (by decide)]
      simp [isChangeLine, startsWith, BodyLine.IsChange, BodyLine.Plain, hprefix '+' _ (by decide)]
  | deleted text =>
      rw [BodyLine.render, chompReturn_cons (by decide)]
      simp [isChangeLine, startsWith, BodyLine.IsChange, BodyLine.Plain, hprefix '-' _ (by decide)]
  | noNewline =>
      rw [chompReturn_eq_self (by simp [BodyLine.render])]
      exact isChangeLine_of_head ⟨_, rfl⟩ (by decide) (by decide)

def changes (body : List BodyLine) : Nat := body.countP fun line => line.IsChange

theorem changes_cons {line : BodyLine} {body : List BodyLine} :
    changes (line :: body) = changes body + if line.IsChange then 1 else 0 := by
  simp [changes, countP_cons]

/-- The changed lines of the body that are told as such. -/
def plainChanges (body : List BodyLine) : Nat :=
  body.countP fun line => line.IsChange ∧ line.Plain

theorem plainChanges_cons {line : BodyLine} {body : List BodyLine} :
    plainChanges (line :: body) =
      plainChanges body + if line.IsChange ∧ line.Plain then 1 else 0 := by
  simp [plainChanges, countP_cons]

theorem countP_bodyLines (body : List BodyLine) :
    (bodyLines body).countP isChangeLine = plainChanges body := by
  rw [bodyLines, countP_map]
  exact countP_congr fun line _ => by rw [Function.comp_apply, isChangeLine_body]

theorem isChangeLine_header (h : Hunk) : isChangeLine (chompReturn h.header) = false := by
  have hline : ['@'] <+: h.header := by
    have hmark : ['@'] <+: "@@ -".toList := by simp
    exact ((((hmark.trans (prefix_append _ _)).trans (prefix_append _ _)).trans
      (prefix_append _ _)).trans (prefix_append _ _)).trans (prefix_append _ _)
  exact isChangeLine_of_head ((prefix_chompReturn (by decide)).mpr hline) (by decide) (by decide)

theorem countP_hunkLines (hunks : List Hunk) :
    (hunkLines hunks).countP isChangeLine = plainChanges (hunks.flatMap Hunk.body) := by
  induction hunks with
  | nil => rfl
  | cons h hunks ih =>
      rw [hunkLines_cons, countP_cons_of_neg (by rw [isChangeLine_header]; exact nofun),
        countP_append, countP_bodyLines, ih, flatMap_cons, plainChanges, plainChanges,
        plainChanges, countP_append]

section Files

variable {quotepath : Bool}

theorem isChangeLine_gitLine (f : FileDiff) :
    isChangeLine (chompReturn (f.gitLine quotepath)) = false := by
  have hline : ['d'] <+: f.gitLine quotepath := by
    have hmark : ['d'] <+: "diff --git ".toList := by simp
    exact (hmark.trans (prefix_append _ _)).trans (prefix_append _ _)
  exact isChangeLine_of_head ((prefix_chompReturn (by decide)).mpr hline) (by decide) (by decide)

theorem isChangeLine_extended (line : ExtendedLine) :
    isChangeLine (chompReturn line.val) = false := by
  obtain ⟨-, k, hk, hprefix⟩ := line.property
  obtain ⟨hreturn, -, -, hhead⟩ := FileDiff.keyword_unmarked k hk
  match k, hhead with
  | c :: k, hhead =>
      obtain ⟨hminus, hplus, -⟩ := of_decide_eq_true hhead
      have hfirst : [c] <+: c :: k := prefix_append [c] k
      exact isChangeLine_of_head
        (hfirst.trans ((prefix_chompReturn hreturn).mpr hprefix)) hplus hminus

theorem isChangeLine_names (f : FileDiff) :
    ∀ line ∈ f.names quotepath, isChangeLine (chompReturn line) = false := by
  have hmarked : ∀ {c : Char} {line : Text}, c ≠ '\r' → [c, c, c] <+: line → c = '+' ∨ c = '-' →
      isChangeLine (chompReturn line) = false := by
    intro c line hreturn hline hc
    have hline := (prefix_chompReturn (by simp [hreturn.symm])).mpr hline
    obtain ⟨rest, hrest⟩ := hline
    rw [← hrest]
    rcases hc with rfl | rfl
    · simp [isChangeLine, startsWith]
    · simp [isChangeLine, startsWith]
  intro line hline
  rw [FileDiff.names] at hline
  split at hline
  · exact absurd hline not_mem_nil
  · rcases mem_cons.mp hline with rfl | hline
    · have hmark : ['-', '-', '-'] <+: "--- ".toList := by simp
      exact hmarked (by decide) (hmark.trans (prefix_append _ _)) (Or.inr rfl)
    · rw [mem_singleton.mp hline]
      have hmark : ['+', '+', '+'] <+: "+++ ".toList := by simp
      exact hmarked (by decide) (hmark.trans (prefix_append _ _)) (Or.inl rfl)

theorem countP_fileLines (f : FileDiff) :
    (f.fileLines quotepath).countP isChangeLine = plainChanges (f.hunks.flatMap Hunk.body) := by
  have hzero : ∀ ls : List Text, (∀ line ∈ ls, isChangeLine (chompReturn line) = false) →
      (ls.map chompReturn).countP isChangeLine = 0 := fun ls h => by
    rw [countP_map, countP_eq_zero]
    intro line hline
    exact Bool.eq_false_iff.mp (h line hline)
  have hgit := hzero [f.gitLine quotepath] fun line hline =>
    mem_singleton.mp hline ▸ isChangeLine_gitLine f
  have hextended := hzero (f.extended.map Subtype.val) fun line hline => by
    obtain ⟨extended, -, rfl⟩ := mem_map.mp hline
    exact isChangeLine_extended extended
  have hnames := hzero (f.names quotepath) (isChangeLine_names f)
  have hsplit : f.fileLines quotepath = [f.gitLine quotepath].map chompReturn ++
      (f.extended.map Subtype.val).map chompReturn ++ (f.names quotepath).map chompReturn ++
        hunkLines f.hunks := by
    simp [FileDiff.fileLines, FileDiff.render, hunkLines]
  rw [hsplit, countP_append, countP_append, countP_append, hgit, hextended, hnames,
    countP_hunkLines, Nat.zero_add]

def allBodies (files : List FileDiff) : List BodyLine :=
  files.flatMap fun f => f.hunks.flatMap Hunk.body

theorem countP_filesLines (files : List FileDiff) :
    (filesLines quotepath files).countP isChangeLine = plainChanges (allBodies files) := by
  induction files with
  | nil => rfl
  | cons f files ih =>
      rw [filesLines, flatMap_cons, countP_append, countP_fileLines, allBodies,
        flatMap_cons, plainChanges, plainChanges, countP_append]
      exact congrArg (_ + ·) ih

end Files

theorem length_positions : ∀ (n : Nat) (body : List BodyLine),
    (Hunk.positions n body).length = changes body
  | _, [] => rfl
  | n, .context _ :: body => by
      rw [Hunk.positions, length_positions, changes_cons]
      rfl
  | n, .added _ :: body => by
      rw [Hunk.positions, length_cons, length_positions, changes_cons]
      rfl
  | n, .deleted _ :: body => by
      rw [Hunk.positions, length_cons, length_positions, changes_cons]
      rfl
  | n, .noNewline :: body => by
      rw [Hunk.positions, length_positions, changes_cons]
      rfl

theorem recorded_expected (files : List FileDiff) :
    recorded (files.map FileDiff.expected) = changes (allBodies files) := by
  have hhunks : ∀ hunks : List Hunk,
      (hunks.flatMap fun h => Hunk.positions h.newStart h.body).length =
        changes (hunks.flatMap Hunk.body) := by
    intro hunks
    induction hunks with
    | nil => rfl
    | cons h hunks ih =>
        rw [flatMap_cons, flatMap_cons, length_append, changes, countP_append,
          ih, length_positions, changes, changes]
  induction files with
  | nil => rfl
  | cons f files ih =>
      rw [allBodies, flatMap_cons, changes, countP_append]
      exact congrArg₂ (· + ·) (hhunks f.hunks) ih

theorem BodyLine.plain_of_not_change {line : BodyLine} (h : ¬ line.IsChange) : line.Plain := by
  cases line with
  | context _ => trivial
  | added _ => exact absurd trivial h
  | deleted _ => exact absurd trivial h
  | noNewline => trivial

theorem plainChanges_le (body : List BodyLine) : plainChanges body ≤ changes body :=
  countP_mono_left fun _ _ h => decide_eq_true (of_decide_eq_true h).1

theorem plain_of_le : ∀ {body : List BodyLine}, changes body ≤ plainChanges body →
    ∀ line ∈ body, line.Plain
  | [], _ => nofun
  | line :: body, h => by
      have hrest := plainChanges_le body
      rw [changes_cons, plainChanges_cons] at h
      by_cases hchange : line.IsChange
      · by_cases hplain : line.Plain
        · rw [if_pos hchange, if_pos ⟨hchange, hplain⟩] at h
          exact forall_mem_cons.mpr ⟨hplain, plain_of_le (Nat.le_of_succ_le_succ h)⟩
        · rw [if_pos hchange, if_neg fun hboth => hplain hboth.2] at h
          omega
      · rw [if_neg hchange, if_neg fun hboth => hchange hboth.1] at h
        exact forall_mem_cons.mpr ⟨BodyLine.plain_of_not_change hchange, plain_of_le h⟩

/-- A diff that is read right has no line that looks like a header. -/
theorem plain_of_parse (d : UnifiedDiff)
    (h : parseUnifiedDiff d.text = .ok (d.files.map FileDiff.expected)) :
    ∀ line ∈ allBodies d.files, line.Plain := by
  refine plain_of_le ?_
  rw [← recorded_expected, ← @countP_filesLines d.quotepath, ← lines_text]
  exact recorded_le h

/-! ## Hunks that are read right -/

/-- No changed line follows the marker of a missing newline. -/
def MarkersLast (body : List BodyLine) : Prop :=
  body.Pairwise fun a b => a = .noNewline → ¬ b.IsChange

theorem readPositions_ahead : ∀ {body : List BodyLine} {n m : Nat}, n < m →
    (readPositions m body = Hunk.positions n body ↔ ∀ line ∈ body, ¬ line.IsChange)
  | [], _, _, _ => by simp [readPositions, Hunk.positions]
  | .context _ :: body, n, m, h => by
      rw [readPositions, Hunk.positions, readPositions_ahead (by omega), forall_mem_cons]
      exact (and_iff_right id).symm
  | .added _ :: body, n, m, h => by
      refine iff_of_false (fun heq => ?_) fun hall => hall _ mem_cons_self trivial
      rw [readPositions, Hunk.positions] at heq
      exact h.ne' (List.cons.inj heq).1
  | .deleted _ :: body, n, m, h => by
      refine iff_of_false (fun heq => ?_) fun hall => hall _ mem_cons_self trivial
      rw [readPositions, Hunk.positions] at heq
      exact h.ne' (List.cons.inj heq).1
  | .noNewline :: body, n, m, h => by
      rw [readPositions, Hunk.positions, readPositions_ahead (by omega), forall_mem_cons]
      exact (and_iff_right id).symm

theorem readPositions_eq_iff : ∀ {body : List BodyLine} {n : Nat},
    readPositions n body = Hunk.positions n body ↔ MarkersLast body
  | [], _ => by simp [readPositions, Hunk.positions, MarkersLast]
  | .context _ :: body, n => by
      rw [readPositions, Hunk.positions, readPositions_eq_iff, MarkersLast, MarkersLast,
        pairwise_cons]
      exact (and_iff_right (by simp)).symm
  | .added _ :: body, n => by
      rw [readPositions, Hunk.positions, List.cons.injEq, readPositions_eq_iff, MarkersLast,
        MarkersLast, pairwise_cons]
      exact and_congr_left fun _ => iff_of_true rfl (by simp)
  | .deleted _ :: body, n => by
      rw [readPositions, Hunk.positions, List.cons.injEq, readPositions_eq_iff, MarkersLast,
        MarkersLast, pairwise_cons]
      exact and_congr_left fun _ => iff_of_true rfl (by simp)
  | .noNewline :: body, n => by
      rw [readPositions, Hunk.positions, readPositions_ahead (Nat.lt_succ_self n), MarkersLast,
        pairwise_cons]
      refine ⟨fun h => ⟨fun line hline _ => h line hline, ?_⟩, fun h line hline => h.1 line hline rfl⟩
      exact pairwise_of_forall_mem_list fun _ _ line hline _ => h line hline

theorem length_readPositions : ∀ (body : List BodyLine) {n m : Nat},
    (readPositions m body).length = (Hunk.positions n body).length
  | [], _, _ => rfl
  | .context _ :: body, _, _ => length_readPositions body
  | .added _ :: body, _, _ => congrArg (· + 1) (length_readPositions body)
  | .deleted _ :: body, _, _ => congrArg (· + 1) (length_readPositions body)
  | .noNewline :: body, _, _ => length_readPositions body

theorem readLines_eq_iff {f : FileDiff} :
    f.readLines = f.positions ↔ ∀ h ∈ f.hunks, MarkersLast h.body := by
  rw [FileDiff.readLines, FileDiff.positions]
  induction f.hunks with
  | nil => exact iff_of_true rfl (by simp)
  | cons h hunks ih =>
      rw [flatMap_cons, flatMap_cons, forall_mem_cons, ← ih,
        ← readPositions_eq_iff (n := h.newStart)]
      refine ⟨fun heq => append_inj heq (length_readPositions h.body), fun hboth => ?_⟩
      exact congrArg₂ (· ++ ·) hboth.1 hboth.2

/-! ## Files that are read right -/

/-- The path is printed as it is, or stands in the line of the old path: the file
was renamed from a name with a space to that name and a tab. -/
def NameReadable (quotepath : Bool) (f : FileDiff) : Prop :=
  f.path.all (isBareChar quotepath) = true ∧ ' ' ∉ f.path ∨
    f.change = .modified ∧ f.newPath = f.oldPath ++ ['\t'] ∧
      f.oldPath.all (isBareChar quotepath) = true ∧ ' ' ∈ f.oldPath

structure Readable (quotepath : Bool) (f : FileDiff) : Prop where
  hasHunk : f.hunks ≠ []
  name : NameReadable quotepath f
  plain : ∀ h ∈ f.hunks, ∀ line ∈ h.body, line.Plain
  markers : ∀ h ∈ f.hunks, MarkersLast h.body

theorem readName_eq_self_iff {quotepath : Bool} {path : Text} :
    readName quotepath path = some path ↔
      path.all (isBareChar quotepath) = true ∧ ' ' ∉ path := by
  rw [readName]
  by_cases hbare : path.all (isBareChar quotepath) = true
  · rw [if_pos hbare, and_iff_right hbare, Option.some.injEq]
    by_cases hspace : ' ' ∈ path
    · rw [if_pos hspace]
      exact iff_of_false (fun heq => by simpa using congrArg List.length heq)
        (not_not.mpr hspace)
    · rw [if_neg hspace]
      exact iff_of_true rfl hspace
  · rw [if_neg hbare]
    exact iff_of_false (by simp) fun h => hbare h.1

theorem readName_eq_none_iff {quotepath : Bool} {path : Text} :
    readName quotepath path = none ↔ ¬ path.all (isBareChar quotepath) = true := by
  rw [readName]
  split
  · next hbare => exact iff_of_false (by simp) (not_not.mpr hbare)
  · next hbare => exact iff_of_true rfl hbare

theorem readName_tab {quotepath : Bool} {path : Text} :
    readName quotepath (path ++ ['\t']) = none := by
  rw [readName_eq_none_iff, all_append, Bool.and_eq_true]
  intro h
  have htab := h.2
  cases quotepath <;> exact absurd htab (by decide)

theorem readName_eq_other_iff {quotepath : Bool} {path other : Text}
    (hother : readName quotepath other = none) :
    readName quotepath path = some other ↔ other = path ++ ['\t'] ∧
      path.all (isBareChar quotepath) = true ∧ ' ' ∈ path := by
  rw [readName]
  by_cases hbare : path.all (isBareChar quotepath) = true
  · rw [if_pos hbare, Option.some.injEq]
    by_cases hspace : ' ' ∈ path
    · rw [if_pos hspace]
      exact ⟨fun h => ⟨h.symm, hbare, hspace⟩, fun h => h.1.symm⟩
    · rw [if_neg hspace]
      refine iff_of_false (fun heq => ?_) fun h => hspace h.2.2
      exact readName_eq_none_iff.mp hother (heq ▸ hbare)
  · rw [if_neg hbare]
    exact iff_of_false (by simp) fun h => hbare h.2.1

theorem readPath_eq_iff {quotepath : Bool} {f : FileDiff} (hhunks : f.hunks ≠ []) :
    f.readPath quotepath = some f.path ↔ NameReadable quotepath f := by
  rw [FileDiff.readPath, if_neg hhunks, FileDiff.newRead, FileDiff.oldRead, NameReadable]
  cases hchange : f.change with
  | added =>
      have hpath : f.path = f.newPath := by rw [FileDiff.path, hchange]
      rw [if_neg (by simp), if_pos rfl, Option.or_none, hpath, readName_eq_self_iff]
      exact (or_iff_left fun h => absurd h.1 (by simp)).symm
  | deleted =>
      have hpath : f.path = f.oldPath := by rw [FileDiff.path, hchange]
      rw [if_pos rfl, if_neg (by simp), Option.none_or, hpath, readName_eq_self_iff]
      exact (or_iff_left fun h => absurd h.1 (by simp)).symm
  | modified =>
      have hpath : f.path = f.newPath := by rw [FileDiff.path, hchange]
      rw [if_neg (by simp), if_neg (by simp), hpath, and_iff_right rfl]
      cases hnew : readName quotepath f.newPath with
      | some name =>
          have htab : ¬ f.newPath = f.oldPath ++ ['\t'] := fun heq => by
            rw [heq, readName_tab] at hnew
            cases hnew
          rw [Option.some_or, or_iff_left fun h => htab h.1, ← readName_eq_self_iff, hnew]
      | none =>
          rw [Option.none_or, readName_eq_other_iff hnew]
          exact (or_iff_right fun h => readName_eq_none_iff.mp hnew h.1).symm

/-! ## The diff -/

section Diff

variable {quotepath : Bool}

theorem length_readFiles_le : ∀ (files : List FileDiff) (kept : List Nat),
    (readFiles quotepath kept files).length ≤ files.length
  | [], _ => le_rfl
  | f :: files, kept => by
      rw [readFiles]
      split
      · exact Nat.succ_le_succ (length_readFiles_le files [])
      · exact (length_readFiles_le files _).trans (Nat.le_succ _)

theorem readFiles_eq_iff : ∀ {files : List FileDiff},
    readFiles quotepath [] files = files.map FileDiff.expected ↔
      ∀ f ∈ files, f.readPath quotepath = some f.path ∧ f.readLines = f.positions
  | [] => iff_of_true rfl (by simp)
  | f :: files => by
      rw [readFiles, map_cons, forall_mem_cons]
      cases hpath : f.readPath quotepath with
      | none =>
          refine iff_of_false (fun heq => ?_) fun h => absurd h.1.1 (by simp)
          have heq : readFiles quotepath ([] ++ f.readLines) files = _ := heq
          have hlen : (readFiles quotepath ([] ++ f.readLines) files).length ≤ files.length :=
            length_readFiles_le files _
          have hfull := congrArg List.length heq
          rw [length_cons, length_map] at hfull
          omega
      | some path =>
          simp only [List.cons.injEq, readFiles_eq_iff]
          refine and_congr_left ?_
          intro _
          rw [FileDiff.expected, FileHunk.mk.injEq, Option.some.injEq, nil_append]
          exact and_congr_right fun _ => and_iff_left ⟨rfl, rfl⟩

end Diff

/-- A diff is read right exactly when each of its files is readable. -/
theorem parseUnifiedDiff_eq_expected_iff (d : UnifiedDiff) :
    parseUnifiedDiff d.text = .ok (d.files.map FileDiff.expected) ↔
      ∀ f ∈ d.files, Readable d.quotepath f := by
  have hfiles : (∀ f ∈ d.files, ∀ h ∈ f.hunks, ∀ line ∈ h.body, line.Plain) →
      (parseUnifiedDiff d.text = .ok (d.files.map FileDiff.expected) ↔
        ∀ f ∈ d.files, f.readPath d.quotepath = some f.path ∧ f.readLines = f.positions) := by
    intro hplain
    rw [parseUnifiedDiff_plain d hplain, Except.ok.injEq, readFiles_eq_iff]
  refine ⟨fun h f hf => ?_, fun h => ?_⟩
  · have hplain : ∀ f ∈ d.files, ∀ h ∈ f.hunks, ∀ line ∈ h.body, line.Plain :=
      fun f hf k hk line hline => plain_of_parse d h line
        (mem_flatMap.mpr ⟨f, hf, mem_flatMap.mpr ⟨k, hk, hline⟩⟩)
    obtain ⟨hpath, hlines⟩ := (hfiles hplain).mp h f hf
    have hhunks : f.hunks ≠ [] := fun heq => by
      rw [FileDiff.readPath, if_pos heq] at hpath
      cases hpath
    exact ⟨hhunks, (readPath_eq_iff hhunks).mp hpath, hplain f hf, readLines_eq_iff.mp hlines⟩
  · refine (hfiles fun f hf => (h f hf).plain).mpr fun f hf => ?_
    exact ⟨(readPath_eq_iff (h f hf).hasHunk).mpr (h f hf).name,
      readLines_eq_iff.mpr (h f hf).markers⟩

/-- A last line without a newline that is replaced: the marker between the two
lines is counted, so the new line is recorded one line too far down. -/
theorem missing_newline_counted : ¬ ∀ d : UnifiedDiff,
    parseUnifiedDiff d.text = .ok (d.files.map FileDiff.expected) := by
  intro h
  let hunk : Hunk := {
    oldStart := 1
    newStart := 1
    heading := ⟨[], not_mem_nil⟩
    body := [.deleted ⟨['x'], by decide⟩, .noNewline, .added ⟨['y'], by decide⟩] }
  let file : FileDiff := ⟨['a'], ['a'], .modified, [], [hunk]⟩
  let d : UnifiedDiff := {
    quotepath := true
    files := [file]
    short := by decide
    fits := by decide }
  have hplain : ∀ f ∈ d.files, ∀ h ∈ f.hunks, ∀ line ∈ h.body, line.Plain := by decide
  have hread := h d
  rw [parseUnifiedDiff_plain d hplain, Except.ok.injEq, readFiles_eq_iff] at hread
  have hlines := (hread file (mem_singleton.mpr rfl)).2
  exact absurd hlines (by decide)

end GitDiff

end CodeGraph
