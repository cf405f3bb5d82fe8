import CodeGraph.Bootstrap
import CodeGraph.Segments

/-!
# The listings of git

What git knows of a repository and how its two listings print it: the tracked
difference from a commit to the working tree, root-relative, and the untracked
files, relative to the directory the call runs in. Both quote a path that holds
a special character.

The module ends with what the reader makes of the two listings, entry by entry:
`collectTrackedChanges_iff` and `hasNew_collectUntrackedAdds`.
-/

namespace CodeGraph

open List

/-! ## Printing -/

/-- A character git prints as it is. -/
def isPlainChar (c : Char) : Bool := 32 ≤ c.toNat && c.toNat ≠ 127 && c ≠ '"' && c ≠ '\\'

def octal (n : Nat) : Text := (Nat.toDigits 8 (n / 64 % 8)) ++ Nat.toDigits 8 (n / 8 % 8) ++ Nat.toDigits 8 (n % 8)

/-- A special character as C writes it. -/
def escapeChar (c : Char) : Text :=
  if isPlainChar c then [c]
  else '\\' ::
    if c = '"' ∨ c = '\\' then [c]
    else if c.toNat = 7 then ['a']
    else if c.toNat = 8 then ['b']
    else if c.toNat = 9 then ['t']
    else if c.toNat = 10 then ['n']
    else if c.toNat = 11 then ['v']
    else if c.toNat = 12 then ['f']
    else if c.toNat = 13 then ['r']
    else octal c.toNat

/-- A path as git prints it under `core.quotepath=false`. -/
def quotePath (path : Text) : Text :=
  if path.all isPlainChar then path else '"' :: path.flatMap escapeChar ++ ['"']

/-- What a difference entry says of an existing path: modified, type changed,
unmerged, or unknown to git. -/
inductive InPlaceStatus where
  | modified
  | typeChanged
  | unmerged
  | unknown
  deriving DecidableEq

def InPlaceStatus.letter : InPlaceStatus → Char
  | .modified => 'M'
  | .typeChanged => 'T'
  | .unmerged => 'U'
  | .unknown => 'X'

/-- One entry of `git diff --name-status -M`; a rename and a copy carry their
similarity. -/
inductive DiffEntry where
  | inPlace (status : InPlaceStatus) (path : Text)
  | added (path : Text)
  | deleted (path : Text)
  | renamed (score : Nat) (old new : Text)
  | copied (score : Nat) (old new : Text)
  deriving DecidableEq

namespace DiffEntry

/-- The path of the entry in the working tree. -/
def newEnd : DiffEntry → Option Text
  | .inPlace _ path => some path
  | .added path => some path
  | .deleted _ => none
  | .renamed _ _ new => some new
  | .copied _ _ new => some new

/-- The path of the entry that the working tree has lost. -/
def oldEnd : DiffEntry → Option Text
  | .deleted path => some path
  | .renamed _ old _ => some old
  | _ => none

/-- The tab-separated fields of the entry. -/
def fields : DiffEntry → List Text
  | .inPlace status path => [[status.letter], quotePath path]
  | .added path => [['A'], quotePath path]
  | .deleted path => [['D'], quotePath path]
  | .renamed score old new => ['R' :: Nat.toDigits 10 score, quotePath old, quotePath new]
  | .copied score old new => ['C' :: Nat.toDigits 10 score, quotePath old, quotePath new]

def line (entry : DiffEntry) : Text := joinWith ['\t'] entry.fields

end DiffEntry

def printLines (ls : List Text) : Text := ls.flatMap (· ++ ['\n'])

/-! ## A printed path has no separator -/

/-- A character that ends no field and no line. -/
def IsFieldChar (c : Char) : Prop := c ≠ '\t' ∧ c ≠ '\n' ∧ c ≠ '\r'

theorem isFieldChar_of_isPlainChar {c : Char} (h : isPlainChar c = true) : IsFieldChar c := by
  refine ⟨?_, ?_, ?_⟩ <;> rintro rfl <;> exact absurd h (by decide)

theorem isFieldChar_of_isDigit {c : Char} (h : c.isDigit = true) : IsFieldChar c := by
  refine ⟨?_, ?_, ?_⟩ <;> rintro rfl <;> exact absurd h (by decide)

theorem isFieldChar_of_mem_toDigits {base n : Nat} (hbase : 0 < base) (hle : base ≤ 10) {c : Char}
    (h : c ∈ Nat.toDigits base n) : IsFieldChar c :=
  isFieldChar_of_isDigit (Nat.isDigit_of_mem_toDigits hbase hle h)

theorem isFieldChar_of_mem_escapeChar {c d : Char} (h : d ∈ escapeChar c) : IsFieldChar d := by
  unfold escapeChar at h
  split at h
  · next hplain => exact mem_singleton.mp h ▸ isFieldChar_of_isPlainChar hplain
  · have hletter : ∀ {e : Char}, IsFieldChar e → d ∈ [e] → IsFieldChar d := fun he hd =>
      mem_singleton.mp hd ▸ he
    rcases mem_cons.mp h with rfl | h
    · exact ⟨by decide, by decide, by decide⟩
    · split at h
      · next hc => rcases hc with rfl | rfl <;> exact hletter ⟨by decide, by decide, by decide⟩ h
      · repeat' split at h
        all_goals first
          | exact hletter ⟨by decide, by decide, by decide⟩ h
          | skip
        simp only [octal, mem_append] at h
        rcases h with (h | h) | h <;> exact isFieldChar_of_mem_toDigits (by decide) (by decide) h

theorem isFieldChar_of_mem_quotePath {path : Text} {c : Char} (h : c ∈ quotePath path) :
    IsFieldChar c := by
  unfold quotePath at h
  split at h
  · next hplain => exact isFieldChar_of_isPlainChar (all_eq_true.mp hplain c h)
  · have hquote : IsFieldChar '"' := ⟨by decide, by decide, by decide⟩
    rcases mem_append.mp h with h | h
    · rcases mem_cons.mp h with rfl | h
      · exact hquote
      · obtain ⟨d, -, h⟩ := mem_flatMap.mp h
        exact isFieldChar_of_mem_escapeChar h
    · exact mem_singleton.mp h ▸ hquote

theorem DiffEntry.isFieldChar {entry : DiffEntry} : ∀ field ∈ entry.fields, ∀ c ∈ field,
    IsFieldChar c := by
  have hletter : ∀ c ∈ ['A', 'D', 'R', 'C', 'M', 'T', 'U', 'X'], IsFieldChar c := by
    simp [IsFieldChar]
  have hscore : ∀ (letter : Char) (score : Nat), letter ∈ ['A', 'D', 'R', 'C', 'M', 'T', 'U', 'X'] →
      ∀ c ∈ letter :: Nat.toDigits 10 score, IsFieldChar c := by
    intro letter score hmem c hc
    rcases mem_cons.mp hc with rfl | hc
    · exact hletter _ hmem
    · exact isFieldChar_of_mem_toDigits (by decide) le_rfl hc
  have hstatus : ∀ status : InPlaceStatus,
      status.letter ∈ ['A', 'D', 'R', 'C', 'M', 'T', 'U', 'X'] := by
    intro status
    cases status <;> decide
  intro field hfield c hc
  cases entry with
  | inPlace status path =>
      rcases mem_cons.mp hfield with rfl | hfield
      · exact mem_singleton.mp hc ▸ hletter _ (hstatus status)
      · exact isFieldChar_of_mem_quotePath (mem_singleton.mp hfield ▸ hc)
  | added path =>
      rcases mem_cons.mp hfield with rfl | hfield
      · exact mem_singleton.mp hc ▸ hletter _ (by decide)
      · exact isFieldChar_of_mem_quotePath (mem_singleton.mp hfield ▸ hc)
  | deleted path =>
      rcases mem_cons.mp hfield with rfl | hfield
      · exact mem_singleton.mp hc ▸ hletter _ (by decide)
      · exact isFieldChar_of_mem_quotePath (mem_singleton.mp hfield ▸ hc)
  | renamed score old new =>
      rcases mem_cons.mp hfield with rfl | hfield
      · exact hscore 'R' score (by decide) c hc
      · rcases mem_cons.mp hfield with rfl | hfield
        · exact isFieldChar_of_mem_quotePath hc
        · exact isFieldChar_of_mem_quotePath (mem_singleton.mp hfield ▸ hc)
  | copied score old new =>
      rcases mem_cons.mp hfield with rfl | hfield
      · exact hscore 'C' score (by decide) c hc
      · rcases mem_cons.mp hfield with rfl | hfield
        · exact isFieldChar_of_mem_quotePath hc
        · exact isFieldChar_of_mem_quotePath (mem_singleton.mp hfield ▸ hc)

/-! ## Reading lines back -/

theorem mem_joinWith {glue : Text} {c : Char} : ∀ {pieces : List Text}, c ∈ joinWith glue pieces →
    c ∈ glue ∨ ∃ piece ∈ pieces, c ∈ piece
  | [], h => absurd h not_mem_nil
  | [piece], h => Or.inr ⟨piece, mem_singleton_self _, h⟩
  | piece :: q :: qs, h => by
      rw [joinWith_cons (cons_ne_nil q qs), append_assoc, mem_append,
        mem_append] at h
      rcases h with h | h | h
      · exact Or.inr ⟨piece, mem_cons_self, h⟩
      · exact Or.inl h
      · rcases mem_joinWith h with h | ⟨r, hr, h⟩
        · exact Or.inl h
        · exact Or.inr ⟨r, mem_cons_of_mem _ hr, h⟩

def IsLine (text : Text) : Prop := '\n' ∉ text ∧ '\r' ∉ text

theorem DiffEntry.isLine (entry : DiffEntry) : IsLine entry.line := by
  have hchar : ∀ c ∈ entry.line, c ≠ '\n' ∧ c ≠ '\r' := by
    intro c hc
    rcases mem_joinWith hc with hc | ⟨field, hfield, hc⟩
    · rw [mem_singleton.mp hc]
      decide
    · exact (entry.isFieldChar field hfield c hc).2
  exact ⟨fun h => (hchar _ h).1 rfl, fun h => (hchar _ h).2 rfl⟩

theorem isLine_quotePath (path : Text) : IsLine (quotePath path) :=
  ⟨fun h => (isFieldChar_of_mem_quotePath h).2.1 rfl,
    fun h => (isFieldChar_of_mem_quotePath h).2.2 rfl⟩

theorem DiffEntry.splitOnChar_line (entry : DiffEntry) : splitOnChar '\t' entry.line = entry.fields :=
  splitOnChar_joinWith (by cases entry <;> exact cons_ne_nil _ _) fun field hfield h =>
    (entry.isFieldChar field hfield _ h).1 rfl

theorem splitOnChar_printLines : ∀ {ls : List Text}, (∀ l ∈ ls, '\n' ∉ l) →
    splitOnChar '\n' (printLines ls) = ls ++ [[]]
  | [], _ => rfl
  | l :: ls, h => by
      have hprint : printLines (l :: ls) = l ++ '\n' :: printLines ls := by
        simp [printLines, append_assoc]
      rw [hprint, splitOnChar_append, splitOnChar_of_notMem (h l mem_cons_self),
        splitOnChar_printLines fun k hk => h k (mem_cons_of_mem _ hk), singleton_append,
        cons_append]

theorem lines_printLines_eq_map {ls : List Text} (h : ∀ l ∈ ls, '\n' ∉ l) :
    lines (printLines ls) = ls.map chompReturn := by
  rw [lines, splitOnChar_printLines h]
  simp only [dropLast_concat, getLast?_concat, Option.toList]
  simp

theorem lines_printLines {ls : List Text} (h : ∀ l ∈ ls, IsLine l) : lines (printLines ls) = ls := by
  have hchomp : ∀ l ∈ ls, chompReturn l = l := fun l hl =>
    if_neg fun hlast => (h l hl).2 (mem_of_getLast? hlast)
  rw [lines_printLines_eq_map fun l hl => (h l hl).1, map_congr_left hchomp, map_id']

/-! ## What the reader makes of the listings -/

def ChangeSet.HasNew (cs : ChangeSet) (rel : Text) : Prop :=
  rel ∈ cs.changed.map Discovered.rel ∨ rel ∈ cs.added.map Discovered.rel ∨
    rel ∈ cs.renamed.map fun r => r.newFile.rel

def ChangeSet.HasOld (cs : ChangeSet) (rel : Text) : Prop :=
  rel ∈ cs.deleted ∨ rel ∈ cs.renamed.map Rename.oldRel

namespace Bootstrap

variable {subtree : Text} {current : List Discovered} {cs : ChangeSet} {rel : Text}

theorem byRel_some {d : Discovered} (h : byRel current rel = some d) :
    rel ∈ current.map Discovered.rel ∧ d.rel = rel := by
  have hd : d.rel = rel := by simpa using find?_some h
  exact ⟨hd ▸ mem_map_of_mem (mem_reverse.mp (mem_of_find?_eq_some h)), hd⟩

theorem byRel_none (h : byRel current rel = none) : rel ∉ current.map Discovered.rel := by
  intro hmem
  obtain ⟨d, hd, rfl⟩ := mem_map.mp hmem
  have := find?_eq_none.mp h d (mem_reverse.mpr hd)
  simp at this

def Prints (subtree path rel : Text) : Prop := stripPrefixPath (quotePath path) subtree = some rel

/-- A listed path in the working tree that a file of `current` is found by. -/
def NewEnd (subtree : Text) (current : List Discovered) (entry : DiffEntry) (rel : Text) : Prop :=
  rel ∈ current.map Discovered.rel ∧ ∃ path, entry.newEnd = some path ∧ Prints subtree path rel

/-- A listed path that the working tree has lost; of a rename, when the new end is
in the subtree. -/
def OldEnd (subtree : Text) (entry : DiffEntry) (rel : Text) : Prop :=
  (∃ path, entry.oldEnd = some path ∧ Prints subtree path rel) ∧
    ∀ new, entry.newEnd = some new → ∃ newRel, Prints subtree new newRel

theorem not_prints {path : Text} (h : stripPrefixPath (quotePath path) subtree = none) :
    ¬ Prints subtree path rel := by
  unfold Prints
  rw [h]
  nofun

theorem prints_found {path r : Text} {d : Discovered}
    (h : stripPrefixPath (quotePath path) subtree = some r) (hd : byRel current r = some d) :
    (rel ∈ current.map Discovered.rel ∧ Prints subtree path rel) ↔ rel = d.rel := by
  obtain ⟨hmem, hrel⟩ := byRel_some hd
  unfold Prints
  rw [h, Option.some_inj, hrel]
  exact ⟨fun h => h.2.symm, fun h => ⟨h ▸ hmem, h.symm⟩⟩

theorem not_prints_of_byRel {path r : Text}
    (h : stripPrefixPath (quotePath path) subtree = some r) (hd : byRel current r = none) :
    ¬ (rel ∈ current.map Discovered.rel ∧ Prints subtree path rel) := by
  rintro ⟨hmem, hprints⟩
  obtain rfl : r = rel := Option.some.inj (h.symm.trans hprints)
  exact byRel_none hd hmem

theorem parseDiffLine_eq (entry : DiffEntry) : parseDiffLine subtree current entry.line cs =
    match entry with
    | .inPlace _ path =>
        match stripPrefixPath (quotePath path) subtree with
        | none => cs
        | some r => match byRel current r with
          | none => cs
          | some d => { cs with changed := cs.changed ++ [d] }
    | .added path =>
        match stripPrefixPath (quotePath path) subtree with
        | none => cs
        | some r => match byRel current r with
          | none => cs
          | some d => { cs with added := cs.added ++ [d] }
    | .deleted path =>
        match stripPrefixPath (quotePath path) subtree with
        | none => cs
        | some r => { cs with deleted := cs.deleted ++ [r] }
    | .renamed _ old new =>
        match stripPrefixPath (quotePath new) subtree with
        | none => cs
        | some r => match byRel current r, stripPrefixPath (quotePath old) subtree with
          | some d, some oldRel => { cs with renamed := cs.renamed ++ [⟨oldRel, d⟩] }
          | some d, none => { cs with added := cs.added ++ [d] }
          | none, some oldRel => { cs with deleted := cs.deleted ++ [oldRel] }
          | none, none => cs
    | .copied _ _ new =>
        match stripPrefixPath (quotePath new) subtree with
        | none => cs
        | some r => match byRel current r with
          | none => cs
          | some d => { cs with added := cs.added ++ [d] } := by
  rw [parseDiffLine, entry.splitOnChar_line]
  cases entry with
  | inPlace status path => cases status <;> rfl
  | added path => rfl
  | deleted path => rfl
  | renamed score old new =>
      dsimp only [DiffEntry.fields]
      rw [if_pos (Or.inl rfl)]
      cases stripPrefixPath (quotePath new) subtree with
      | none => rfl
      | some r =>
          cases hrel : byRel current r <;> cases hold : stripPrefixPath (quotePath old) subtree <;>
            simp [hrel]
  | copied score old new =>
      dsimp only [DiffEntry.fields]
      rw [if_pos (Or.inr rfl)]
      cases stripPrefixPath (quotePath new) subtree with
      | none => rfl
      | some r => cases hrel : byRel current r <;> simp [hrel]

theorem newEnd_iff {entry : DiffEntry} {path : Text} (h : entry.newEnd = some path) :
    NewEnd subtree current entry rel ↔
      rel ∈ current.map Discovered.rel ∧ Prints subtree path rel := by
  simp [NewEnd, h]

@[simp] theorem hasNew_changed (d : Discovered) :
    ChangeSet.HasNew { cs with changed := cs.changed ++ [d] } rel ↔ cs.HasNew rel ∨ rel = d.rel := by
  simp only [ChangeSet.HasNew, map_append, mem_append, map_singleton,
    mem_singleton]
  tauto

@[simp] theorem hasNew_added (ds : List Discovered) :
    ChangeSet.HasNew { cs with added := cs.added ++ ds } rel ↔
      cs.HasNew rel ∨ rel ∈ ds.map Discovered.rel := by
  simp only [ChangeSet.HasNew, map_append, mem_append]
  tauto

@[simp] theorem hasNew_deleted (r : Text) :
    ChangeSet.HasNew { cs with deleted := cs.deleted ++ [r] } rel ↔ cs.HasNew rel := Iff.rfl

@[simp] theorem hasNew_renamed (r : Rename) :
    ChangeSet.HasNew { cs with renamed := cs.renamed ++ [r] } rel ↔
      cs.HasNew rel ∨ rel = r.newFile.rel := by
  simp only [ChangeSet.HasNew, map_append, mem_append, map_singleton,
    mem_singleton]
  tauto

@[simp] theorem hasOld_changed (ds : List Discovered) :
    ChangeSet.HasOld { cs with changed := ds } rel ↔ cs.HasOld rel := Iff.rfl

@[simp] theorem hasOld_added (ds : List Discovered) :
    ChangeSet.HasOld { cs with added := ds } rel ↔ cs.HasOld rel := Iff.rfl

@[simp] theorem hasOld_deleted (r : Text) :
    ChangeSet.HasOld { cs with deleted := cs.deleted ++ [r] } rel ↔ cs.HasOld rel ∨ rel = r := by
  simp only [ChangeSet.HasOld, mem_append, mem_singleton]
  tauto

@[simp] theorem hasOld_renamed (r : Rename) :
    ChangeSet.HasOld { cs with renamed := cs.renamed ++ [r] } rel ↔
      cs.HasOld rel ∨ rel = r.oldRel := by
  simp only [ChangeSet.HasOld, map_append, mem_append, map_singleton,
    mem_singleton]
  tauto

theorem found_iff {path : Text} {push : Discovered → ChangeSet}
    (hpush : ∀ d, (push d).HasNew rel ↔ cs.HasNew rel ∨ rel = d.rel) :
    (match stripPrefixPath (quotePath path) subtree with
      | none => cs
      | some r => match byRel current r with
        | none => cs
        | some d => push d).HasNew rel ↔
      cs.HasNew rel ∨ (rel ∈ current.map Discovered.rel ∧ Prints subtree path rel) := by
  cases hpath : stripPrefixPath (quotePath path) subtree with
  | none => exact (or_iff_left fun h => not_prints hpath h.2).symm
  | some r =>
      dsimp only
      cases hrel : byRel current r with
      | none => exact (or_iff_left (not_prints_of_byRel hpath hrel)).symm
      | some d => rw [prints_found hpath hrel, hpush]

/-- And changes nothing else. -/
theorem found_hasOld {path : Text} {push : Discovered → ChangeSet}
    (hpush : ∀ d, (push d).HasOld rel ↔ cs.HasOld rel) :
    (match stripPrefixPath (quotePath path) subtree with
      | none => cs
      | some r => match byRel current r with
        | none => cs
        | some d => push d).HasOld rel ↔ cs.HasOld rel := by
  cases stripPrefixPath (quotePath path) subtree with
  | none => exact Iff.rfl
  | some r =>
      dsimp only
      cases byRel current r with
      | none => exact Iff.rfl
      | some d => exact hpush d

theorem hasNew_parseDiffLine (entry : DiffEntry) :
    (parseDiffLine subtree current entry.line cs).HasNew rel ↔
      cs.HasNew rel ∨ NewEnd subtree current entry rel := by
  rw [parseDiffLine_eq]
  cases entry with
  | inPlace status path =>
      rw [newEnd_iff rfl]
      exact found_iff fun d => hasNew_changed d
  | added path =>
      rw [newEnd_iff rfl]
      exact found_iff fun d => by simp
  | copied score old path =>
      rw [newEnd_iff rfl]
      exact found_iff fun d => by simp
  | deleted path =>
      have hnone : ¬ NewEnd subtree current (.deleted path) rel := fun ⟨_, _, h, _⟩ => by cases h
      rw [or_iff_left hnone]
      dsimp only
      cases stripPrefixPath (quotePath path) subtree <;> simp
  | renamed score old path =>
      rw [newEnd_iff rfl]
      dsimp only
      cases hpath : stripPrefixPath (quotePath path) subtree with
      | none => exact (or_iff_left fun h => not_prints hpath h.2).symm
      | some r =>
          dsimp only
          cases hrel : byRel current r with
          | none =>
              rw [or_iff_left (not_prints_of_byRel hpath hrel)]
              cases stripPrefixPath (quotePath old) subtree <;> simp
          | some d =>
              rw [prints_found hpath hrel]
              cases stripPrefixPath (quotePath old) subtree <;> simp

theorem hasOld_parseDiffLine (entry : DiffEntry) :
    (parseDiffLine subtree current entry.line cs).HasOld rel ↔
      cs.HasOld rel ∨ OldEnd subtree entry rel := by
  have hkeeps : entry.oldEnd = none → ¬ OldEnd subtree entry rel := by
    rintro h ⟨⟨path, hpath, -⟩, -⟩
    rw [h] at hpath
    cases hpath
  rw [parseDiffLine_eq]
  cases entry with
  | inPlace status path =>
      rw [or_iff_left (hkeeps rfl)]
      exact found_hasOld fun d => hasOld_changed _
  | added path =>
      rw [or_iff_left (hkeeps rfl)]
      exact found_hasOld fun d => hasOld_added _
  | copied score old path =>
      rw [or_iff_left (hkeeps rfl)]
      exact found_hasOld fun d => hasOld_added _
  | deleted path =>
      dsimp only
      cases hpath : stripPrefixPath (quotePath path) subtree with
      | none => simp [OldEnd, DiffEntry.oldEnd, not_prints hpath]
      | some r => simp [OldEnd, DiffEntry.oldEnd, DiffEntry.newEnd, Prints, hpath, eq_comm]
  | renamed score old path =>
      dsimp only
      cases hpath : stripPrefixPath (quotePath path) subtree with
      | none => simp [OldEnd, DiffEntry.oldEnd, DiffEntry.newEnd, not_prints hpath]
      | some r =>
          dsimp only
          cases hold : stripPrefixPath (quotePath old) subtree with
          | none => cases byRel current r <;> simp [OldEnd, DiffEntry.oldEnd, not_prints hold]
          | some oldRel =>
              cases byRel current r <;>
                simp [OldEnd, DiffEntry.oldEnd, DiffEntry.newEnd, Prints, hpath, hold, eq_comm]

/-- The whole difference: what its entries add. -/
theorem foldl_parseDiffLine : ∀ (entries : List DiffEntry) (cs : ChangeSet),
    (((entries.map DiffEntry.line).foldl
        (fun cs line => parseDiffLine subtree current line cs) cs).HasNew rel ↔
      cs.HasNew rel ∨ ∃ entry ∈ entries, NewEnd subtree current entry rel) ∧
    (((entries.map DiffEntry.line).foldl
        (fun cs line => parseDiffLine subtree current line cs) cs).HasOld rel ↔
      cs.HasOld rel ∨ ∃ entry ∈ entries, OldEnd subtree entry rel)
  | [], cs => by simp
  | entry :: entries, cs => by
      obtain ⟨hnew, hold⟩ := foldl_parseDiffLine entries (parseDiffLine subtree current entry.line cs)
      rw [map_cons, foldl_cons]
      refine ⟨hnew.trans ?_, hold.trans ?_⟩
      · rw [hasNew_parseDiffLine, or_assoc, exists_mem_cons_iff]
      · rw [hasOld_parseDiffLine, or_assoc, exists_mem_cons_iff]

/-- `git diff` prints its entries. -/
def printDiff (entries : List DiffEntry) : Text := printLines (entries.map DiffEntry.line)

theorem collectTrackedChanges_iff (entries : List DiffEntry) :
    ((collectTrackedChanges subtree current (some (printDiff entries)) {}).HasNew rel ↔
      ∃ entry ∈ entries, NewEnd subtree current entry rel) ∧
    ((collectTrackedChanges subtree current (some (printDiff entries)) {}).HasOld rel ↔
      ∃ entry ∈ entries, OldEnd subtree entry rel) := by
  have hlines : lines (printDiff entries) = entries.map DiffEntry.line :=
    lines_printLines fun l hl => by
      obtain ⟨entry, -, rfl⟩ := mem_map.mp hl
      exact entry.isLine
  rw [collectTrackedChanges, hlines]
  obtain ⟨hnew, hold⟩ := foldl_parseDiffLine entries {}
  refine ⟨hnew.trans (or_iff_right ?_), hold.trans (or_iff_right ?_)⟩
  · simp [ChangeSet.HasNew]
  · simp [ChangeSet.HasOld]

/-- `git ls-files` prints one path a line. -/
def printOthers (paths : List Text) : Text := printLines (paths.map quotePath)

/-- An untracked path that a file of `current` is found by. The path is relative to
the directory of the call, and still the subtree's prefix is taken off it. -/
def OtherEnd (cc : CharClass) (subtree : Text) (current : List Discovered) (path rel : Text) :
    Prop :=
  rel ∈ current.map Discovered.rel ∧ stripPrefixPath (trim cc (quotePath path)) subtree = some rel

theorem hasNew_collectUntrackedAdds (cc : CharClass) (paths : List Text) :
    (collectUntrackedAdds cc subtree current (some (printOthers paths)) cs).HasNew rel ↔
      cs.HasNew rel ∨ ∃ path ∈ paths, OtherEnd cc subtree current path rel := by
  have hlines : lines (printOthers paths) = paths.map quotePath := lines_printLines fun l hl => by
    obtain ⟨path, -, rfl⟩ := mem_map.mp hl
    exact isLine_quotePath path
  rw [collectUntrackedAdds, hlines, hasNew_added]
  -- a file the change set holds already is not added again
  by_cases hhas : cs.HasNew rel
  · exact ⟨fun _ => Or.inl hhas, fun _ => Or.inl hhas⟩
  · refine or_congr_right ?_
    simp only [mem_map, mem_filterMap]
    constructor
    · rintro ⟨d, ⟨_, ⟨path, hpath, rfl⟩, hfound⟩, rfl⟩
      obtain ⟨r, hr, hfound⟩ := Option.bind_eq_some_iff.mp hfound
      split at hfound
      · cases hfound
      · obtain ⟨hmem, hrel⟩ := byRel_some hfound
        exact ⟨path, hpath, hrel ▸ hmem, hrel ▸ hr⟩
    · rintro ⟨path, hpath, hmem, hr⟩
      have hnew : rel ∉ cs.added.map Discovered.rel ++ cs.changed.map Discovered.rel := fun h =>
        hhas ((mem_append.mp h).elim (fun h => Or.inr (Or.inl h)) Or.inl)
      obtain ⟨d, hd⟩ := Option.ne_none_iff_exists'.mp fun h => byRel_none h hmem
      refine ⟨d, ⟨_, ⟨path, hpath, rfl⟩, ?_⟩, (byRel_some hd).2⟩
      rw [hr]
      exact (if_neg hnew).trans hd

theorem hasOld_collectUntrackedAdds (cc : CharClass) (others : Option Text) :
    (collectUntrackedAdds cc subtree current others cs).HasOld rel ↔ cs.HasOld rel := by
  cases others <;> rfl

end Bootstrap


end CodeGraph
