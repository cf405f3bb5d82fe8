import Mathlib.Algebra.Order.BigOperators.Group.List
import Mathlib.Algebra.Order.Group.Nat
import Mathlib.Data.List.Infix
import CodeGraph.Lib.SortDedup
import CodeGraph.Lib.Worklist
import CodeGraph.ModuleTree
import CodeGraph.Segments

/-!
# The include graph

Which files the `#include` lines of a file paste into it. The include
directories of the build are not known: a path that names no file next to its
includer is matched as a trailing part of every file id.

The module ends with what the graph reads of a line (`mem_direct`): every file
the preprocessor can paste for it under some include directories, unless the
path keeps a `.`, a `..` or an empty segment behind its leading `./` and `../`.
-/

namespace CodeGraph

open Relation Worklist

/-- One import of a file: its path, and whether the path is computed (a macro). -/
structure Include where
  path : Text
  computed : Bool
  deriving DecidableEq

/-- The files of the graph and the imports written in them. File ids are folded
paths of a file tree: no file lies under another. -/
structure IncludeTable where
  fileIds : List Text
  includes : List (Text × Include)
  plain : ∀ id ∈ fileIds, ∀ segment ∈ splitOnChar '/' id, IsSegment segment
  nested : ∀ id ∈ fileIds, ∀ dir ∈ (splitOnChar '/' id).inits, joinWith ['/'] dir ∈ fileIds →
    dir = splitOnChar '/' id
  written : ∀ entry ∈ includes, entry.1 ∈ fileIds

/-- Extensions of the files whose `#include` directives the graph records. -/
def cFamilyExtensions : List Text :=
  ["c", "h", "cc", "hh", "cpp", "hpp", "cxx", "c++", "hxx", "ipp", "inc", "inl"].map String.toList

def isCFamily (file : Text) : Bool :=
  match (splitOnChar '.' file).reverse with
  | ext :: _ :: _ => decide (ext.map Char.toLower ∈ cFamilyExtensions)
  | _ => false

/-- The segments of `path` folded onto `parts`, or `none` when `..` leaves the
repository. -/
def normalizeFrom : (parts segments : List Text) → Option (List Text)
  | parts, [] => some parts
  | parts, segment :: segments =>
      if segment = [] ∨ segment = ".".toList then normalizeFrom parts segments
      else if segment = "..".toList then
        if parts = [] then none else normalizeFrom parts.dropLast segments
      else normalizeFrom (parts ++ [segment]) segments

/-- `dir/path` with `.` and `..` segments folded. -/
def normalize (dir path : Text) : Option Text :=
  (normalizeFrom ((splitOnChar '/' dir).filter (· ≠ [])) (splitOnChar '/' path)).map
    (joinWith ['/'])

/-- The path without its leading `./` and `../`. -/
def includeTail (path : Text) : Text :=
  trimStartMatches ['.', '.', '/'] (trimStartMatches ['.', '/'] path)

def dirOf (includer : Text) : Text := (beforeLast ['/'] includer).getD []

namespace IncludeTable

variable (table : IncludeTable)

def byBasename (name : Text) : List Text := table.fileIds.filter fun id => basename id = name

/-- The files the include `path` written in `includer` can name. -/
def resolveInclude (includer path : Text) : List Text :=
  match (normalize (dirOf includer) path).filter (· ∈ table.fileIds) with
  | some relative => [relative]
  | none =>
      (table.byBasename (basename (includeTail path))).filter fun id =>
        id = includeTail path ∨ '/' :: includeTail path <:+ id

/-- The files each C-family file includes. -/
def direct (file : Text) : List Text :=
  if isCFamily file then
    SortDedup.sortDedup id <|
      ((table.includes.filter fun entry => entry.1 = file ∧ entry.2.computed = false).flatMap
        fun entry => table.resolveInclude file entry.2.path).filter (· ≠ file)
  else []

/-- The files that include each file directly. -/
def includers (target : Text) : List Text :=
  ((table.includes.map Prod.fst).dedup).filter fun file => target ∈ table.direct file

/-- A C-family file has an `#include` the graph cannot read. -/
def hasOpaque : Bool := table.includes.any fun entry => isCFamily entry.1 && entry.2.computed

/-- The files `start` reaches along `edges`, `start` included. Every file is put
on the worklist once, so the fuel is never short (`mem_walk`). -/
def walk (edges : Text → List Text) (start : Text) : List Text :=
  ((pushSearch edges (fun _ => ([] : List Unit)) (table.fileIds.length + 2) [start] [start] []).map
    Prod.fst).getD []

/-- The files whose translation unit holds `file`. -/
def unitsOf (file : Text) : List Text := table.walk table.includers file

/-- A file is or includes both; with a computed include anywhere, every pair may. -/
def shareAUnit (a b : Text) : Bool :=
  table.hasOpaque || (table.unitsOf a).any (· ∈ table.unitsOf b)

def closure (start : Text) : List Text := table.walk table.direct start

/-- The closures computed so far. -/
abbrev Reached := Text → Option (List Text)

/-- Runs `read` on the closure of `start`, computed once. -/
def withClosure {α : Type} (reached : Reached) (start : Text) (read : List Text → α) : α × Reached :=
  match reached start with
  | some set => (read set, reached)
  | none =>
      let set := table.closure start
      (read set, Function.update reached start (some set))

def reaches (reached : Reached) (start target : Text) : Bool × Reached :=
  if start = target then (true, reached)
  else table.withClosure reached start fun set => decide (target ∈ set)

/-- A sequence of queries, the closures kept from one to the next. -/
def answers : Reached → List (Text × Text) → List Bool
  | _, [] => []
  | reached, (start, target) :: queries =>
      let (answer, reached) := table.reaches reached start target
      answer :: answers reached queries

end IncludeTable

/-! ## Folding -/

theorem normalizeFrom_eq : ∀ (segments parts : List Text),
    normalizeFrom parts segments = lexicalFrom parts (segments.filter (· ≠ []))
  | [], _ => rfl
  | segment :: segments, parts => by
      by_cases hempty : segment = []
      · rw [normalizeFrom, if_pos (Or.inl hempty), normalizeFrom_eq segments]
        simp [hempty]
      · rw [List.filter_cons_of_pos (by simpa using hempty), normalizeFrom, lexicalFrom]
        simp only [hempty, false_or, normalizeFrom_eq segments]

theorem lexicalFrom_segments : ∀ (segments parts : List Text), (∀ s ∈ segments, IsSegment s) →
    lexicalFrom parts segments = some (parts ++ segments)
  | [], parts, _ => by rw [List.append_nil]; rfl
  | segment :: segments, parts, h => by
      obtain ⟨-, -, hdot, hdots⟩ := h segment List.mem_cons_self
      have hdot : segment ≠ ".".toList := by simpa using hdot
      have hdots : segment ≠ "..".toList := by simpa using hdots
      rw [lexicalFrom, if_neg hdot, if_neg hdots,
        lexicalFrom_segments segments _ fun s hs => h s (List.mem_cons_of_mem _ hs),
        List.append_assoc, List.singleton_append]

/-- Leading `.` segments change nothing, leading `..` segments climb. -/
theorem lexicalFrom_dots (n : Nat) (segments parts : List Text) :
    lexicalFrom parts (List.replicate n ['.'] ++ segments) = lexicalFrom parts segments := by
  induction n with
  | zero => rfl
  | succ n ih =>
      rw [List.replicate_succ, List.cons_append, lexicalFrom, if_pos (by decide), ih]

theorem lexicalFrom_climb : ∀ (n : Nat) (segments parts : List Text),
    lexicalFrom parts (List.replicate n ['.', '.'] ++ segments) =
      if n ≤ parts.length then lexicalFrom (parts.take (parts.length - n)) segments else none
  | 0, segments, parts => by simp
  | n + 1, segments, parts => by
      rw [List.replicate_succ, List.cons_append, lexicalFrom, if_neg (by decide),
        if_pos (by decide)]
      split
      · next hparts => simp [hparts]
      · next hparts =>
        have hpos : 0 < parts.length := List.length_pos_iff.mpr hparts
        rw [lexicalFrom_climb n, List.length_dropLast]
        by_cases hn : n + 1 ≤ parts.length
        · rw [if_pos hn, if_pos (by omega), List.dropLast_eq_take, List.take_take]
          congr 2
          omega
        · rw [if_neg hn, if_neg (by omega)]

theorem splitOnChar_trimStartMatches {segment : Text} (h : '/' ∉ segment) (text : Text) :
    ∃ n, splitOnChar '/' text =
      List.replicate n segment ++ splitOnChar '/' (trimStartMatches (segment ++ ['/']) text) := by
  fun_induction trimStartMatches (segment ++ ['/']) text with
  | case1 text rest hrest hlt ih =>
      obtain ⟨n, hn⟩ := ih
      refine ⟨n + 1, ?_⟩
      rw [stripPrefix_eq hrest, List.append_assoc, List.singleton_append, splitOnChar_append,
        splitOnChar_of_notMem h, hn, List.replicate_succ, List.singleton_append, List.cons_append]
  | case2 => exact ⟨0, rfl⟩
  | case3 => exact ⟨0, rfl⟩

theorem splitOnChar_includeTail (path : Text) : ∃ n k, splitOnChar '/' path =
    List.replicate n ['.'] ++ (List.replicate k ['.', '.'] ++ splitOnChar '/' (includeTail path)) := by
  obtain ⟨n, hn⟩ := splitOnChar_trimStartMatches (show '/' ∉ ['.'] by decide) path
  obtain ⟨k, hk⟩ := splitOnChar_trimStartMatches (show '/' ∉ ['.', '.'] by decide)
    (trimStartMatches ['.', '/'] path)
  exact ⟨n, k, by rw [hn]; exact congrArg _ hk⟩

variable {path : Text}

theorem lexicalFrom_includeTail
    (htail : ∀ s ∈ splitOnChar '/' (includeTail path), IsSegment s) : ∃ k, ∀ dir : List Text,
      lexicalFrom dir ((splitOnChar '/' path).filter (· ≠ [])) =
        if k ≤ dir.length then some (dir.take (dir.length - k) ++ splitOnChar '/' (includeTail path))
        else none := by
  obtain ⟨n, k, hpath⟩ := splitOnChar_includeTail path
  refine ⟨k, fun dir => ?_⟩
  have hkeep : (splitOnChar '/' path).filter (· ≠ []) = splitOnChar '/' path := by
    rw [List.filter_eq_self, hpath]
    intro s hs
    simp only [List.mem_append, List.mem_replicate] at hs
    rcases hs with ⟨-, rfl⟩ | ⟨-, rfl⟩ | hs
    · rfl
    · rfl
    · exact decide_eq_true (htail s hs).2.1
  rw [hkeep, hpath, lexicalFrom_dots, lexicalFrom_climb]
  split
  · exact lexicalFrom_segments _ _ htail
  · rfl

namespace IncludeTable

variable {table : IncludeTable}

/-! ## Directories and lookups -/

/-- A directory of the repository: neither it nor a directory above it is a file. -/
structure IsDir (table : IncludeTable) (dir : List Text) : Prop where
  segments : ∀ s ∈ dir, IsSegment s
  above : ∀ pre, pre <+: dir → joinWith ['/'] pre ∉ table.fileIds

/-- The file `path` names from the directory `dir`, its segments folded. -/
def named (table : IncludeTable) (path : Text) (dir : List Text) : Option Text :=
  ((lexicalFrom dir ((splitOnChar '/' path).filter (· ≠ []))).map (joinWith ['/'])).filter
    (· ∈ table.fileIds)

/-- The directory of a file. -/
def parent (includer : Text) : List Text := (splitOnChar '/' includer).dropLast

/-- The quoted-form lookup: the directory of the includer first, then the include
directories. -/
def lookup (table : IncludeTable) (dirs : List (List Text)) (includer path : Text) : Option Text :=
  (parent includer :: dirs).findSome? (table.named path)

variable {file : Text} {dir : List Text}

theorem named_eq_some (h : table.named path dir = some file) : file ∈ table.fileIds ∧ ∃ parts,
      lexicalFrom dir ((splitOnChar '/' path).filter (· ≠ [])) = some parts ∧
        joinWith ['/'] parts = file := by
  obtain ⟨hmap, hmem⟩ := Option.filter_eq_some_iff.mp h
  exact ⟨of_decide_eq_true hmem, Option.map_eq_some_iff.mp hmap⟩

theorem segments_of_mem (h : file ∈ table.fileIds) :
    ∀ s ∈ splitOnChar '/' file, IsSegment s := table.plain file h

variable {includer : Text}

theorem normalize_dirOf (h : includer ∈ table.fileIds) (path : Text) :
    (normalize (dirOf includer) path).filter (· ∈ table.fileIds) =
      table.named path (parent includer) := by
  have hparent : ∀ s ∈ parent includer, IsSegment s := fun s hs =>
    segments_of_mem h s (List.dropLast_subset _ hs)
  have hdir : (splitOnChar '/' (dirOf includer)).filter (· ≠ []) = parent includer := by
    have hkeep : (parent includer).filter (· ≠ []) = parent includer :=
      List.filter_eq_self.mpr fun s hs => decide_eq_true (hparent s hs).2.1
    rw [dirOf, beforeLast_singleton]
    split
    · next hnil => simp [parent, hnil, splitOnChar]
    · next hne =>
      rw [Option.getD_some, splitOnChar_joinWith hne fun s hs => (hparent s hs).1]
      exact hkeep
  rw [normalize, hdir, normalizeFrom_eq]
  rfl

theorem isDir_above (h : file ∈ table.fileIds)
    (hdir : dir <+: splitOnChar '/' file) (hne : dir ≠ splitOnChar '/' file) : table.IsDir dir where
  segments := fun s hs => segments_of_mem h s (hdir.subset hs)
  above := fun pre hpre hmem => by
    have hwhole := table.nested file h pre ((List.mem_inits _ _).mpr (hpre.trans hdir)) hmem
    exact hne (hdir.eq_of_length_le (hwhole ▸ hpre.length_le))

theorem length_le_joinWith {glue s : Text} : ∀ {pieces : List Text}, s ∈ pieces →
    s.length ≤ (joinWith glue pieces).length
  | [], h => absurd h List.not_mem_nil
  | [piece], h => by rw [List.mem_singleton.mp h]; exact le_rfl
  | piece :: q :: qs, h => by
      rw [joinWith_cons (List.cons_ne_nil q qs), List.length_append, List.length_append]
      rcases List.mem_cons.mp h with rfl | h
      · omega
      · have hrest : s.length ≤ (joinWith glue (q :: qs)).length := length_le_joinWith h
        omega

/-- A directory can be extended by as many segments as one likes. -/
theorem IsDir.deeper (h : table.IsDir dir) (k : Nat) :
    ∃ below : List Text, below.length = k ∧ table.IsDir (dir ++ below) := by
  obtain ⟨bound, hbound⟩ : ∃ bound, ∀ id ∈ table.fileIds, id.length ≤ bound := by
    refine ⟨(table.fileIds.map List.length).sum, fun id hid => ?_⟩
    exact List.single_le_sum (fun _ _ => Nat.zero_le _) _ (List.mem_map_of_mem hid)
  -- a segment longer than every file id names no file
  let segment : Text := List.replicate (bound + 1) 'd'
  have hsegment : IsSegment segment := by
    refine ⟨fun hmem => ?_, List.cons_ne_nil _ _, fun he => ?_, fun he => ?_⟩
    · exact absurd (List.mem_replicate.mp hmem).2 (by decide)
    · exact absurd (List.cons.inj he).1 (by decide)
    · exact absurd (List.cons.inj he).1 (by decide)
  refine ⟨List.replicate k segment, List.length_replicate, fun s hs => ?_, fun pre hpre hmem => ?_⟩
  · rcases List.mem_append.mp hs with hs | hs
    · exact h.segments s hs
    · rw [(List.mem_replicate.mp hs).2]
      exact hsegment
  · by_cases hlen : pre.length ≤ dir.length
    · exact h.above pre (List.prefix_of_prefix_length_le hpre (List.prefix_append _ _) hlen) hmem
    · obtain ⟨rest, rfl⟩ := List.prefix_of_prefix_length_le (List.prefix_append dir _) hpre (by omega)
      have hrest : rest <+: List.replicate k segment := (List.prefix_append_right_inj dir).mp hpre
      have hne : rest ≠ [] := fun he => hlen (by rw [he, List.append_nil])
      obtain ⟨s, hs⟩ := List.exists_mem_of_ne_nil rest hne
      have heq : s = segment := (List.mem_replicate.mp (hrest.subset hs)).2
      have hle := @length_le_joinWith ['/'] s _ (List.mem_append_right dir hs)
      have := hbound _ hmem
      rw [heq, List.length_replicate] at hle
      omega

/-- The tail of a path is folded: no `.`, `..` or empty segment is left in it. -/
def PlainTail (path : Text) : Prop := ∀ s ∈ splitOnChar '/' (includeTail path), IsSegment s

/-- A line that names no file next to its includer and whose tail is not folded. -/
def Crooked (table : IncludeTable) (includer path : Text) : Prop :=
  table.named path (parent includer) = none ∧ ¬ PlainTail path

/-- The line pastes `file` under some choice of include directories. -/
def CanName (table : IncludeTable) (includer path file : Text) : Prop :=
  ∃ dirs, (∀ dir ∈ dirs, table.IsDir dir) ∧ table.lookup dirs includer path = some file

theorem canName_of_named {relative : Text}
    (h : table.named path (parent includer) = some relative) :
    table.CanName includer path file ↔ file = relative := by
  have hlookup : ∀ dirs, table.lookup dirs includer path = some relative := fun dirs => by
    simp only [lookup, List.findSome?_cons, h]
  constructor
  · rintro ⟨dirs, -, hfile⟩
    exact (Option.some.inj ((hlookup dirs).symm.trans hfile)).symm
  · rintro rfl
    exact ⟨[], nofun, hlookup []⟩

theorem canName_of_not_named (h : table.named path (parent includer) = none) :
    table.CanName includer path file ↔ ∃ dir, table.IsDir dir ∧ table.named path dir = some file := by
  constructor
  · rintro ⟨dirs, hdirs, hfile⟩
    rw [lookup, List.findSome?_cons, h] at hfile
    obtain ⟨dir, hdir, hnamed⟩ := List.exists_of_findSome?_eq_some hfile
    exact ⟨dir, hdirs dir hdir, hnamed⟩
  · rintro ⟨dir, hdir, hnamed⟩
    refine ⟨[dir], List.forall_mem_singleton.mpr hdir, ?_⟩
    simp only [lookup, List.findSome?_cons, h, hnamed]

/-- From the directories of the repository a folded tail names every file that
ends in it, and no other. -/
theorem exists_named_iff (htail : PlainTail path) :
    (∃ dir, table.IsDir dir ∧ table.named path dir = some file) ↔
      file ∈ table.fileIds ∧ splitOnChar '/' (includeTail path) <:+ splitOnChar '/' file := by
  obtain ⟨k, hk⟩ := lexicalFrom_includeTail htail
  have hne := splitOnChar_ne_nil '/' (includeTail path)
  constructor
  · rintro ⟨dir, hdir, hnamed⟩
    obtain ⟨hmem, parts, hparts, rfl⟩ := named_eq_some hnamed
    refine ⟨hmem, ?_⟩
    rw [hk] at hparts
    split at hparts
    · cases hparts
      rw [splitOnChar_joinWith (List.append_ne_nil_of_right_ne_nil _ hne) fun s hs => ?_]
      · exact List.suffix_append _ _
      · rcases List.mem_append.mp hs with hs | hs
        · exact (hdir.segments s (List.take_subset _ _ hs)).1
        · exact (htail s hs).1
    · cases hparts
  · rintro ⟨hmem, pre, hpre⟩
    have hproper : pre ≠ splitOnChar '/' file := fun he => by
      rw [he] at hpre
      exact hne (List.append_right_eq_self.mp hpre)
    -- `k` segments further down, so that the leading `..` climb back
    obtain ⟨below, hbelow, hdir⟩ :=
      (isDir_above hmem ⟨_, hpre⟩ hproper).deeper k
    refine ⟨pre ++ below, hdir, ?_⟩
    have hlen : k ≤ (pre ++ below).length := by
      rw [List.length_append]
      omega
    have htake : (pre ++ below).take ((pre ++ below).length - k) = pre := by
      rw [List.length_append, hbelow, Nat.add_sub_cancel, List.take_left]
    rw [named, hk, if_pos hlen, htake, Option.map_some, hpre, joinWith_splitOnChar,
      Option.filter_some, if_pos (decide_eq_true hmem)]

theorem mem_byBasename_of_suffix {tail : Text} (hmem : file ∈ table.fileIds)
    (h : splitOnChar '/' tail <:+ splitOnChar '/' file) :
    file ∈ table.byBasename (basename tail) := by
  refine List.mem_filter.mpr ⟨hmem, decide_eq_true ?_⟩
  obtain ⟨pre, hpre⟩ := h
  obtain ⟨last, hlast⟩ := Option.ne_none_iff_exists'.mp
    (mt List.getLast?_eq_none_iff.mp (splitOnChar_ne_nil '/' tail))
  rw [basename, basename, ← hpre, List.getLast?_append, hlast]
  rfl

theorem mem_resolveInclude (hin : includer ∈ table.fileIds) :
    file ∈ table.resolveInclude includer path ↔
      ¬ table.Crooked includer path ∧ table.CanName includer path file := by
  rw [resolveInclude, normalize_dirOf hin]
  cases hnamed : table.named path (parent includer) with
  | some relative =>
      have hplain : ¬ table.Crooked includer path := fun h => by
        rw [Crooked, hnamed] at h
        cases h.1
      rw [canName_of_named hnamed, List.mem_singleton]
      exact (and_iff_right hplain).symm
  | none =>
      rw [canName_of_not_named hnamed]
      have hmatch : file ∈ (table.byBasename (basename (includeTail path))).filter (fun id =>
            id = includeTail path ∨ '/' :: includeTail path <:+ id) ↔
          file ∈ table.fileIds ∧ splitOnChar '/' (includeTail path) <:+ splitOnChar '/' file := by
        rw [List.mem_filter, decide_eq_true_iff, suffix_splitOnChar]
        exact ⟨fun h => ⟨(List.mem_filter.mp h.1).1, h.2⟩,
          fun h => ⟨mem_byBasename_of_suffix h.1 h.2, h.2⟩⟩
      refine hmatch.trans ?_
      by_cases htail : PlainTail path
      · rw [exists_named_iff htail]
        exact (and_iff_right fun h => h.2 htail).symm
      · have hcrooked : table.Crooked includer path := ⟨hnamed, htail⟩
        refine ⟨fun h => absurd (fun s hs => ?_) htail, fun h => absurd hcrooked h.1⟩
        exact segments_of_mem h.1 s (h.2.subset hs)

/-- An `#include` line of a C-family file with a written path. -/
def IsLine (table : IncludeTable) (includer path : Text) : Prop :=
  isCFamily includer = true ∧ (includer, ⟨path, false⟩) ∈ table.includes

/-- A line of the file that is not crooked pastes `target`. -/
def Straight (table : IncludeTable) (file target : Text) : Prop :=
  ∃ path, table.IsLine file path ∧ ¬ table.Crooked file path ∧ table.CanName file path target

theorem IsLine.mem_fileIds (h : table.IsLine includer path) :
    includer ∈ table.fileIds := table.written _ h.2

theorem mem_direct {target : Text} :
    target ∈ table.direct file ↔ target ≠ file ∧ table.Straight file target := by
  unfold direct
  split
  · next hfamily =>
    rw [SortDedup.mem_sortDedup, List.mem_filter, decide_eq_true_iff, List.mem_flatMap,
      and_comm (b := target ≠ file)]
    refine and_congr_right fun _ => ⟨?_, ?_⟩
    · rintro ⟨⟨includer, path, computed⟩, hentry, htarget⟩
      obtain ⟨hmem, hwritten⟩ := List.mem_filter.mp hentry
      obtain ⟨rfl, rfl⟩ := of_decide_eq_true hwritten
      have hline : table.IsLine includer path := ⟨hfamily, hmem⟩
      exact ⟨path, hline, (mem_resolveInclude hline.mem_fileIds).mp htarget⟩
    · rintro ⟨path, hline, hpaste⟩
      refine ⟨(file, ⟨path, false⟩), List.mem_filter.mpr ⟨hline.2, by simp⟩, ?_⟩
      exact (mem_resolveInclude hline.mem_fileIds).mpr hpaste
  · next hfamily =>
    refine ⟨fun h => absurd h List.not_mem_nil, fun ⟨_, path, hline, _⟩ => ?_⟩
    exact absurd hline.1 hfamily

end IncludeTable

end CodeGraph
