import CodeGraph.ApplyChanges
import CodeGraph.IndexOwners
import CodeGraph.LightLink
import CodeGraph.NodeIds

/-!
# The file of a qualified name

A qualified name is `<file>::<rest>`. Its file is read off in two ways: up to the
first `::`, and up to the first known extension that a `::` follows, where the
extensions are tried one after the other. The first way is right when no `::` is
in the path (`filePathOf_inFile_iff`); the second also depends on what the rest
holds (`extractFilePrefix_inFile_iff`).
-/

namespace CodeGraph

open List

/-! ## Languages -/

inductive Language
  | rust | python | typeScript | java | kotlin | swift | objC | c | cpp | go | ruby
  deriving DecidableEq

def Language.fromExtension (ext : Text) : Option Language :=
  if ext = "rs".toList then some rust
  else if ext = "py".toList then some python
  else if ext ∈ ["ts", "tsx"].map String.toList then some typeScript
  else if ext = "java".toList then some java
  else if ext ∈ ["kt", "kts"].map String.toList then some kotlin
  else if ext = "swift".toList then some swift
  else if ext ∈ ["m", "mm"].map String.toList then some objC
  else if ext ∈ ["c", "h"].map String.toList then some c
  else if ext ∈ ["cc", "cpp", "cxx", "c++", "hh", "hpp", "hxx", "ipp"].map String.toList then some cpp
  else if ext = "go".toList then some go
  else if ext = "rb".toList then some ruby
  else if ext ∈ ["js", "jsx", "mjs", "cjs"].map String.toList then some typeScript
  else none

theorem mem_allExtensions_of_fromExtension {ext : Text}
    (h : (Language.fromExtension ext).isSome) : ext ∈ allExtensions := by
  by_contra hnot
  simp [allExtensions] at hnot
  simp [Language.fromExtension, hnot] at h

theorem allExtensions_plain :
    ∀ ext ∈ allExtensions, ext ≠ [] ∧ '.' ∉ ext ∧ ':' ∉ ext := by
  decide

/-! ## The first `::` -/

def filePathOf (qualifiedName : Text) : Text :=
  match breakOn "::".toList qualifiedName with
  | some (before, _) => before
  | none => qualifiedName

section

variable {file rest : Text}

/-- Up to the first `::` of a qualified name is its file, just when no earlier `::` is
there. -/
theorem filePathOf_inFile_iff :
    filePathOf (inFile file rest) = file ↔ ¬"::".toList <:+: file ++ [':'] := by
  constructor
  · intro h
    cases hbreak : breakOn "::".toList (inFile file rest) with
    | none =>
        refine absurd ?_ (breakOn_eq_none_iff.mp hbreak)
        exact ⟨file, rest, rfl⟩
    | some found =>
        obtain ⟨before, after⟩ := found
        rw [filePathOf, hbreak] at h
        obtain rfl : before = file := h
        exact breakOn_first (by decide) hbreak
  · intro h
    rw [filePathOf, breakOn_scope h]

theorem owningFile_eq_filePathOf (id : Text) : owningFile id = filePathOf id := rfl

end

/-! ## The extensions, one after the other -/

/-- An extension where it ends a file in an id. -/
def marker (ext : Text) : Text := '.' :: ext ++ "::".toList

theorem marker_eq (ext : Text) : marker ext = ('.' :: ext ++ [':']) ++ [':'] := by
  simp [marker]

theorem marker_ne_nil (ext : Text) : marker ext ≠ [] := cons_ne_nil _ _

def triedBefore (ext : Text) : List Text := allExtensions.takeWhile (· ≠ ext)

section

variable {file rest ext : Text}

theorem dot_extension_isSuffix (h : extension file ≠ []) : '.' :: extension file <:+ file := by
  have hname : '.' :: extension file <:+ basename file := by
    rcases hdot : beforeLast ['.'] (basename file) with _ | _ | ⟨c, before⟩
    · exact absurd (by rw [extension, hdot]) h
    · exact absurd (by rw [extension, hdot]) h
    · have hext : extension file = (basename file).drop ((c :: before).length + 1) := by
        rw [extension, hdot]
        dsimp only
        rw [lastPiece, hdot]
        rfl
      obtain ⟨after, hafter⟩ := beforeLast_append_isPrefix hdot
      have hdrop : extension file = after := by
        rw [hext, ← hafter]
        exact drop_left' (by simp)
      rw [hdrop, ← hafter, append_assoc]
      exact suffix_append _ _
  exact hname.trans (basename_isSuffix file)

theorem eq_of_dot_isSuffix {a b : Text} (ha : '.' ∉ a) (hb : '.' ∉ b) (hfile : '.' :: a <:+ file)
    (hfile' : '.' :: b <:+ file) : a = b := by
  have hshort : ∀ {x y : Text}, '.' ∉ y → '.' :: x <:+ '.' :: y → x = y := by
    intro x y hy h
    rcases suffix_cons_iff.mp h with heq | hin
    · exact (List.cons.inj heq).2
    · exact absurd (hin.subset mem_cons_self) hy
  rcases suffix_or_suffix_of_suffix hfile hfile' with h | h
  · exact hshort hb h
  · exact (hshort ha h).symm

theorem not_colon_isSuffix (hext : '.' :: ext <:+ file) (hown : ':' ∉ ext) : ¬[':'] <:+ file := by
  intro h
  rcases suffix_or_suffix_of_suffix h hext with h | h
  · exact (mem_cons.mp (h.subset mem_cons_self)).elim (by decide) hown
  · exact absurd (h.subset mem_cons_self) (by decide)

theorem marker_isInfix_inFile (hext : '.' :: ext <:+ file) (hown : '.' ∉ ext ∧ ':' ∉ ext)
    {other : Text} (hplain : '.' ∉ other ∧ ':' ∉ other) (hne : other ≠ ext) :
    marker other <:+: inFile file rest ↔ marker other <:+: file ∨ marker other <:+: rest := by
  have hnot : ¬ '.' :: other <:+ file := fun h =>
    hne (eq_of_dot_isSuffix hplain.1 hown.1 h hext)
  have hcolon : ¬[':'] <:+ file := not_colon_isSuffix hext hown.2
  rw [inFile, append_assoc]
  constructor
  · intro h
    rcases infix_append_iff.mp h with h | h | ⟨left, right, hsplit, hleft, hright⟩
    · exact Or.inl h
    · -- the mark begins with a dot, the rest with two colons
      have hskip : ∀ {text : Text}, marker other <:+: ':' :: text → marker other <:+: text := by
        intro text h
        rcases infix_cons_iff.mp h with h | h
        · exact absurd (cons_prefix_cons.mp h).1 (by decide)
        · exact h
      exact Or.inr (hskip (hskip h))
    · exfalso
      rcases append_eq_append_iff.mp hsplit with ⟨mid, hmid, hrest⟩ | ⟨mid, hmid, hrest⟩
      · -- what of the mark is in the file ends in a colon, or is the extension
        rcases eq_nil_or_concat mid with rfl | ⟨front, d, rfl⟩
        · rw [hmid, append_nil] at hleft
          exact hnot hleft
        · rw [concat_eq_append] at hmid hrest
          have hd : d ∈ "::".toList := hrest ▸ by simp
          obtain rfl : d = ':' := by simpa using hd
          refine hcolon (List.IsSuffix.trans ?_ hleft)
          rw [hmid, ← append_assoc]
          exact suffix_append _ _
      · cases mid with
        | nil =>
            rw [append_nil] at hmid
            exact hnot (hmid ▸ hleft)
        | cons d mid =>
            rw [hrest] at hright
            have hd : d = ':' := (cons_prefix_cons.mp hright).1
            have hmem : ':' ∈ '.' :: other := by
              rw [hmid, hd]
              simp
            exact (mem_cons.mp hmem).elim (by decide) hplain.2
  · rintro (h | h)
    · exact h.trans (prefix_append _ _).isInfix
    · exact h.trans ((suffix_append _ _).trans (suffix_append _ _)).isInfix

/-- The mark of the file's own extension is met early only in the path itself. -/
theorem marker_isInfix_concat (hext : '.' :: ext <:+ file) (hown : ':' ∉ ext) :
    marker ext <:+: file ++ [':'] ↔ marker ext <:+: file := by
  rw [infix_concat_iff, or_iff_right]
  intro h
  rw [marker_eq, suffix_concat_iff] at h
  rcases h with h | ⟨text, htext, hsuffix⟩
  · simp at h
  · obtain rfl := (append_left_injective [':'] htext)
    exact not_colon_isSuffix hext hown ((suffix_append _ _).trans hsuffix)

theorem breakOn_marker (hext : '.' :: ext <:+ file) (hown : ':' ∉ ext) :
    ((breakOn (marker ext) (inFile file rest)).map fun (before, _) => before ++ '.' :: ext) = some file ↔
      ¬marker ext <:+: file := by
  obtain ⟨base, rfl⟩ := hext
  have hmark : base ++ (marker ext).dropLast = (base ++ '.' :: ext) ++ [':'] := by
    rw [marker_eq, dropLast_concat, append_assoc]
  have hid : inFile (base ++ '.' :: ext) rest = base ++ (marker ext ++ rest) := by
    simp [inFile, marker]
  rw [← marker_isInfix_concat (suffix_append _ _) hown, ← hmark]
  constructor
  · intro h
    obtain ⟨⟨before, after⟩, hbreak, heq⟩ := Option.map_eq_some_iff.mp h
    obtain rfl : before = base := append_cancel_right heq
    exact breakOn_first (marker_ne_nil ext) hbreak
  · intro h
    rw [hid, breakOn_append (marker_ne_nil ext) h]
    rfl

theorem triedBefore_eq {before later : List Text} (hsplit : allExtensions = before ++ ext :: later)
    (hnot : ext ∉ before) : triedBefore ext = before := by
  rw [triedBefore, hsplit, takeWhile_append_of_pos, takeWhile_cons_of_neg (by simp),
    append_nil]
  intro x hx
  exact decide_eq_true fun heq => hnot (heq ▸ hx)

/-- What the marks of one extension give, if there are any. -/
def cutAt (id ext : Text) : Option Text :=
  (breakOn (marker ext) id).map fun (before, _) => before ++ '.' :: ext

theorem extractFilePrefix_eq (id : Text) : extractFilePrefix id = allExtensions.findSome? (cutAt id) :=
  rfl

theorem cutAt_eq_none_iff {id : Text} : cutAt id ext = none ↔ ¬marker ext <:+: id := by
  rw [cutAt, Option.map_eq_none_iff, breakOn_eq_none_iff]

theorem dot_isSuffix_of_cutAt {id : Text} (h : cutAt id ext = some file) : '.' :: ext <:+ file := by
  obtain ⟨⟨before, after⟩, -, rfl⟩ := Option.map_eq_some_iff.mp h
  exact suffix_append _ _

/-- Of a file in a known language and any rest, the file is read back just when its
extension does not end an earlier part of the path, and none of those tried before
it ends a part of the path or of the rest. -/
theorem extractFilePrefix_inFile_iff (hlang : (Language.fromExtension (extension file)).isSome) :
    extractFilePrefix (inFile file rest) = some file ↔
      ¬marker (extension file) <:+: file ∧
        ∀ ext ∈ triedBefore (extension file),
          ¬marker ext <:+: file ∧ ¬marker ext <:+: rest := by
  have hmem := mem_allExtensions_of_fromExtension hlang
  obtain ⟨hne, hplain⟩ := allExtensions_plain _ hmem
  have hdot := dot_extension_isSuffix hne
  have hnone : ∀ ext ∈ triedBefore (extension file), cutAt (inFile file rest) ext = none ↔
      ¬marker ext <:+: file ∧ ¬marker ext <:+: rest := by
    intro ext hext
    have hother : ext ≠ extension file := by
      simpa using all_eq_true.mp all_takeWhile _ hext
    have hknown : ext ∈ allExtensions := takeWhile_subset _ hext
    rw [cutAt_eq_none_iff,
      marker_isInfix_inFile hdot hplain (allExtensions_plain ext hknown).2 hother, not_or]
  rw [extractFilePrefix_eq, findSome?_eq_some_iff]
  constructor
  · rintro ⟨before, ext, later, hsplit, hcut, hbefore⟩
    have hknown : ext ∈ allExtensions := hsplit ▸ by simp
    obtain rfl : ext = extension file :=
      eq_of_dot_isSuffix (allExtensions_plain ext hknown).2.1 hplain.1 (dot_isSuffix_of_cutAt hcut) hdot
    have hnot : extension file ∉ before := fun hin => by
      rw [hbefore _ hin] at hcut
      cases hcut
    refine ⟨(breakOn_marker hdot hplain.2).mp hcut, fun ext hext => (hnone ext hext).mp ?_⟩
    rw [triedBefore_eq hsplit hnot] at hext
    exact hbefore ext hext
  · rintro ⟨hpath, hearlier⟩
    obtain ⟨before, later, hsplit, hnot⟩ := eq_append_cons_of_mem hmem
    rw [← triedBefore_eq hsplit hnot] at hsplit
    exact ⟨_, _, later, hsplit, (breakOn_marker hdot hplain.2).mpr hpath,
      fun ext hext => (hnone ext hext).mpr (hearlier ext hext)⟩

/-- A path with a recognised extension ends in it, so the `::` behind it is the first
unless the path has one. -/
theorem scope_isInfix_concat (hext : '.' :: ext <:+ file) (hown : ':' ∉ ext) :
    "::".toList <:+: file ++ [':'] ↔ "::".toList <:+: file := by
  rw [infix_concat_iff, or_iff_right]
  intro h
  rw [show "::".toList = [':'] ++ [':'] from rfl, suffix_concat_iff] at h
  rcases h with h | ⟨text, htext, hsuffix⟩
  · simp at h
  · obtain rfl := append_left_injective [':'] htext
    exact not_colon_isSuffix hext hown hsuffix

/-- The file of a qualified name is read off right, by the extensions alone and by all
three readers, under exactly these conditions. -/
theorem filePrefix_exact (hlang : (Language.fromExtension (extension file)).isSome) :
    (extractFilePrefix (inFile file rest) = some file ↔
      ¬marker (extension file) <:+: file ∧
        ∀ ext ∈ triedBefore (extension file), ¬marker ext <:+: file ∧ ¬marker ext <:+: rest) ∧
    (extractFilePrefix (inFile file rest) = some file ∧ filePathOf (inFile file rest) = file ∧
        owningFile (inFile file rest) = file ↔
      ¬"::".toList <:+: file ∧ ∀ ext ∈ triedBefore (extension file), ¬marker ext <:+: rest) := by
  obtain ⟨hne, hplain⟩ := allExtensions_plain _ (mem_allExtensions_of_fromExtension hlang)
  have hscope : filePathOf (inFile file rest) = file ↔ ¬"::".toList <:+: file := by
    rw [filePathOf_inFile_iff, scope_isInfix_concat (dot_extension_isSuffix hne) hplain.2]
  refine ⟨extractFilePrefix_inFile_iff hlang, ?_⟩
  rw [extractFilePrefix_inFile_iff hlang, owningFile_eq_filePathOf, and_self, hscope]
  -- a path without `::` has no mark in it
  have hmark : ∀ ext, ¬"::".toList <:+: file → ¬marker ext <:+: file := fun ext hfile hin =>
    hfile ((suffix_append ('.' :: ext) "::".toList).isInfix.trans hin)
  constructor
  · rintro ⟨⟨-, hearlier⟩, hfile⟩
    exact ⟨hfile, fun ext hext => (hearlier ext hext).2⟩
  · rintro ⟨hfile, hrest⟩
    exact ⟨⟨hmark _ hfile, fun ext hext => ⟨hmark ext hfile, hrest ext hext⟩⟩, hfile⟩

end

/-- A Rust file comes first in the table, so no rest takes its place. -/
theorem filePrefix_exact_rust :
    extractFilePrefix (inFile "src/a.rs".toList "m.py::f".toList) = some "src/a.rs".toList :=
  (@filePrefix_exact "src/a.rs".toList "m.py::f".toList (by decide)).1.mpr
    ⟨by decide, by decide⟩

/-- A Go import of a path that ends a part like a Rust file. -/
theorem import_taken_for_file :
    ¬∀ file rest : Text, (Language.fromExtension (extension file)).isSome → rest ≠ [] →
      extractFilePrefix (inFile file rest) = some file := by
  intro h
  have hgo := h "a.go".toList "import:gen.rs::v1".toList (by decide) (by decide)
  exact absurd hgo (by decide)

end CodeGraph
